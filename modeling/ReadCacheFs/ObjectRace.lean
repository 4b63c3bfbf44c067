/-
`ObjectCacheStorage` under concurrent calls.

`Put` hands its block to the object cache in one section and records its
metadata in another; `Get`, `Delete` and `Clear` look the map up in one
section and go to the object cache in the next; and when the last reference
to a block goes, its destructor calls back into the map in a section of its
own. The machine takes one such section a step, in any order. A block whose
last reference is gone is `dying` until its callback has run.

The map and the object cache agree in every quiet state of a run, as long
as no `Put` records metadata over a newer block's or after its own block
was destroyed. `Get` checks the tag of the metadata in its first section and
takes whatever block there is in the second.
-/
import ReadCacheFs.Lib.Runs
import ReadCacheFs.ObjectStorage

namespace ReadCacheFs

open Lib

/-- A call, before the section it takes next. -/
inductive ObjCall
  | putStart (key : InMemCacheBlock) (chunk : PageAlignedDataChunk) (versionTag : String)
  /-- The block is made; only the call has it. -/
  | putMade (key : InMemCacheBlock) (m : EntryMeta)
  /-- The object cache has taken the block; the metadata is not recorded yet. -/
  | putPlaced (key : InMemCacheBlock) (m : EntryMeta)
  | getStart (key : InMemCacheBlock) (expectedVersionTag : String)
  | getStale (objCacheKey : String)
  | getFetch (key : InMemCacheBlock) (expectedVersionTag : String) (objCacheKey : String)
  | deleteStart (key : InMemCacheBlock)
  | deleteFound (objCacheKey : String)
  /-- `Clear(start_key, filter)`, or `Clear()`. -/
  | clearStart (range : Option (InMemCacheBlock × (InMemCacheBlock → Bool)))
  | clearing (objCacheKeys : List String)
  | done
  | got (key : InMemCacheBlock) (expectedVersionTag : String) (result : Option Nat)

def ObjCall.finished : ObjCall → Bool
  | .done | .got .. => true
  | _ => false

structure ObjRace where
  storage : ObjectStorage
  /-- The metadata made with each block. -/
  metas : List EntryMeta := []
  /-- The blocks whose destructor has yet to call back. -/
  dying : List Nat := []
  calls : List ObjCall := []

inductive ObjAct
  | startPut (key : InMemCacheBlock) (chunk : PageAlignedDataChunk) (versionTag : String)
  | startGet (key : InMemCacheBlock) (expectedVersionTag : String)
  | startDelete (key : InMemCacheBlock)
  | startClear (range : Option (InMemCacheBlock × (InMemCacheBlock → Bool)))
  | step (i now : Nat)
  | evict (objCacheKey : String)
  | release (b : Nat)
  | destroy (b : Nat)

namespace ObjRace

def goto (s : ObjRace) (i : Nat) (c : ObjCall) : ObjRace := { s with calls := s.calls.set i c }

/-- A reference to a block has gone; with the last one it is dying. -/
def unlink (s : ObjRace) (b : Nat) : ObjRace :=
  if s.storage.referenced b then s else { s with dying := b :: s.dying }

/-- The first part of `Put`: the block, its number and its metadata. -/
def make (s : ObjRace) (now : Nat) (key : InMemCacheBlock) (chunk : PageAlignedDataChunk) (versionTag : String) :
    EntryMeta × ObjRace :=
  let b := s.storage.blocks.length
  let m : EntryMeta :=
    { objCacheKey := makeObjCacheKey key, length := chunk.length, versionTag, insertionTimeMs := steadyMillis now
      blockId := b }
  (m, { s with storage := { s.storage with blocks := s.storage.blocks ++ [⟨key, chunk⟩] }, metas := s.metas ++ [m] })

def place (s : ObjRace) (objCacheKey : String) (b : Nat) : ObjRace :=
  let s' : ObjRace := { s with storage := { s.storage with objCache := s.storage.objCache.insert objCacheKey b } }
  match s.storage.objCache.lookup objCacheKey with
  | none => s'
  | some old => s'.unlink old

/-- `ObjectCache::Delete`, and what an eviction does. -/
def remove (s : ObjRace) (objCacheKey : String) : ObjRace :=
  match s.storage.objCache.lookup objCacheKey with
  | none => s
  | some b => ({ s with storage := { s.storage with objCache := s.storage.objCache.erase objCacheKey } } : ObjRace).unlink b

/-- The object cache keys `Clear` collects. -/
def snapshot (s : ObjRace) : Option (InMemCacheBlock × (InMemCacheBlock → Bool)) → List String
  | none => s.storage.entries.toList.map (·.2.objCacheKey)
  | some (startKey, filter) => (keysInRange s.storage.entries.keys startKey filter).filterMap
      fun k => (s.storage.entries[k]?).map (·.objCacheKey)

def callStep (s : ObjRace) (i now : Nat) : ObjCall → Option ObjRace
  | .putStart key chunk versionTag =>
    if chunk.length = 0 then some (s.goto i .done)
    else
      let (m, s) := s.make now key chunk versionTag
      some (s.goto i (.putMade key m))
  | .putMade key m => some ((s.place m.objCacheKey m.blockId).goto i (.putPlaced key m))
  | .putPlaced key m =>
    let s' : ObjRace := { s with storage := { s.storage with entries := s.storage.entries.insert key m } }
    some (s'.goto i .done)
  | .getStart key tag => match s.storage.entries[key]? with
    | none => some (s.goto i (.got key tag none))
    | some m =>
      if s.storage.stale now m tag then some (s.goto i (.getStale m.objCacheKey))
      else some (s.goto i (.getFetch key tag m.objCacheKey))
  | .getStale objCacheKey => some ((s.remove objCacheKey).goto i .done)
  | .getFetch key tag objCacheKey => match s.storage.objCache.lookup objCacheKey with
    | none => some (s.goto i (.got key tag none))
    | some b =>
      let s' : ObjRace := { s with storage := { s.storage with pins := b :: s.storage.pins } }
      some (s'.goto i (.got key tag (some b)))
  | .deleteStart key => match s.storage.entries[key]? with
    | none => some (s.goto i .done)
    | some m => some (s.goto i (.deleteFound m.objCacheKey))
  | .deleteFound objCacheKey => some ((s.remove objCacheKey).goto i .done)
  | .clearStart range => some (s.goto i (.clearing (s.snapshot range)))
  | .clearing [] => some (s.goto i .done)
  | .clearing (objCacheKey :: rest) => some ((s.remove objCacheKey).goto i (.clearing rest))
  | .done | .got .. => none

def step (s : ObjRace) : ObjAct → Option ObjRace
  | .startPut key chunk tag => some { s with calls := s.calls ++ [.putStart key chunk tag] }
  | .startGet key tag => some { s with calls := s.calls ++ [.getStart key tag] }
  | .startDelete key => some { s with calls := s.calls ++ [.deleteStart key] }
  | .startClear range => some { s with calls := s.calls ++ [.clearStart range] }
  | .step i now => (s.calls[i]?).bind (s.callStep i now)
  | .evict objCacheKey => some (s.remove objCacheKey)
  | .release b =>
    if b ∈ s.storage.pins then
      some (({ s with storage := { s.storage with pins := s.storage.pins.erase b } } : ObjRace).unlink b)
    else none
  | .destroy b => (s.storage.blocks[b]?).bind fun block =>
    if b ∈ s.dying then
      some { s with storage := s.storage.onEntryDestroyed block.key b, dying := s.dying.erase b }
    else none

/-- No call in flight, no pin alive, no destructor pending. -/
def Quiescent (s : ObjRace) : Prop :=
  (∀ c ∈ s.calls, c.finished = true) ∧ s.storage.pins = [] ∧ s.dying = []

instance (s : ObjRace) : Decidable s.Quiescent :=
  inferInstanceAs (Decidable ((∀ c ∈ s.calls, c.finished = true) ∧ s.storage.pins = [] ∧ s.dying = []))

/-! ## The condition on the order of sections -/

/-- The `Put` of the block has yet to record its metadata. -/
def unrecorded (s : ObjRace) (b : Nat) : Bool :=
  s.calls.any fun
    | .putPlaced _ m => m.blockId == b
    | _ => false

/-- A block is not destroyed yet. -/
def alive (s : ObjRace) (b : Nat) : Bool := s.storage.referenced b || s.dying.contains b

/-- `Put` records the metadata of `b`: the block is not destroyed, and a newer
block the object cache has under the key is unrecorded itself. -/
def mayRecord (s : ObjRace) (m : EntryMeta) : Bool :=
  s.alive m.blockId && (s.storage.objCache.lookup m.objCacheKey).all fun b => b == m.blockId || s.unrecorded b

/-- `Get` has checked its tag and goes to the object cache: no `Put` under
another tag has put its block under the key there. -/
def mayFetch (s : ObjRace) (tag objCacheKey : String) : Bool :=
  tag == "" || (s.storage.objCache.lookup objCacheKey).all fun b => (s.metas[b]?).all (·.versionTag == tag)

def inOrder (s : ObjRace) : ObjAct → Bool
  | .step i _ => match s.calls[i]? with
    | some (.putPlaced _ m) => s.mayRecord m
    | _ => true
  | _ => true

def fetchesInTag (s : ObjRace) : ObjAct → Bool
  | .step i _ => match s.calls[i]? with
    | some (.getFetch _ tag objCacheKey) => s.mayFetch tag objCacheKey
    | _ => true
  | _ => true

/-! ## The invariant -/

/-- The block of this metadata was made for this key. -/
def Made (s : ObjRace) (key : InMemCacheBlock) (m : EntryMeta) : Prop :=
  s.metas[m.blockId]? = some m ∧ m.objCacheKey = makeObjCacheKey key ∧
    ∃ d, s.storage.blocks[m.blockId]? = some ⟨key, d⟩

def CallOK (s : ObjRace) : ObjCall → Prop
  | .putMade key m => s.Made key m ∧ m.blockId ∉ s.dying ∧ m.blockId ∉ s.storage.pins ∧
      ∀ o, s.storage.objCache.lookup o ≠ some m.blockId
  | .putPlaced key m => s.Made key m
  | .getFetch key _ o => o = makeObjCacheKey key
  | .got key _ result => ∀ b, result = some b → ∃ m, s.Made key m ∧ m.blockId = b
  | _ => True

/-- A block in the object cache is recorded, or its `Put` is about to record
it. What is recorded is in the object cache, pinned or dying, save for the
block `loose`, which is between two of these. -/
structure Inv (loose : Option Nat) (s : ObjRace) : Prop where
  len : s.metas.length = s.storage.blocks.length
  cached : ∀ o b, s.storage.objCache.lookup o = some b → ∃ k m, o = makeObjCacheKey k ∧ s.Made k m ∧ m.blockId = b ∧
    b ∉ s.dying ∧ (s.storage.entries[k]? = some m ∨ .putPlaced k m ∈ s.calls)
  recorded : ∀ k m, s.storage.entries[k]? = some m → s.Made k m ∧
    (s.storage.objCache.lookup (makeObjCacheKey k) = some m.blockId ∨ m.blockId ∈ s.storage.pins ∨
      m.blockId ∈ s.dying ∨ some m.blockId = loose)
  pinned : ∀ b ∈ s.storage.pins, b ∉ s.dying ∧ b < s.storage.blocks.length
  dying : ∀ b ∈ s.dying, b < s.storage.blocks.length
  calls : ∀ c ∈ s.calls, s.CallOK c
  unique : ∀ (i j : Nat) key m key' m', s.calls[i]? = some (.putMade key m) → s.calls[j]? = some (.putMade key' m') →
    m.blockId = m'.blockId → i = j

variable {s : ObjRace} {loose : Option Nat} {b : Nat}

theorem Made.key_eq {k k' : InMemCacheBlock} {m m' : EntryMeta} (h : s.Made k m) (h' : s.Made k' m')
    (hb : m.blockId = m'.blockId) : k = k' ∧ m = m' := by
  obtain ⟨hm, _, d, hd⟩ := h
  obtain ⟨hm', _, d', hd'⟩ := h'
  rw [hb, hd'] at hd
  rw [hb, hm'] at hm
  cases hd
  cases hm
  exact ⟨rfl, rfl⟩

theorem mem_set_or {α : Type} {l : List α} {x : α} (hx : x ∈ l) (i : Nat) (c : α) :
    x ∈ l.set i c ∨ l[i]? = some x := by
  obtain ⟨j, hj, rfl⟩ := List.getElem_of_mem hx
  by_cases hij : i = j
  · subst hij
    exact .inr (List.getElem?_eq_getElem hj)
  · refine .inl (List.mem_of_getElem? (i := j) ?_)
    rw [List.getElem?_set_ne hij, List.getElem?_eq_getElem hj]

theorem Inv.goto (h : Inv loose s) {i : Nat} {c₀ c : ObjCall} (hi : s.calls[i]? = some c₀) (hc : s.CallOK c)
    (hplaced : ∀ k m, c₀ = .putPlaced k m → s.storage.objCache.lookup (makeObjCacheKey k) = some m.blockId →
      s.storage.entries[k]? = some m ∨ c = .putPlaced k m)
    (hmade : ∀ key m, c = .putMade key m → ∀ (j : Nat) key' m', s.calls[j]? = some (.putMade key' m') →
      m'.blockId ≠ m.blockId) : Inv loose (s.goto i c) := by
  have hlt := (List.getElem?_eq_some_iff.mp hi).1
  refine ⟨h.len, fun o b ho => ?_, h.recorded, h.pinned, h.dying, fun c' hc' => ?_,
    fun a j key m key' m' ha hj hb => ?_⟩
  · obtain ⟨k, m, rfl, hm, rfl, hd, hrec⟩ := h.cached o b ho
    refine ⟨k, m, rfl, hm, rfl, hd, ?_⟩
    rcases hrec with hrec | hrec
    · exact .inl hrec
    · rcases mem_set_or hrec i c with hset | hset
      · exact .inr hset
      · rw [hi] at hset
        rcases hplaced k m (Option.some.inj hset) ho with hrec | rfl
        · exact .inl hrec
        · exact .inr (List.mem_set hlt _)
  · rcases List.mem_or_eq_of_mem_set hc' with hc' | rfl
    · exact h.calls c' hc'
    · exact hc
  · simp only [ObjRace.goto, List.getElem?_set] at ha hj
    split at ha
    next hai =>
      split at hj
      next hji => omega
      next hji => exact absurd hb.symm (hmade key m (Option.some.inj ha) j key' m' hj)
    next hai =>
      split at hj
      next hji => exact absurd hb (hmade key' m' (Option.some.inj hj) a key m ha)
      next hji => exact h.unique a j key m key' m' ha hj hb

/-- A call goes on to a state that is neither of `Put`'s two. -/
theorem Inv.gotoPlain (h : Inv loose s) {i : Nat} {c₀ c : ObjCall} (hi : s.calls[i]? = some c₀) (hc : s.CallOK c)
    (hplaced : ∀ k m, c₀ ≠ .putPlaced k m) (hmade : ∀ key m, c ≠ .putMade key m) : Inv loose (s.goto i c) :=
  h.goto hi hc (fun k m he => absurd he (hplaced k m)) fun key m he => absurd he (hmade key m)

theorem not_referenced (h : s.storage.referenced b = false) :
    (∀ o, s.storage.objCache.lookup o ≠ some b) ∧ b ∉ s.storage.pins := by
  refine ⟨ObjectStorage.lookup_of_referenced h, ?_⟩
  simp only [ObjectStorage.referenced, Bool.or_eq_false_iff] at h
  simpa using h.2

theorem referenced_cases (h : s.storage.referenced b = true) :
    (∃ o, s.storage.objCache.lookup o = some b) ∨ b ∈ s.storage.pins := by
  simp only [ObjectStorage.referenced, Bool.or_eq_true, List.any_eq_true, beq_iff_eq] at h
  rcases h with ⟨⟨o, b'⟩, hm, rfl⟩ | h
  · exact .inl ⟨o, AList.mem_lookup_iff.mpr hm⟩
  · exact .inr (by simpa using h)

/-- The loose block is referenced still, or dying. -/
theorem Inv.unlink (h : Inv (some b) s) (hlt : b < s.storage.blocks.length)
    (hnew : ∀ key m, .putMade key m ∈ s.calls → m.blockId ≠ b) : Inv none (s.unlink b) := by
  unfold ObjRace.unlink
  split
  next href =>
    refine ⟨h.len, h.cached, fun k m hm => ?_, h.pinned, h.dying, h.calls, h.unique⟩
    obtain ⟨hmade, hrec⟩ := h.recorded k m hm
    refine ⟨hmade, ?_⟩
    rcases hrec with hrec | hrec | hrec | hrec
    · exact .inl hrec
    · exact .inr (.inl hrec)
    · exact .inr (.inr (.inl hrec))
    · obtain rfl := Option.some.inj hrec
      rcases referenced_cases href with ⟨o, ho⟩ | hp
      · obtain ⟨k', m', rfl, hmade', hb, _⟩ := h.cached o _ ho
        obtain ⟨rfl, _⟩ := hmade'.key_eq hmade hb
        exact .inl ho
      · exact .inr (.inl hp)
  next href =>
    obtain ⟨hcache, hpin⟩ := not_referenced (s := s) (by simpa using href)
    refine ⟨h.len, fun o b' ho => ?_, fun k m hm => ?_, fun b' hb' => ?_, fun b' hb' => ?_, fun c hc => ?_,
      h.unique⟩
    · obtain ⟨k, m, hk, hm, hb, hd, hrec⟩ := h.cached o b' ho
      refine ⟨k, m, hk, hm, hb, fun hmem => ?_, hrec⟩
      rcases List.mem_cons.mp hmem with rfl | hmem
      · exact hcache o ho
      · exact hd hmem
    · obtain ⟨hmade, hrec⟩ := h.recorded k m hm
      refine ⟨hmade, ?_⟩
      rcases hrec with hrec | hrec | hrec | hrec
      · exact .inl hrec
      · exact .inr (.inl hrec)
      · exact .inr (.inr (.inl (List.mem_cons_of_mem _ hrec)))
      · exact .inr (.inr (.inl (by rw [Option.some.inj hrec]; exact List.mem_cons_self)))
    · refine ⟨fun hmem => ?_, (h.pinned b' hb').2⟩
      rcases List.mem_cons.mp hmem with rfl | hmem
      · exact hpin hb'
      · exact (h.pinned b' hb').1 hmem
    · rcases List.mem_cons.mp hb' with rfl | hb'
      · exact hlt
      · exact h.dying b' hb'
    · have hok := h.calls c hc
      cases c with
      | putMade key m =>
        refine ⟨hok.1, fun hmem => ?_, hok.2.2⟩
        rcases List.mem_cons.mp hmem with he | hmem
        · exact hnew key m hc he
        · exact hok.2.1 hmem
      | _ => exact hok

theorem unlink_calls (s : ObjRace) (b : Nat) : (s.unlink b).calls = s.calls := by
  unfold ObjRace.unlink
  split <;> rfl

/-- Blocks only ever leave the object cache. -/
theorem Inv.shrinkCache (h : Inv none s) {o : String} (hb : s.storage.objCache.lookup o = some b) :
    Inv (some b) { s with storage := { s.storage with objCache := s.storage.objCache.erase o } } := by
  refine ⟨h.len, fun o' b' ho' => h.cached o' b' (ObjectStorage.lookup_erase_objCache ho').2,
    fun k m hm => ?_, h.pinned,
    h.dying, fun c hc => ?_, h.unique⟩
  · obtain ⟨hmade, hrec⟩ := h.recorded k m hm
    refine ⟨hmade, ?_⟩
    rcases hrec with hrec | hrec | hrec | hrec
    · by_cases ho : makeObjCacheKey k = o
      · rw [ho, hb] at hrec
        exact .inr (.inr (.inr hrec.symm))
      · exact .inl ((AList.lookup_erase_ne ho).trans hrec)
    · exact .inr (.inl hrec)
    · exact .inr (.inr (.inl hrec))
    · cases hrec
  · have hok := h.calls c hc
    cases c with
    | putMade key m => exact ⟨hok.1, hok.2.1, hok.2.2.1,
        fun o' ho' => hok.2.2.2 o' (ObjectStorage.lookup_erase_objCache ho').2⟩
    | _ => exact hok

theorem Inv.cached_lt (h : Inv loose s) {o : String} (hb : s.storage.objCache.lookup o = some b) :
    b < s.storage.blocks.length ∧ ∀ key m, .putMade key m ∈ s.calls → m.blockId ≠ b := by
  obtain ⟨k, m, _, ⟨hm, _⟩, rfl, _⟩ := h.cached o b hb
  refine ⟨h.len ▸ (List.getElem?_eq_some_iff.mp hm).1, fun key m' hc he => ?_⟩
  exact (h.calls _ hc).2.2.2 o (by rw [he]; exact hb)

theorem Inv.remove (h : Inv none s) (o : String) : Inv none (s.remove o) := by
  unfold ObjRace.remove
  split
  · exact h
  next b hb =>
    obtain ⟨hlt, hnew⟩ := h.cached_lt hb
    exact (h.shrinkCache hb).unlink hlt hnew

theorem remove_calls (s : ObjRace) (o : String) : (s.remove o).calls = s.calls := by
  unfold ObjRace.remove
  split
  · rfl
  · rw [unlink_calls]

/-! ## Each section keeps it -/

theorem Made.append {k : InMemCacheBlock} {m : EntryMeta} (h : s.Made k m) {s' : ObjRace} {ms : List EntryMeta}
    {bs : List CacheHttpfsDataBlock} (hmetas : s'.metas = s.metas ++ ms)
    (hblocks : s'.storage.blocks = s.storage.blocks ++ bs) : s'.Made k m := by
  obtain ⟨hm, ho, d, hd⟩ := h
  refine ⟨?_, ho, d, ?_⟩
  · rw [hmetas, List.getElem?_append_left (List.getElem?_eq_some_iff.mp hm).1, hm]
  · rw [hblocks, List.getElem?_append_left (List.getElem?_eq_some_iff.mp hd).1, hd]

theorem Inv.start (h : Inv none s) {c : ObjCall} (hc : s.CallOK c) (hmade : ∀ key m, c ≠ .putMade key m) :
    Inv none { s with calls := s.calls ++ [c] } := by
  have hold : ∀ (i : Nat) key m, (s.calls ++ [c])[i]? = some (.putMade key m) →
      s.calls[i]? = some (.putMade key m) := by
    intro i key m hi
    rw [List.getElem?_append] at hi
    split at hi
    · exact hi
    · exact absurd (List.mem_singleton.mp (List.mem_of_getElem? hi)).symm (hmade key m)
  refine ⟨h.len, fun o b ho => ?_, h.recorded, h.pinned, h.dying, fun c' hc' => ?_, fun i j key m key' m' hi hj =>
    h.unique i j key m key' m' (hold i key m hi) (hold j key' m' hj)⟩
  · obtain ⟨k, m, hk, hm, hb, hd, hrec⟩ := h.cached o b ho
    exact ⟨k, m, hk, hm, hb, hd, hrec.imp_right fun hmem => List.mem_append_left _ hmem⟩
  · rcases List.mem_append.mp hc' with hc' | hc'
    · exact h.calls c' hc'
    · rw [List.mem_singleton.mp hc']
      exact hc

theorem Inv.make (h : Inv none s) {i : Nat} {c₀ : ObjCall} (hi : s.calls[i]? = some c₀)
    (hc₀ : ∀ k m, c₀ ≠ .putPlaced k m) (now : Nat) (key : InMemCacheBlock) (chunk : PageAlignedDataChunk)
    (tag : String) :
    Inv none ((s.make now key chunk tag).2.goto i (.putMade key (s.make now key chunk tag).1)) := by
  have hmade : ∀ {k m}, s.Made k m → (s.make now key chunk tag).2.Made k m := fun hm => hm.append rfl rfl
  have hlt : ∀ {k m}, s.Made k m → m.blockId < s.storage.blocks.length := fun hm =>
    h.len ▸ (List.getElem?_eq_some_iff.mp hm.1).1
  have hinv : Inv none (s.make now key chunk tag).2 := by
    refine ⟨?_, fun o b ho => ?_, fun k m hm => ?_, fun b hb => ?_, fun b hb => ?_, fun c hc => ?_, h.unique⟩
    · simp only [ObjRace.make, List.length_append, h.len, List.length_cons, List.length_nil]
    · obtain ⟨k, m, hk, hm, hb, hd, hrec⟩ := h.cached o b ho
      exact ⟨k, m, hk, hmade hm, hb, hd, hrec⟩
    · exact ⟨hmade (h.recorded k m hm).1, (h.recorded k m hm).2⟩
    · obtain ⟨hd, hb⟩ := h.pinned b hb
      refine ⟨hd, ?_⟩
      simp only [ObjRace.make, List.length_append]
      omega
    · have := h.dying b hb
      simp only [ObjRace.make, List.length_append]
      omega
    · have hok := h.calls c hc
      cases c with
      | putMade key m => exact ⟨hmade hok.1, hok.2⟩
      | putPlaced key m => exact hmade hok
      | got key tag result =>
        intro b hb
        obtain ⟨m, hm, hid⟩ := hok b hb
        exact ⟨m, hmade hm, hid⟩
      | _ => exact hok
  -- The new number is one no block has.
  refine hinv.goto hi ⟨⟨?_, rfl, chunk, ?_⟩, fun hd => ?_, fun hp => ?_, fun o ho => ?_⟩
    (fun k m he => absurd he (hc₀ k m))
    fun key' m' he j key'' m'' hj => ?_
  · simp only [ObjRace.make, ← h.len]
    exact List.getElem?_concat_length
  · exact List.getElem?_concat_length
  · exact Nat.lt_irrefl _ (h.dying _ hd)
  · exact Nat.lt_irrefl _ (h.pinned _ hp).2
  · exact Nat.lt_irrefl _ (h.cached_lt ho).1
  · cases he
    exact Nat.ne_of_lt (hlt (h.calls _ (List.mem_of_getElem? hj)).1)

/-- The object cache takes a block in, under its key. -/
theorem Inv.insertCache (h : Inv none s) {i : Nat} {key : InMemCacheBlock} {m : EntryMeta}
    (hi : s.calls[i]? = some (.putMade key m)) :
    let s' : ObjRace :=
      { s with storage := { s.storage with objCache := s.storage.objCache.insert m.objCacheKey m.blockId } }
    Inv (s.storage.objCache.lookup m.objCacheKey) (s'.goto i (.putPlaced key m)) := by
  intro s'
  obtain ⟨hmade, hdying, hpins, hfresh⟩ := h.calls _ (List.mem_of_getElem? hi)
  have hkey := hmade.2.1
  have hlt := (List.getElem?_eq_some_iff.mp hi).1
  have hins : ∀ {o b}, (s.storage.objCache.insert m.objCacheKey m.blockId).lookup o = some b →
      (o = m.objCacheKey ∧ b = m.blockId) ∨ (o ≠ m.objCacheKey ∧ s.storage.objCache.lookup o = some b) := by
    intro o b ho
    by_cases hk : o = m.objCacheKey
    · subst hk
      rw [AList.lookup_insert] at ho
      exact .inl ⟨rfl, (Option.some.inj ho).symm⟩
    · rw [AList.lookup_insert_ne hk] at ho
      exact .inr ⟨hk, ho⟩
  have hset : ∀ (j : Nat) {key' m'}, (s.calls.set i (.putPlaced key m))[j]? = some (.putMade key' m') →
      j ≠ i ∧ s.calls[j]? = some (.putMade key' m') := by
    intro j key' m' hj
    rw [List.getElem?_set] at hj
    split at hj
    next hij => simp at hj
    next hij => exact ⟨Ne.symm hij, hj⟩
  refine ⟨h.len, fun o b ho => ?_, fun k m' hm' => ?_, h.pinned, h.dying, fun c hc => ?_,
    fun a j key₁ m₁ key₂ m₂ ha hj hb =>
    h.unique a j key₁ m₁ key₂ m₂ (hset a ha).2 (hset j hj).2 hb⟩
  · rcases hins ho with ⟨rfl, rfl⟩ | ⟨_, ho⟩
    · exact ⟨key, m, hkey, hmade, rfl, hdying, .inr (List.mem_set hlt _)⟩
    · obtain ⟨k, m', hk, hm', hb, hd, hrec⟩ := h.cached o b ho
      refine ⟨k, m', hk, hm', hb, hd, hrec.imp_right fun hmem => ?_⟩
      rcases mem_set_or hmem i (.putPlaced key m) with hmem | hmem
      · exact hmem
      · rw [hi] at hmem
        cases hmem
  · obtain ⟨hmade', hrec⟩ := h.recorded k m' hm'
    refine ⟨hmade', ?_⟩
    rcases hrec with hrec | hrec | hrec | hrec
    · by_cases hk : makeObjCacheKey k = m.objCacheKey
      · exact .inr (.inr (.inr (by rw [← hk]; exact hrec.symm)))
      · exact .inl ((AList.lookup_insert_ne hk).trans hrec)
    · exact .inr (.inl hrec)
    · exact .inr (.inr (.inl hrec))
    · cases hrec
  · obtain ⟨j, hj⟩ := List.mem_iff_getElem?.mp hc
    rcases List.mem_or_eq_of_mem_set hc with hc | rfl
    · have hok := h.calls c hc
      cases c with
      | putMade key' m' =>
        refine ⟨hok.1, hok.2.1, hok.2.2.1, fun o ho => ?_⟩
        rcases hins ho with ⟨_, hb⟩ | ⟨_, ho⟩
        · obtain ⟨hne, hj⟩ := hset j hj
          exact hne (h.unique j i key' m' key m hj hi hb)
        · exact hok.2.2.2 o ho
      | _ => exact hok
    · exact hmade

theorem unlink_goto (s : ObjRace) (b i : Nat) (c : ObjCall) : (s.unlink b).goto i c = (s.goto i c).unlink b := by
  unfold ObjRace.unlink ObjRace.goto
  dsimp only
  split <;> rfl

theorem Inv.place (h : Inv none s) {i : Nat} {key : InMemCacheBlock} {m : EntryMeta}
    (hi : s.calls[i]? = some (.putMade key m)) :
    Inv none ((s.place m.objCacheKey m.blockId).goto i (.putPlaced key m)) := by
  have hins := h.insertCache hi
  unfold ObjRace.place
  dsimp only at hins ⊢
  split
  next hn =>
    rw [hn] at hins
    exact hins
  next old hold =>
    rw [hold] at hins
    rw [unlink_goto]
    obtain ⟨hlt, hnew⟩ := h.cached_lt hold
    refine hins.unlink hlt fun key' m' hc => ?_
    rcases List.mem_or_eq_of_mem_set hc with hc | hc
    · exact hnew key' m' hc
    · cases hc

theorem unrecorded_iff : s.unrecorded b = true ↔ ∃ k m, .putPlaced k m ∈ s.calls ∧ m.blockId = b := by
  simp only [ObjRace.unrecorded, List.any_eq_true]
  constructor
  · intro ⟨c, hc, hb⟩
    cases c with
    | putPlaced k m => exact ⟨k, m, hc, by simpa using hb⟩
    | _ => cases hb
  · intro ⟨k, m, hc, hb⟩
    exact ⟨_, hc, by simpa using hb⟩

/-- The metadata goes in: over no other block that is recorded and still in
the object cache, and only for a block that is alive. -/
theorem Inv.insertEntry (h : Inv none s) {key : InMemCacheBlock} {m : EntryMeta} (hc : .putPlaced key m ∈ s.calls)
    (hmay : s.mayRecord m = true) :
    Inv none { s with storage := { s.storage with entries := s.storage.entries.insert key m } } := by
  have hmade : s.Made key m := h.calls _ hc
  simp only [ObjRace.mayRecord, ObjRace.alive, Bool.and_eq_true, Bool.or_eq_true] at hmay
  obtain ⟨halive, hnewer⟩ := hmay
  refine ⟨h.len, fun o b ho => ?_, fun k m' hm' => ?_, h.pinned, h.dying, h.calls, h.unique⟩
  · obtain ⟨k, m', hk, hm', hb, hd, hrec⟩ := h.cached o b ho
    refine ⟨k, m', hk, hm', hb, hd, ?_⟩
    rcases hrec with hrec | hrec
    · by_cases hkk : k = key
      · subst hkk
        rw [hmade.2.1, ← hk, ho] at hnewer
        simp only [Option.all_some, Bool.or_eq_true, beq_iff_eq] at hnewer
        rcases hnewer with hsame | hun
        · obtain ⟨_, rfl⟩ := hm'.key_eq hmade (hb.trans hsame)
          exact .inl Std.TreeMap.getElem?_insert_self
        · obtain ⟨k', m'', hc', hb'⟩ := unrecorded_iff.mp hun
          obtain ⟨rfl, rfl⟩ := hm'.key_eq (h.calls _ hc') (hb.trans hb'.symm)
          exact .inr hc'
      · exact .inl ((SharedValueLruCache.getElem?_insert_ne hkk).trans hrec)
    · exact .inr hrec
  · by_cases hkk : k = key
    · subst hkk
      obtain rfl : m = m' := Option.some.inj (Std.TreeMap.getElem?_insert_self.symm.trans hm')
      refine ⟨hmade, ?_⟩
      rcases halive with href | hdy
      · rcases referenced_cases href with ⟨o, ho⟩ | hp
        · obtain ⟨k', m', rfl, hm', hb, _⟩ := h.cached o _ ho
          obtain ⟨rfl, _⟩ := hm'.key_eq hmade hb
          exact .inl ho
        · exact .inr (.inl hp)
      · exact .inr (.inr (.inl (by simpa using hdy)))
    · exact h.recorded k m' ((SharedValueLruCache.getElem?_insert_ne hkk).symm.trans hm')

theorem Inv.record (h : Inv none s) {i : Nat} {key : InMemCacheBlock} {m : EntryMeta}
    (hi : s.calls[i]? = some (.putPlaced key m)) (hmay : s.mayRecord m = true) :
    Inv none (({ s with storage := { s.storage with entries := s.storage.entries.insert key m } } : ObjRace).goto i .done) := by
  refine (h.insertEntry (List.mem_of_getElem? hi) hmay).goto hi trivial
    (fun k m' he _ => .inl ?_) fun _ _ he => by cases he
  cases he
  exact Std.TreeMap.getElem?_insert_self

theorem Inv.pin (h : Inv none s) {o : String} (hb : s.storage.objCache.lookup o = some b) :
    Inv none { s with storage := { s.storage with pins := b :: s.storage.pins } } := by
  obtain ⟨hlt, hnew⟩ := h.cached_lt hb
  obtain ⟨_, _, _, _, _, hd, _⟩ := h.cached o b hb
  refine ⟨h.len, h.cached, fun k m hm => ?_, fun b' hb' => ?_, h.dying, fun c hc => ?_, h.unique⟩
  · obtain ⟨hmade, hrec⟩ := h.recorded k m hm
    exact ⟨hmade, hrec.imp_right fun hrec => hrec.imp_left fun hp => List.mem_cons_of_mem _ hp⟩
  · rcases List.mem_cons.mp hb' with rfl | hb'
    · exact ⟨hd, hlt⟩
    · exact h.pinned b' hb'
  · have hok := h.calls c hc
    cases c with
    | putMade key m =>
      refine ⟨hok.1, hok.2.1, fun hmem => ?_, hok.2.2.2⟩
      rcases List.mem_cons.mp hmem with he | hmem
      · exact hnew key m hc he
      · exact hok.2.2.1 hmem
    | _ => exact hok

/-- What a fetch returns: a block made for the key. -/
theorem Inv.fetched (h : Inv none s) {key : InMemCacheBlock} {tag o : String}
    (hok : s.CallOK (.getFetch key tag o)) (hb : s.storage.objCache.lookup o = some b) :
    s.CallOK (.got key tag (some b)) := by
  have hok : o = makeObjCacheKey key := hok
  subst hok
  intro b' hb'
  cases hb'
  obtain ⟨k, m, hk, hm, rfl, _⟩ := h.cached _ b hb
  obtain rfl := makeObjCacheKey_injective hk
  exact ⟨m, hm, rfl⟩

theorem Inv.release (h : Inv none s) (hb : b ∈ s.storage.pins) :
    Inv none (({ s with storage := { s.storage with pins := s.storage.pins.erase b } } : ObjRace).unlink b) := by
  have hloose : Inv (some b) { s with storage := { s.storage with pins := s.storage.pins.erase b } } := by
    refine ⟨h.len, h.cached, fun k m hm => ?_, fun b' hb' => h.pinned b' (List.mem_of_mem_erase hb'), h.dying,
      fun c hc => ?_, h.unique⟩
    · obtain ⟨hmade, hrec⟩ := h.recorded k m hm
      refine ⟨hmade, ?_⟩
      rcases hrec with hrec | hrec | hrec | hrec
      · exact .inl hrec
      · by_cases he : m.blockId = b
        · exact .inr (.inr (.inr (congrArg some he)))
        · exact .inr (.inl ((List.mem_erase_of_ne he).mpr hrec))
      · exact .inr (.inr (.inl hrec))
      · cases hrec
    · have hok := h.calls c hc
      cases c with
      | putMade key m => exact ⟨hok.1, hok.2.1, fun hmem => hok.2.2.1 (List.mem_of_mem_erase hmem), hok.2.2.2⟩
      | _ => exact hok
  refine hloose.unlink (h.pinned b hb).2 fun key m hc he => ?_
  exact (h.calls _ hc).2.2.1 (by rw [he]; exact hb)

theorem onEntryDestroyed_entries (s : ObjectStorage) {key k : InMemCacheBlock} {m : EntryMeta} :
    (s.onEntryDestroyed key b).entries[k]? = some m ↔ s.entries[k]? = some m ∧ ¬(k = key ∧ m.blockId = b) := by
  unfold ObjectStorage.onEntryDestroyed
  split
  next hn =>
    refine ⟨fun hm => ⟨hm, fun ⟨hk, _⟩ => ?_⟩, And.left⟩
    rw [hk, hn] at hm
    cases hm
  next m' hm' =>
    split
    next hne =>
      refine ⟨fun hm => ⟨hm, fun ⟨hk, hb⟩ => ?_⟩, And.left⟩
      rw [hk, hm'] at hm
      cases hm
      exact hne hb
    next he =>
      by_cases hk : k = key
      · subst hk
        rw [Std.TreeMap.getElem?_erase_self]
        refine ⟨fun hm => (by cases hm), fun ⟨hm, hn⟩ => absurd ⟨rfl, ?_⟩ hn⟩
        rw [hm'] at hm
        cases hm
        exact not_not.mp he
      · rw [SharedValueLruCache.getElem?_erase_ne hk]
        exact ⟨fun hm => ⟨hm, fun hn => hk hn.1⟩, And.left⟩

theorem onEntryDestroyed_eq (s : ObjectStorage) (key : InMemCacheBlock) (b : Nat) :
    s.onEntryDestroyed key b = { s with entries := (s.onEntryDestroyed key b).entries } := by
  unfold ObjectStorage.onEntryDestroyed
  split
  · rfl
  split <;> rfl

/-- The callback takes out the metadata of the block that died, if it is still there. -/
theorem Inv.destroy (h : Inv none s) {block : CacheHttpfsDataBlock} (hblock : s.storage.blocks[b]? = some block)
    (hb : b ∈ s.dying) :
    Inv none { s with storage := s.storage.onEntryDestroyed block.key b, dying := s.dying.erase b } := by
  have hent : ∀ {k : InMemCacheBlock} {m}, (s.storage.onEntryDestroyed block.key b).entries[k]? = some m ↔
      s.storage.entries[k]? = some m ∧ ¬(k = block.key ∧ m.blockId = b) := onEntryDestroyed_entries s.storage
  rw [onEntryDestroyed_eq]
  refine ⟨h.len, fun o b' ho => ?_, fun k m hm => ?_, fun b' hb' => ?_,
    fun b' hb' => h.dying b' (List.mem_of_mem_erase hb'),
    fun c hc => ?_, h.unique⟩
  · obtain ⟨k, m, hk, hm, rfl, hd, hrec⟩ := h.cached o b' ho
    refine ⟨k, m, hk, hm, rfl, fun hmem => hd (List.mem_of_mem_erase hmem), hrec.imp_left fun hrec => ?_⟩
    exact hent.mpr ⟨hrec, fun ⟨_, he⟩ => hd (he ▸ hb)⟩
  · obtain ⟨hm, hother⟩ := hent.mp hm
    obtain ⟨hmade, hrec⟩ := h.recorded k m hm
    refine ⟨hmade, hrec.imp_right fun hrec => hrec.imp_right fun hrec => hrec.imp_left fun hd => ?_⟩
    refine (List.mem_erase_of_ne fun he => hother ⟨?_, he⟩).mpr hd
    obtain ⟨_, _, d, hd⟩ := hmade
    rw [he, hblock] at hd
    cases hd
    rfl
  · exact ⟨fun hmem => (h.pinned b' hb').1 (List.mem_of_mem_erase hmem), (h.pinned b' hb').2⟩
  · have hok := h.calls c hc
    cases c with
    | putMade key m => exact ⟨hok.1, fun hmem => hok.2.1 (List.mem_of_mem_erase hmem), hok.2.2⟩
    | _ => exact hok

/-! ## Runs -/

theorem Inv.removeGoto (h : Inv none s) {i : Nat} {c₀ c : ObjCall} (hi : s.calls[i]? = some c₀) (o : String)
    (hplaced : ∀ k m, c₀ ≠ .putPlaced k m) (hc : (s.remove o).CallOK c) (hmade : ∀ key m, c ≠ .putMade key m) :
    Inv none ((s.remove o).goto i c) :=
  (h.remove o).gotoPlain (by rw [remove_calls]; exact hi) hc hplaced hmade

theorem Inv.callStep (h : Inv none s) {s' : ObjRace} {i now : Nat} {c : ObjCall} (hi : s.calls[i]? = some c)
    (hord : s.inOrder (.step i now) = true) (hs : s.callStep i now c = some s') : Inv none s' := by
  have hmem := List.mem_of_getElem? hi
  simp only [ObjRace.inOrder, hi] at hord
  cases c with
  | putStart key chunk tag =>
    simp only [ObjRace.callStep] at hs
    split at hs
    · cases hs
      exact h.gotoPlain hi trivial (fun _ _ he => by cases he) fun _ _ he => by cases he
    · cases hs
      exact h.make hi (fun _ _ he => by cases he) now key chunk tag
  | putMade key m =>
    cases hs
    exact h.place hi
  | putPlaced key m =>
    cases hs
    exact h.record hi hord
  | getStart key tag =>
    simp only [ObjRace.callStep] at hs
    split at hs
    · cases hs
      exact h.gotoPlain hi (fun _ he => by cases he) (fun _ _ he => by cases he) fun _ _ he => by cases he
    next m hm =>
      split at hs
      · cases hs
        exact h.gotoPlain hi trivial (fun _ _ he => by cases he) fun _ _ he => by cases he
      · cases hs
        have hok : s.CallOK (.getFetch key tag m.objCacheKey) := (h.recorded key m hm).1.2.1
        exact h.gotoPlain hi hok (fun _ _ he => by cases he) fun _ _ he => by cases he
  | getStale o =>
    cases hs
    exact h.removeGoto hi o (fun _ _ he => by cases he) trivial fun _ _ he => by cases he
  | getFetch key tag o =>
    simp only [ObjRace.callStep] at hs
    split at hs
    · cases hs
      exact h.gotoPlain hi (fun _ he => by cases he) (fun _ _ he => by cases he) fun _ _ he => by cases he
    next b hb =>
      cases hs
      exact (h.pin hb).gotoPlain hi (h.fetched (h.calls _ hmem) hb) (fun _ _ he => by cases he) fun _ _ he =>
        by cases he
  | deleteStart key =>
    simp only [ObjRace.callStep] at hs
    split at hs
    · cases hs
      exact h.gotoPlain hi trivial (fun _ _ he => by cases he) fun _ _ he => by cases he
    · cases hs
      exact h.gotoPlain hi trivial (fun _ _ he => by cases he) fun _ _ he => by cases he
  | deleteFound o =>
    cases hs
    exact h.removeGoto hi o (fun _ _ he => by cases he) trivial fun _ _ he => by cases he
  | clearStart range =>
    cases hs
    exact h.gotoPlain hi trivial (fun _ _ he => by cases he) fun _ _ he => by cases he
  | clearing os =>
    cases os with
    | nil =>
      cases hs
      exact h.gotoPlain hi trivial (fun _ _ he => by cases he) fun _ _ he => by cases he
    | cons o rest =>
      cases hs
      exact h.removeGoto hi o (fun _ _ he => by cases he) trivial fun _ _ he => by cases he
  | done => cases hs
  | got key tag result => cases hs

theorem Inv.step (h : Inv none s) {s' : ObjRace} {a : ObjAct} (hord : s.inOrder a = true)
    (hs : s.step a = some s') :
    Inv none s' := by
  cases a with
  | startPut key chunk tag =>
    cases hs
    exact h.start trivial fun _ _ he => by cases he
  | startGet key tag =>
    cases hs
    exact h.start trivial fun _ _ he => by cases he
  | startDelete key =>
    cases hs
    exact h.start trivial fun _ _ he => by cases he
  | startClear range =>
    cases hs
    exact h.start trivial fun _ _ he => by cases he
  | step i now =>
    obtain ⟨c, hi, hc⟩ := Option.bind_eq_some_iff.mp hs
    exact h.callStep hi hord hc
  | evict o =>
    cases hs
    exact h.remove o
  | release b =>
    simp only [ObjRace.step] at hs
    split at hs
    next hb =>
      cases hs
      exact h.release hb
    · cases hs
  | destroy b =>
    obtain ⟨block, hblock, hs⟩ := Option.bind_eq_some_iff.mp hs
    split at hs
    next hb =>
      cases hs
      exact h.destroy hblock hb
    · cases hs

theorem Inv.init (timeoutMillisec : Nat) : Inv none { storage := { timeoutMillisec } } where
  len := rfl
  cached o b ho := by cases ho
  recorded k m hm := by simp at hm
  pinned b hb := by cases hb
  dying b hb := by cases hb
  calls c hc := by cases hc
  unique i j key m key' m' hi hj hb := by simp at hi

/-! ## What a `Get` returns -/

theorem remove_metas (s : ObjRace) (o : String) : (s.remove o).metas = s.metas := by
  unfold ObjRace.remove ObjRace.unlink
  split
  · rfl
  · split <;> rfl

theorem place_metas (s : ObjRace) (o : String) (b : Nat) : (s.place o b).metas = s.metas := by
  unfold ObjRace.place ObjRace.unlink
  dsimp only
  split
  · rfl
  · split <;> rfl

theorem place_calls (s : ObjRace) (o : String) (b : Nat) : (s.place o b).calls = s.calls := by
  unfold ObjRace.place
  dsimp only
  split
  · rfl
  · rw [unlink_calls]

/-- What a section may add: metadata, and a `Get` that has returned what the object cache has. -/
theorem callStep_got {s' : ObjRace} {i now : Nat} {c : ObjCall} (hs : s.callStep i now c = some s') :
    (∃ ms, s'.metas = s.metas ++ ms) ∧ ∀ key tag b, .got key tag (some b) ∈ s'.calls →
      .got key tag (some b) ∈ s.calls ∨ ∃ o, c = .getFetch key tag o ∧ s.storage.objCache.lookup o = some b := by
  have hplain : ∀ {t : ObjRace} {c' : ObjCall}, t.calls = s.calls → (∃ ms, t.metas = s.metas ++ ms) →
      (∀ key tag b, c' ≠ .got key tag (some b)) → (∃ ms, (t.goto i c').metas = s.metas ++ ms) ∧
        ∀ key tag b, .got key tag (some b) ∈ (t.goto i c').calls →
          .got key tag (some b) ∈ s.calls ∨ ∃ o, c = .getFetch key tag o ∧
            s.storage.objCache.lookup o = some b := by
    intro t c' hcalls hmetas hne
    refine ⟨hmetas, fun key tag b hmem => .inl ?_⟩
    rcases List.mem_or_eq_of_mem_set hmem with hmem | he
    · exact hcalls ▸ hmem
    · exact absurd he.symm (hne key tag b)
  have hsame : ∃ ms, s.metas = s.metas ++ ms := ⟨[], (List.append_nil _).symm⟩
  have hremoved : ∀ o, ∃ ms, (s.remove o).metas = s.metas ++ ms := fun o => by rw [remove_metas]; exact hsame
  cases c with
  | putStart key chunk tag =>
    simp only [ObjRace.callStep] at hs
    split at hs
    · cases hs
      exact hplain rfl hsame fun _ _ _ => by simp
    · cases hs
      exact hplain rfl ⟨_, rfl⟩ fun _ _ _ => by simp
  | putMade key m =>
    cases hs
    exact hplain (place_calls ..) (by rw [place_metas]; exact hsame) fun _ _ _ => by simp
  | putPlaced key m =>
    cases hs
    exact hplain rfl hsame fun _ _ _ => by simp
  | getStart key tag =>
    simp only [ObjRace.callStep] at hs
    split at hs
    · cases hs
      exact hplain rfl hsame fun _ _ _ => by simp
    · split at hs
      · cases hs
        exact hplain rfl hsame fun _ _ _ => by simp
      · cases hs
        exact hplain rfl hsame fun _ _ _ => by simp
  | getFetch key tag o =>
    simp only [ObjRace.callStep] at hs
    split at hs
    · cases hs
      exact hplain rfl hsame fun _ _ _ => by simp
    next b hb =>
      cases hs
      refine ⟨hsame, fun key' tag' b' hmem => ?_⟩
      rcases List.mem_or_eq_of_mem_set hmem with hmem | he
      · exact .inl hmem
      · cases he
        exact .inr ⟨o, rfl, hb⟩
  | deleteStart key =>
    simp only [ObjRace.callStep] at hs
    split at hs
    · cases hs
      exact hplain rfl hsame fun _ _ _ => by simp
    · cases hs
      exact hplain rfl hsame fun _ _ _ => by simp
  | clearStart range =>
    cases hs
    exact hplain rfl hsame fun _ _ _ => by simp
  | clearing os =>
    cases os with
    | nil =>
      cases hs
      exact hplain rfl hsame fun _ _ _ => by simp
    | cons o rest =>
      cases hs
      exact hplain (remove_calls ..) (hremoved o) fun _ _ _ => by simp
  | getStale o | deleteFound o =>
    cases hs
    exact hplain (remove_calls ..) (hremoved o) fun _ _ _ => by simp
  | done | got key tag result => cases hs

/-- A tagged `Get` has returned what was put under its tag. -/
def GotInTag (s : ObjRace) : Prop :=
  ∀ key tag b, .got key tag (some b) ∈ s.calls → tag ≠ "" → (s.metas[b]?).all (·.versionTag == tag) = true

theorem GotInTag.append {s' : ObjRace} (h : s.GotInTag) (hinv : Inv none s) {ms : List EntryMeta}
    (hmetas : s'.metas = s.metas ++ ms)
    (hcalls : ∀ key tag b, .got key tag (some b) ∈ s'.calls → tag ≠ "" → .got key tag (some b) ∈ s.calls ∨
      ∃ o, s.storage.objCache.lookup o = some b ∧ s.mayFetch tag o = true) : s'.GotInTag := by
  intro key tag b hmem htag
  rw [hmetas]
  rcases hcalls key tag b hmem htag with hold | ⟨o, hb, hmay⟩
  · obtain ⟨m, hm, rfl⟩ := hinv.calls _ hold b rfl
    have htags := h key tag m.blockId hold htag
    rw [List.getElem?_append_left (List.getElem?_eq_some_iff.mp hm.1).1]
    exact htags
  · obtain ⟨k, m, _, hm, rfl, _⟩ := hinv.cached o b hb
    rw [List.getElem?_append_left (List.getElem?_eq_some_iff.mp hm.1).1]
    rw [ObjRace.mayFetch, hb, Option.all_some, Bool.or_eq_true, beq_iff_eq] at hmay
    exact hmay.resolve_left htag

theorem GotInTag.step {s' : ObjRace} {a : ObjAct} (h : s.GotInTag) (hinv : Inv none s)
    (hfetch : s.fetchesInTag a = true) (hs : s.step a = some s') : s'.GotInTag := by
  have hsame : s.metas = s.metas ++ [] := (List.append_nil _).symm
  have hstart : ∀ c : ObjCall, (∀ key tag b, c ≠ .got key tag (some b)) →
      ({ s with calls := s.calls ++ [c] } : ObjRace).GotInTag := by
    intro c hne
    refine h.append hinv hsame fun key tag b hmem _ => .inl ?_
    rcases List.mem_append.mp hmem with hmem | hmem
    · exact hmem
    · exact absurd (List.mem_singleton.mp hmem).symm (hne key tag b)
  cases a with
  | startPut key chunk tag | startGet key tag | startDelete key | startClear range =>
    cases hs
    exact hstart _ fun _ _ _ => by simp
  | step i now =>
    obtain ⟨c, hi, hc⟩ := Option.bind_eq_some_iff.mp hs
    obtain ⟨⟨ms, hmetas⟩, hgot⟩ := callStep_got hc
    refine h.append hinv hmetas fun key tag b hmem _ => (hgot key tag b hmem).imp_right ?_
    rintro ⟨o, rfl, hb⟩
    simp only [ObjRace.fetchesInTag, hi] at hfetch
    exact ⟨o, hb, hfetch⟩
  | evict o =>
    cases hs
    exact h.append hinv (by rw [remove_metas]; exact hsame) fun key tag b hmem _ => .inl (remove_calls s o ▸ hmem)
  | release b =>
    simp only [ObjRace.step] at hs
    split at hs
    · cases hs
      have hmetas : ∀ t : ObjRace, (t.unlink b).metas = t.metas ++ [] := by
        intro t
        unfold ObjRace.unlink
        split <;> simp
      refine h.append hinv (hmetas _) fun key tag b' hmem _ => .inl ?_
      rw [unlink_calls] at hmem
      exact hmem
    · cases hs
  | destroy b =>
    obtain ⟨block, _, hs⟩ := Option.bind_eq_some_iff.mp hs
    split at hs
    · cases hs
      exact h.append hinv hsame fun key tag b hmem _ => .inl hmem
    · cases hs

/-- The map and the object cache agree on a key. -/
def AgreesAt (s : ObjRace) (k : InMemCacheBlock) : Prop :=
  ((s.storage.entries[k]?).isSome ↔ (s.storage.objCache.lookup (makeObjCacheKey k)).isSome) ∧
    ∀ m, s.storage.entries[k]? = some m →
      s.storage.objCache.lookup (makeObjCacheKey k) = some m.blockId ∧ s.metas[m.blockId]? = some m

theorem Inv.agreesAt (h : Inv none s) (hq : s.Quiescent) (k : InMemCacheBlock) : s.AgreesAt k := by
  obtain ⟨hcalls, hpins, hdying⟩ := hq
  have hrec : ∀ m, s.storage.entries[k]? = some m →
      s.storage.objCache.lookup (makeObjCacheKey k) = some m.blockId ∧ s.metas[m.blockId]? = some m := by
    intro m hm
    obtain ⟨hmade, hrec⟩ := h.recorded k m hm
    rw [hpins, hdying] at hrec
    simp only [List.not_mem_nil, reduceCtorEq, or_false] at hrec
    exact ⟨hrec, hmade.1⟩
  refine ⟨⟨fun he => ?_, fun ho => ?_⟩, hrec⟩
  · obtain ⟨m, hm⟩ := Option.isSome_iff_exists.mp he
    rw [(hrec m hm).1]
    rfl
  · obtain ⟨b, hb⟩ := Option.isSome_iff_exists.mp ho
    obtain ⟨k', m, hk, _, _, _, hm⟩ := h.cached _ b hb
    obtain rfl := makeObjCacheKey_injective hk
    rcases hm with hm | hm
    · rw [hm]
      rfl
    · cases hcalls _ hm

theorem step_last (s : ObjRace) (c : ObjCall) (now : Nat) :
    ({ s with calls := s.calls ++ [c] } : ObjRace).step (.step s.calls.length now) =
      ({ s with calls := s.calls ++ [c] } : ObjRace).callStep s.calls.length now c := by
  simp [ObjRace.step]

theorem goto_last (s : ObjRace) (c c' : ObjCall) :
    ({ s with calls := s.calls ++ [c] } : ObjRace).goto s.calls.length c' =
      { s with calls := s.calls ++ [c'] } := by
  simp [ObjRace.goto]

/-- A `Get` that nobody gets in the way of returns what was put under its tag. -/
theorem Inv.getAlone (h : Inv none s) (hq : s.Quiescent) {key : InMemCacheBlock} {tag : String}
    {now now' : Nat} {s' : ObjRace}
    (hs : exec ObjRace.step s [.startGet key tag, .step s.calls.length now, .step s.calls.length now'] = some s')
    (hgot : s'.calls[s.calls.length]? = some (.got key tag (some b))) (htag : tag ≠ "") :
    ∃ m, s'.metas[b]? = some m ∧ m.versionTag = tag := by
  obtain ⟨s₁, h₁, hs⟩ := exec_cons.mp hs
  obtain ⟨s₂, h₂, hs⟩ := exec_cons.mp hs
  obtain ⟨s₃, h₃, hs⟩ := exec_cons.mp hs
  cases hs
  cases h₁
  rw [step_last, ObjRace.callStep] at h₂
  simp only [goto_last] at h₂
  split at h₂
  · cases h₂
    rw [step_last] at h₃
    cases h₃
  next m hm =>
    have hm : s.storage.entries[key]? = some m := hm
    split at h₂
    · cases h₂
      rw [step_last] at h₃
      cases h₃
      simp [ObjRace.goto, remove_calls] at hgot
    next hfresh =>
      cases h₂
      obtain ⟨hb, hmeta⟩ := (h.agreesAt hq key).2 m hm
      rw [step_last, ObjRace.callStep, (h.recorded key m hm).1.2.1] at h₃
      simp only [hb] at h₃
      cases h₃
      simp [ObjRace.goto] at hgot
      subst hgot
      refine ⟨m, hmeta, ?_⟩
      simp only [ObjectStorage.stale, Bool.or_eq_true, Bool.not_eq_true', not_or, Bool.not_eq_false] at hfresh
      exact (validateVersionTag_iff.mp hfresh.1).resolve_left htag

end ObjRace

open ObjRace in
/-- **Agreement.** In a run where no `Put` records metadata over a newer block's
or for a destroyed block, the map and the object cache agree in every quiet
state, and a `Get` in a quiet state returns what was put under its tag. So
does every other tagged `Get` where no `Put` under another tag comes before
its second section. -/
theorem objectCache_agrees (timeoutMillisec : Nat) (acts : List ObjAct) (s : ObjRace)
    (hord : Guarded ObjRace.step (fun s a => s.inOrder a = true) { storage := { timeoutMillisec } } acts)
    (hrun : exec ObjRace.step { storage := { timeoutMillisec } } acts = some s) :
    (s.Quiescent → ∀ k, s.AgreesAt k) ∧
      (s.Quiescent → ∀ key tag now now' s' b,
        exec ObjRace.step s [.startGet key tag, .step s.calls.length now, .step s.calls.length now'] = some s' →
        s'.calls[s.calls.length]? = some (.got key tag (some b)) → tag ≠ "" →
        ∃ m, s'.metas[b]? = some m ∧ m.versionTag = tag) ∧
      (Guarded ObjRace.step (fun s a => s.fetchesInTag a = true) { storage := { timeoutMillisec } } acts →
        ∀ key tag b, .got key tag (some b) ∈ s.calls → tag ≠ "" →
        ∃ m d, s.metas[b]? = some m ∧ s.storage.blocks[b]? = some ⟨key, d⟩ ∧ m.versionTag = tag) := by
  have h : Inv none s :=
    exec_guarded_invariant (fun _ _ _ hi ho hs => hi.step ho hs) hord hrun (Inv.init timeoutMillisec)
  refine ⟨h.agreesAt, fun hq key tag now now' s' b hs hgot ht => h.getAlone hq hs hgot ht,
    fun hfetch key tag b hc ht => ?_⟩
  have htags : Inv none s ∧ s.GotInTag := by
    refine exec_guarded_invariant (I := fun s => Inv none s ∧ s.GotInTag) (G := fun s a => s.inOrder a = true ∧
      s.fetchesInTag a = true) (fun _ _ _ hi hg hs => ⟨hi.1.step hg.1 hs, hi.2.step hi.1 hg.2 hs⟩)
        (hord.and hfetch) hrun
      ⟨Inv.init timeoutMillisec, fun _ _ _ hmem => by cases hmem⟩
  obtain ⟨m, ⟨hm, _, d, hd⟩, rfl⟩ := h.calls _ hc b rfl
  have htag := htags.2 key tag m.blockId hc ht
  rw [hm, Option.all_some, beq_iff_eq] at htag
  exact ⟨m, d, hm, hd, htag⟩

/-- A `Put` whose block is found and released, a second one that replaces it,
and the first block's destructor. -/
def replacingPuts : List ObjAct :=
  [.startPut ⟨"f", 0, 2⟩ ⟨some [1, 2], 2, 4⟩ "v1", .step 0 0, .step 0 0, .step 0 0, .startGet ⟨"f", 0, 2⟩ "v1", .step 1 0,
    .step 1 0, .startPut ⟨"f", 0, 2⟩ ⟨some [3, 4], 2, 4⟩ "v2", .step 2 0, .step 2 0, .release 0, .destroy 0, .step 2 0]

theorem objectCache_agrees_replacing :
    ∃ s, exec ObjRace.step { storage := { timeoutMillisec := 0 } } replacingPuts = some s ∧ s.Quiescent ∧
      (s.storage.entries[(⟨"f", 0, 2⟩ : InMemCacheBlock)]?).map (·.blockId) = some 1 ∧ (∀ k, s.AgreesAt k) ∧
      ∀ key tag b, .got key tag (some b) ∈ s.calls → tag ≠ "" →
        ∃ m d, s.metas[b]? = some m ∧ s.storage.blocks[b]? = some ⟨key, d⟩ ∧ m.versionTag = tag := by
  have hrun : (exec ObjRace.step { storage := { timeoutMillisec := 0 } } replacingPuts).map (fun s =>
      (decide s.Quiescent, (s.storage.entries[(⟨"f", 0, 2⟩ : InMemCacheBlock)]?).map (·.blockId))) =
        some (true, some 1) := by
    decide +kernel
  obtain ⟨s, hs, hfinal⟩ := Option.map_eq_some_iff.mp hrun
  simp only [Prod.mk.injEq, decide_eq_true_eq] at hfinal
  obtain ⟨hquiet, hentry⟩ := hfinal
  obtain ⟨hagrees, -, htags⟩ := objectCache_agrees 0 replacingPuts s (by decide +kernel) hs
  exact ⟨s, hs, hquiet, hentry, hagrees hquiet, htags (by decide +kernel)⟩

/-- Two overlapping `Put`s of a key: the object cache keeps the second block,
and the first call records its metadata last. -/
def overlappingPuts : List ObjAct :=
  [.startPut ⟨"f", 0, 2⟩ ⟨some [1, 2], 2, 4⟩ "v1", .startPut ⟨"f", 0, 2⟩ ⟨some [3, 4], 2, 4⟩ "v2", .step 0 0, .step 0 0,
    .step 1 0, .step 1 0, .destroy 0, .step 1 0, .step 0 0]

/-- A `Get` has returned a block of another tag than it asked for. -/
def ObjRace.mixedUp (s : ObjRace) : Bool :=
  s.calls.any fun
    | .got _ tag (some b) => tag != "" && (s.metas[b]?).any (·.versionTag != tag)
    | _ => false

/-- All is quiet, and the metadata is not that of the block there is; a `Get`
of the first tag then returns what was put under the second. -/
theorem overlapping_puts_disagree :
    ∃ s s', exec ObjRace.step { storage := { timeoutMillisec := 0 } } overlappingPuts = some s ∧ s.Quiescent ∧
      ¬ s.AgreesAt ⟨"f", 0, 2⟩ ∧
      exec ObjRace.step s [.startGet ⟨"f", 0, 2⟩ "v1", .step 2 0, .step 2 0] = some s' ∧ s'.mixedUp = true := by
  have hrun : (exec ObjRace.step { storage := { timeoutMillisec := 0 } } overlappingPuts).map (fun s =>
      (decide s.Quiescent, (s.storage.entries[(⟨"f", 0, 2⟩ : InMemCacheBlock)]?).map (·.blockId),
        decide (s.storage.objCache.lookup (makeObjCacheKey ⟨"f", 0, 2⟩) = some (1 : Nat)),
        (exec ObjRace.step s [.startGet ⟨"f", 0, 2⟩ "v1", .step 2 0, .step 2 0]).map (·.mixedUp))) =
          some (true, some 0, true, some true) := by
    decide +kernel
  obtain ⟨s, hs, hfinal⟩ := Option.map_eq_some_iff.mp hrun
  simp only [Prod.mk.injEq, decide_eq_true_eq] at hfinal
  obtain ⟨hquiet, hentry, hblock, hget⟩ := hfinal
  obtain ⟨s', hs', hmixed⟩ := Option.map_eq_some_iff.mp hget
  refine ⟨s, s', hs, hquiet, fun hagrees => ?_, hs', hmixed⟩
  obtain ⟨m, hm, hid⟩ := Option.map_eq_some_iff.mp hentry
  have := (hagrees.2 m hm).1
  rw [hblock, hid] at this
  cases this

end ReadCacheFs
