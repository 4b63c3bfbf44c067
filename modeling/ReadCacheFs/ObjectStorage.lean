/-
`ObjectCacheStorage`: blocks kept in DuckDB's `ObjectCache`, with a metadata
map beside it.

The object cache is a map that may drop any entry at any time. A block is
named by its `block_id`, the number of blocks made before it; it lives as
long as the object cache or a pin refers to it, and its destructor takes
its metadata out of the map unless a newer block has replaced it.
-/
import Mathlib.Data.List.AList
import Std.Data.TreeMap
import ReadCacheFs.CachePaths
import ReadCacheFs.SharedValueLru

namespace ReadCacheFs

open Lib

structure EntryMeta where
  objCacheKey : String
  length : Nat
  versionTag : String
  insertionTimeMs : Nat
  blockId : Nat
  deriving DecidableEq, Repr

structure CacheHttpfsDataBlock where
  key : InMemCacheBlock
  data : PageAlignedDataChunk
  deriving DecidableEq, Repr

structure ObjectStorage where
  timeoutMillisec : Nat
  /-- Every block made; `next_block_id` is their number. -/
  blocks : List CacheHttpfsDataBlock := []
  /-- The object cache, by block id. -/
  objCache : AList fun _ : String => Nat := ∅
  entries : Std.TreeMap InMemCacheBlock EntryMeta := ∅
  /-- The blocks pins refer to, one for each pin. -/
  pins : List Nat := []

namespace ObjectStorage

/-- The object cache or a pin refers to the block. -/
def referenced (s : ObjectStorage) (b : Nat) : Bool := s.objCache.entries.any (·.2 == b) || s.pins.contains b

def onEntryDestroyed (s : ObjectStorage) (key : InMemCacheBlock) (blockId : Nat) : ObjectStorage :=
  match s.entries[key]? with
  | none => s
  | some m => if m.blockId ≠ blockId then s else { s with entries := s.entries.erase key }

/-- A reference to a block has gone: with the last one the destructor runs. -/
def dropReference (s : ObjectStorage) (b : Nat) : ObjectStorage :=
  if s.referenced b then s
  else match s.blocks[b]? with
    | none => s
    | some block => s.onEntryDestroyed block.key b

/-- `ObjectCache::Put`. -/
def objCachePut (s : ObjectStorage) (objCacheKey : String) (b : Nat) : ObjectStorage :=
  let s' := { s with objCache := s.objCache.insert objCacheKey b }
  match s.objCache.lookup objCacheKey with
  | none => s'
  | some old => s'.dropReference old

/-- `ObjectCache::Delete`, and what an eviction does. -/
def objCacheDelete (s : ObjectStorage) (objCacheKey : String) : ObjectStorage :=
  match s.objCache.lookup objCacheKey with
  | none => s
  | some b => ({ s with objCache := s.objCache.erase objCacheKey } : ObjectStorage).dropReference b

def objCacheDeleteAll (s : ObjectStorage) (objCacheKeys : List String) : ObjectStorage :=
  objCacheKeys.foldl objCacheDelete s

/-- `evicted` is what the object cache drops to take the new block in. -/
def put (s : ObjectStorage) (now : Nat) (evicted : List String) (key : InMemCacheBlock)
    (chunk : PageAlignedDataChunk) (versionTag : String) : Except Fault ObjectStorage :=
  if chunk.length = 0 then .error .assertFailed
  else
    let objCacheKey := makeObjCacheKey key
    let blockId := s.blocks.length
    let s : ObjectStorage := { s with blocks := s.blocks ++ [⟨key, chunk⟩] }
    let s := (s.objCachePut objCacheKey blockId).objCacheDeleteAll evicted
    let m : EntryMeta :=
      { objCacheKey, length := chunk.length, versionTag, insertionTimeMs := steadyMillis now, blockId }
    .ok { s with entries := s.entries.insert key m }

def stale (s : ObjectStorage) (now : Nat) (m : EntryMeta) (expectedVersionTag : String) : Bool :=
  !validateVersionTag m.versionTag expectedVersionTag ||
    (decide (0 < s.timeoutMillisec) && decide (s.timeoutMillisec < u64Sub (steadyMillis now) m.insertionTimeMs))

/-- A hit pins the block it returns. -/
def get (s : ObjectStorage) (now : Nat) (key : InMemCacheBlock) (expectedVersionTag : String) :
    Option Nat × ObjectStorage :=
  match s.entries[key]? with
  | none => (none, s)
  | some m =>
    if s.stale now m expectedVersionTag then (none, s.objCacheDelete m.objCacheKey)
    else match s.objCache.lookup m.objCacheKey with
      | none => (none, s)
      | some b => (some b, { s with pins := b :: s.pins })

/-- A pin of the block is released. -/
def release (s : ObjectStorage) (b : Nat) : ObjectStorage :=
  ({ s with pins := s.pins.erase b } : ObjectStorage).dropReference b

def delete (s : ObjectStorage) (key : InMemCacheBlock) : Bool × ObjectStorage :=
  match s.entries[key]? with
  | none => (false, s)
  | some m => (true, s.objCacheDelete m.objCacheKey)

/-- `Clear()`. -/
def clear (s : ObjectStorage) : ObjectStorage := s.objCacheDeleteAll (s.entries.toList.map (·.2.objCacheKey))

/-- `Clear(start_key, filter)`. -/
def clearFrom (s : ObjectStorage) (startKey : InMemCacheBlock) (filter : InMemCacheBlock → Bool) :
    ObjectStorage :=
  s.objCacheDeleteAll ((keysInRange s.entries.keys startKey filter).filterMap
    fun k => (s.entries[k]?).map (·.objCacheKey))

def keys (s : ObjectStorage) : List InMemCacheBlock := s.entries.keys

/-- `std::move(block->data)`. -/
def moveOut (s : ObjectStorage) (b : Nat) : ObjectStorage :=
  { s with blocks := s.blocks.modify b fun block => { block with data := block.data.moved } }

/-- The loop of `Take` over its snapshot. -/
def takeLoop : List (InMemCacheBlock × EntryMeta) → ObjectStorage →
    List (InMemCacheBlock × InMemCacheDataEntry) × ObjectStorage
  | [], s => ([], s)
  | (key, m) :: rest, s =>
    match (s.objCache.lookup m.objCacheKey).bind fun b => (s.blocks[b]?).map (b, ·) with
    | none => takeLoop rest s
    | some (b, block) =>
      let (result, s') := takeLoop rest ((s.moveOut b).objCacheDelete m.objCacheKey)
      ((key, { data := block.data, versionTag := m.versionTag }) :: result, s')

def take (s : ObjectStorage) : List (InMemCacheBlock × InMemCacheDataEntry) × ObjectStorage :=
  takeLoop s.entries.toList s

/-! ## The object cache and the metadata -/

/-- A block of the object cache has its metadata under its key. -/
structure OK (s : ObjectStorage) : Prop where
  held : ∀ objCacheKey b, s.objCache.lookup objCacheKey = some b → ∃ k m d, objCacheKey = makeObjCacheKey k ∧
    s.entries[k]? = some m ∧ m.blockId = b ∧ s.blocks[b]? = some ⟨k, d⟩
  named : ∀ (k : InMemCacheBlock) m, s.entries[k]? = some m → m.objCacheKey = makeObjCacheKey k

/-- The block held under a key. -/
def resident (s : ObjectStorage) (k : InMemCacheBlock) : Option HeldBlock :=
  (s.objCache.lookup (makeObjCacheKey k)).bind fun b => (s.entries[k]?).bind fun m => (s.blocks[b]?).map fun block =>
    ⟨block.data, m.versionTag, m.insertionTimeMs⟩

variable {s s' : ObjectStorage} {k key : InMemCacheBlock} {h : HeldBlock} {b : Nat}

theorem resident_iff : s.resident k = some h ↔ ∃ b m block, s.objCache.lookup (makeObjCacheKey k) = some b ∧
    s.entries[k]? = some m ∧ s.blocks[b]? = some block ∧ h = ⟨block.data, m.versionTag, m.insertionTimeMs⟩ := by
  simp only [resident, Option.bind_eq_some_iff, Option.map_eq_some_iff]
  exact ⟨fun ⟨b, hb, m, hm, d, hd, he⟩ => ⟨b, m, d, hb, hm, hd, he.symm⟩,
    fun ⟨b, m, d, hb, hm, hd, he⟩ => ⟨b, hb, m, hm, d, hd, he.symm⟩⟩

theorem resident_none (hn : s.objCache.lookup (makeObjCacheKey k) = none) : s.resident k = none := by
  rw [resident, hn]
  rfl

/-- The block under a key, when the object cache has one. -/
theorem OK.at (hs : s.OK) (hb : s.objCache.lookup (makeObjCacheKey k) = some b) :
    ∃ m d, s.entries[k]? = some m ∧ m.blockId = b ∧ s.blocks[b]? = some ⟨k, d⟩ := by
  obtain ⟨k', m, d, hk, hm, hid, hd⟩ := hs.held _ b hb
  obtain rfl := makeObjCacheKey_injective hk
  exact ⟨m, d, hm, hid, hd⟩

theorem lookup_of_referenced (hr : s.referenced b = false) (objCacheKey : String) :
    s.objCache.lookup objCacheKey ≠ some b := by
  intro hl
  simp only [referenced, Bool.or_eq_false_iff, List.any_eq_false, beq_iff_eq] at hr
  exact hr.1 _ (AList.mem_lookup_iff.mp hl) rfl

/-- Things go: from the object cache at will, from the metadata only where
the object cache no longer has the block. The blocks it still has stay as
they are. -/
structure Sheds (s s' : ObjectStorage) : Prop where
  objCache : ∀ objCacheKey b, s'.objCache.lookup objCacheKey = some b → s.objCache.lookup objCacheKey = some b
  entries : ∀ (k : InMemCacheBlock) m, s'.entries[k]? = some m → s.entries[k]? = some m
  kept : ∀ objCacheKey (k : InMemCacheBlock) m, s'.objCache.lookup objCacheKey = some m.blockId → s.entries[k]? = some m →
    s'.entries[k]? = some m
  blocks : ∀ objCacheKey b, s'.objCache.lookup objCacheKey = some b → s'.blocks[b]? = s.blocks[b]?
  timeoutMillisec : s'.timeoutMillisec = s.timeoutMillisec

theorem Sheds.refl (s : ObjectStorage) : Sheds s s :=
  ⟨fun _ _ h => h, fun _ _ h => h, fun _ _ _ _ h => h, fun _ _ _ => rfl, rfl⟩

theorem Sheds.trans {s'' : ObjectStorage} (h₁ : Sheds s s') (h₂ : Sheds s' s'') : Sheds s s'' where
  objCache o b ho := h₁.objCache o b (h₂.objCache o b ho)
  entries k m hm := h₁.entries k m (h₂.entries k m hm)
  kept o k m ho hm := h₂.kept o k m ho (h₁.kept o k m (h₂.objCache o _ ho) hm)
  blocks o b ho := (h₂.blocks o b ho).trans (h₁.blocks o b (h₂.objCache o b ho))
  timeoutMillisec := h₂.timeoutMillisec.trans h₁.timeoutMillisec

theorem Sheds.ok (h : Sheds s s') (hs : s.OK) : s'.OK := by
  refine ⟨fun o b ho => ?_, fun k m hm => hs.named k m (h.entries k m hm)⟩
  obtain ⟨k, m, d, hk, hm, hid, hd⟩ := hs.held o b (h.objCache o b ho)
  exact ⟨k, m, d, hk, h.kept o k m (by rw [hid]; exact ho) hm, hid, (h.blocks o b ho).trans hd⟩

theorem Sheds.resident {x : HeldBlock} (h : Sheds s s') (hr : s'.resident k = some x) :
    s.resident k = some x := by
  obtain ⟨b, m, block, ho, hm, hd, hx⟩ := resident_iff.mp hr
  exact resident_iff.mpr ⟨b, m, block, h.objCache _ b ho, h.entries k m hm, (h.blocks _ b ho) ▸ hd, hx⟩

theorem dropReference_eq (s : ObjectStorage) (b : Nat) :
    s.dropReference b = { s with entries := (s.dropReference b).entries } := by
  unfold dropReference
  split
  · rfl
  split
  · rfl
  · unfold onEntryDestroyed
    split
    · rfl
    split <;> rfl

theorem dropReference_sheds (s : ObjectStorage) (b : Nat) : Sheds s (s.dropReference b) := by
  have hkeep : ∀ (k : InMemCacheBlock) (m : EntryMeta), s.entries[k]? = some m → m.blockId ≠ b ∨
    s.referenced b = true →
      (s.dropReference b).entries[k]? = some m := by
    intro k m hm hb
    unfold dropReference
    split
    · exact hm
    next hr =>
      split
      · exact hm
      next block hblock =>
        unfold onEntryDestroyed
        split
        · exact hm
        next m' hm' =>
          split
          · exact hm
          next hid =>
            by_cases hk : k = block.key
            · rw [hk, hm'] at hm
              cases hm
              exact absurd (hb.resolve_right hr) hid
            · exact (SharedValueLruCache.getElem?_erase_ne hk).trans hm
  have hsub : ∀ (k : InMemCacheBlock) (m : EntryMeta), (s.dropReference b).entries[k]? = some m →
      s.entries[k]? = some m := by
    intro k m hm
    unfold dropReference onEntryDestroyed at hm
    split at hm
    · exact hm
    split at hm
    · exact hm
    next block _ =>
      split at hm
      · exact hm
      split at hm
      · exact hm
      · by_cases hk : k = block.key
        · subst hk
          rw [Std.TreeMap.getElem?_erase_self] at hm
          cases hm
        · exact (SharedValueLruCache.getElem?_erase_ne hk).symm.trans hm
  refine ⟨fun o c ho => ?_, hsub, fun o k m ho hm => ?_, fun o c ho => ?_, by rw [dropReference_eq]⟩
  · rw [dropReference_eq] at ho
    exact ho
  · refine hkeep k m hm ?_
    rw [dropReference_eq] at ho
    by_cases hb : m.blockId = b
    · by_contra hn
      simp only [not_or, Bool.not_eq_true] at hn
      exact lookup_of_referenced hn.2 o (hb ▸ ho)
    · exact .inl hb
  · rw [dropReference_eq]

theorem lookup_erase_objCache {m : AList fun _ : String => Nat} {o o' : String}
    (h : (m.erase o).lookup o' = some b) : o' ≠ o ∧ m.lookup o' = some b := by
  by_cases ho : o' = o
  · subst ho
    rw [AList.lookup_erase] at h
    cases h
  · rw [AList.lookup_erase_ne ho] at h
    exact ⟨ho, h⟩

theorem erase_sheds (s : ObjectStorage) (o : String) : Sheds s { s with objCache := s.objCache.erase o } :=
  ⟨fun _ _ h => (lookup_erase_objCache h).2, fun _ _ h => h, fun _ _ _ _ h => h, fun _ _ _ => rfl, rfl⟩

theorem objCacheDelete_sheds (s : ObjectStorage) (o : String) : Sheds s (s.objCacheDelete o) := by
  unfold objCacheDelete
  split
  · exact .refl s
  · exact (erase_sheds s o).trans (dropReference_sheds _ _)

theorem objCacheDelete_lookup (s : ObjectStorage) (o : String) :
    (s.objCacheDelete o).objCache.lookup o = none := by
  unfold objCacheDelete
  split
  next hn => exact hn
  next =>
    rw [dropReference_eq]
    exact AList.lookup_erase _ _

theorem objCacheDelete_blocks (s : ObjectStorage) (o : String) : (s.objCacheDelete o).blocks = s.blocks := by
  unfold objCacheDelete
  split
  · rfl
  · rw [dropReference_eq]

theorem objCacheDeleteAll_sheds (os : List String) (s : ObjectStorage) : Sheds s (s.objCacheDeleteAll os) := by
  induction os generalizing s with
  | nil => exact .refl s
  | cons o os ih => exact (objCacheDelete_sheds s o).trans (ih _)

theorem objCacheDeleteAll_lookup (os : List String) (s : ObjectStorage) {o : String} (ho : o ∈ os) :
    (s.objCacheDeleteAll os).objCache.lookup o = none := by
  induction os generalizing s with
  | nil => simp at ho
  | cons o' os ih =>
    by_cases hm : o ∈ os
    · exact ih _ hm
    · obtain rfl : o = o' := by simpa [hm] using ho
      refine Option.eq_none_iff_forall_ne_some.mpr fun b hb => ?_
      have := (objCacheDeleteAll_sheds os _).objCache o b hb
      rw [objCacheDelete_lookup] at this
      cases this

theorem objCacheDeleteAll_blocks (os : List String) (s : ObjectStorage) :
    (s.objCacheDeleteAll os).blocks = s.blocks := by
  induction os generalizing s with
  | nil => rfl
  | cons o os ih => exact (ih _).trans (objCacheDelete_blocks s o)

theorem objCacheDelete_lookup_ne (s : ObjectStorage) {o o' : String} (h : o' ≠ o) :
    (s.objCacheDelete o).objCache.lookup o' = s.objCache.lookup o' := by
  unfold objCacheDelete
  split
  · rfl
  · rw [dropReference_eq]
    exact AList.lookup_erase_ne h

theorem objCacheDeleteAll_lookup_notMem (os : List String) (s : ObjectStorage) {o : String} (ho : o ∉ os) :
    (s.objCacheDeleteAll os).objCache.lookup o = s.objCache.lookup o := by
  induction os generalizing s with
  | nil => rfl
  | cons o' os ih =>
    rw [List.mem_cons, not_or] at ho
    exact (ih _ ho.2).trans (objCacheDelete_lookup_ne s ho.1)

theorem release_sheds (s : ObjectStorage) (b : Nat) : Sheds s (s.release b) := by
  have h : Sheds s { s with pins := s.pins.erase b } :=
    ⟨fun _ _ h => h, fun _ _ h => h, fun _ _ _ _ h => h, fun _ _ _ => rfl, rfl⟩
  exact h.trans (dropReference_sheds _ b)

/-! ## The operations -/

theorem put_spec (hs : s.OK) {now : Nat} {evicted : List String} {chunk : PageAlignedDataChunk}
    {versionTag : String} (hp : s.put now evicted key chunk versionTag = .ok s') :
    s'.OK ∧ (∀ k x, s'.resident k = some x →
        (k = key ∧ x = ⟨chunk, versionTag, steadyMillis now⟩) ∨ (k ≠ key ∧ s.resident k = some x)) ∧
      s'.blocks = s.blocks ++ [⟨key, chunk⟩] ∧ s'.timeoutMillisec = s.timeoutMillisec := by
  unfold put at hp
  split at hp
  · cases hp
  -- The state between the two sections: the object cache has the block, the map not yet.
  let s₁ : ObjectStorage := { s with blocks := s.blocks ++ [⟨key, chunk⟩]
                                     objCache := s.objCache.insert (makeObjCacheKey key) s.blocks.length }
  obtain ⟨t, ht, hshed, hblocks⟩ : ∃ t, t = (objCachePut { s with blocks := s.blocks ++ [⟨key, chunk⟩] }
      (makeObjCacheKey key) s.blocks.length).objCacheDeleteAll evicted ∧ Sheds s₁ t ∧ t.blocks = s₁.blocks := by
    refine ⟨_, rfl, ?_, ?_⟩
    · refine Sheds.trans ?_ (objCacheDeleteAll_sheds evicted _)
      unfold objCachePut
      dsimp only
      split
      · exact .refl s₁
      · exact dropReference_sheds s₁ _
    · rw [objCacheDeleteAll_blocks]
      unfold objCachePut
      dsimp only
      split
      · rfl
      · rw [dropReference_eq]
  dsimp only at hp
  rw [← ht] at hp
  cases hp
  have hnew : ∀ b, s₁.objCache.lookup (makeObjCacheKey key) = some b → b = s.blocks.length := by
    intro b hb
    rw [AList.lookup_insert] at hb
    exact (Option.some.inj hb).symm
  have hold : ∀ o b, o ≠ makeObjCacheKey key → t.objCache.lookup o = some b → s.objCache.lookup o = some b := by
    intro o b ho hb
    have := hshed.objCache o b hb
    rwa [AList.lookup_insert_ne ho] at this
  have hblk : ∀ (b : Nat) block, s.blocks[b]? = some block → t.blocks[b]? = some block := by
    intro b block hb
    rw [hblocks]
    exact (List.getElem?_append_left (List.getElem?_eq_some_iff.mp hb).1).trans hb
  refine ⟨⟨fun o b ho => ?_, fun k m hm => ?_⟩, fun k x hx => ?_, hblocks, hshed.timeoutMillisec⟩
  · by_cases hk : o = makeObjCacheKey key
    · subst hk
      obtain rfl := hnew b (hshed.objCache _ b ho)
      refine ⟨key, _, chunk, rfl, Std.TreeMap.getElem?_insert_self, rfl, ?_⟩
      change t.blocks[_]? = _
      rw [hblocks]
      exact List.getElem?_concat_length
    · obtain ⟨k, m, d, rfl, hm, hid, hd⟩ := hs.held o b (hold o b hk ho)
      refine ⟨k, m, d, rfl, ?_, hid, hblk b _ hd⟩
      have hne : k ≠ key := fun he => hk (by rw [he])
      exact (SharedValueLruCache.getElem?_insert_ne hne).trans (hshed.kept _ k m (by rw [hid]; exact ho) hm)
  · by_cases hk : k = key
    · subst hk
      rw [Std.TreeMap.getElem?_insert_self] at hm
      cases hm
      rfl
    · rw [SharedValueLruCache.getElem?_insert_ne hk] at hm
      exact hs.named k m (hshed.entries k m hm)
  · obtain ⟨b, m, block, ho, hm, hd, rfl⟩ := resident_iff.mp hx
    by_cases hk : k = key
    · subst hk
      obtain rfl := hnew b (hshed.objCache _ b ho)
      change t.blocks[_]? = _ at hd
      rw [hblocks, show s₁.blocks = s.blocks ++ [_] from rfl, List.getElem?_concat_length] at hd
      rw [Std.TreeMap.getElem?_insert_self] at hm
      cases hd
      cases hm
      exact .inl ⟨rfl, rfl⟩
    · have hb := hold _ b (fun he => hk (makeObjCacheKey_injective he)) ho
      obtain ⟨_, d, _, _, hd'⟩ := hs.at hb
      rw [SharedValueLruCache.getElem?_insert_ne hk] at hm
      rw [show t.blocks[b]? = _ from hblk b _ hd'] at hd
      cases hd
      exact .inr ⟨hk, resident_iff.mpr ⟨b, m, _, hb, hshed.entries k m hm, hd', rfl⟩⟩

/-- A hit returns the block held, which serves the lookup; after a miss
nothing is held. -/
theorem get_spec (hs : s.OK) (now : Nat) (key : InMemCacheBlock) (tag : String) :
    Sheds s (s.get now key tag).2 ∧ (s.get now key tag).2.blocks = s.blocks ∧
      match (s.get now key tag).1 with
      | some b => ∃ x, s.resident key = some x ∧ (s.blocks[b]?).map (·.data) = some x.data ∧
          (now < clockLimit → x.putMillis ≤ steadyMillis now → x.Serves s.timeoutMillisec now tag)
      | none => (s.get now key tag).2.resident key = none := by
  unfold get
  cases hm : s.entries[key]? with
  | none =>
    refine ⟨.refl s, rfl, resident_none (Option.eq_none_iff_forall_ne_some.mpr fun b hb => ?_)⟩
    obtain ⟨m, _, hm', _⟩ := hs.at hb
    rw [hm] at hm'
    cases hm'
  | some m =>
    dsimp only
    rw [hs.named key m hm]
    split
    next => exact ⟨objCacheDelete_sheds s _, objCacheDelete_blocks s _, resident_none (objCacheDelete_lookup s _)⟩
    next hst =>
      cases hb : s.objCache.lookup (makeObjCacheKey key) with
      | none => exact ⟨.refl s, rfl, resident_none hb⟩
      | some b =>
        obtain ⟨m', d, hm', _, hd⟩ := hs.at hb
        have hres : s.resident key = some ⟨d, m.versionTag, m.insertionTimeMs⟩ :=
          resident_iff.mpr ⟨b, m, _, hb, hm, hd, rfl⟩
        refine ⟨⟨fun _ _ h => h, fun _ _ h => h, fun _ _ _ _ h => h, fun _ _ _ => rfl, rfl⟩, rfl, _, hres,
          by rw [hd]; rfl, fun hnow hpast => ?_⟩
        simp only [stale, Bool.or_eq_true, Bool.not_eq_true', Bool.and_eq_true, decide_eq_true_eq,
          not_or, not_and,
          Bool.not_eq_false] at hst
        refine ⟨validateVersionTag_iff.mp hst.1, fun ht => ?_⟩
        have hle := hst.2 (Nat.pos_of_ne_zero ht)
        dsimp only at hpast
        have hlt : steadyMillis now < 2 ^ 64 := by
          have : now < 2 ^ 63 := hnow
          unfold steadyMillis
          omega
        rw [u64Sub_eq hpast hlt] at hle
        change _ ≤ m.insertionTimeMs + _
        omega

theorem delete_spec (hs : s.OK) (key : InMemCacheBlock) : Sheds s (s.delete key).2 ∧
    (s.delete key).2.blocks = s.blocks ∧ (s.delete key).2.resident key = none := by
  unfold delete
  cases hm : s.entries[key]? with
  | none =>
    refine ⟨.refl s, rfl, resident_none (Option.eq_none_iff_forall_ne_some.mpr fun b hb => ?_)⟩
    obtain ⟨m, _, hm', _⟩ := hs.at hb
    rw [hm] at hm'
    cases hm'
  | some m =>
    dsimp only
    rw [hs.named key m hm]
    exact ⟨objCacheDelete_sheds s _, objCacheDelete_blocks s _, resident_none (objCacheDelete_lookup s _)⟩

theorem clear_resident (hs : s.OK) (k : InMemCacheBlock) : s.clear.resident k = none := by
  refine resident_none (Option.eq_none_iff_forall_ne_some.mpr fun b hb => ?_)
  obtain ⟨m, _, hm, _⟩ := hs.at ((objCacheDeleteAll_sheds _ s).objCache _ b hb)
  have hmem : makeObjCacheKey k ∈ s.entries.toList.map (·.2.objCacheKey) :=
    List.mem_map.mpr ⟨(k, m), Std.TreeMap.mem_toList_iff_getElem?_eq_some.mpr hm, hs.named k m hm⟩
  rw [clear, objCacheDeleteAll_lookup _ s hmem] at hb
  cases hb

/-- A per-file clear leaves nothing of the file. -/
theorem clearFile_spec (hs : s.OK) {f : String} (hk : k.fname = f) :
    (s.clearFrom ⟨f, 0, 0⟩ (·.fname == f)).resident k = none := by
  refine resident_none (Option.eq_none_iff_forall_ne_some.mpr fun b hb => ?_)
  obtain ⟨m, _, hm, _⟩ := hs.at ((objCacheDeleteAll_sheds _ s).objCache _ b hb)
  have hkey : k ∈ s.entries.keys := by
    rw [Std.TreeMap.mem_keys, ← Std.TreeMap.isSome_getElem?_iff_mem, hm]
    rfl
  have hmem : makeObjCacheKey k ∈ (keysInRange s.entries.keys ⟨f, 0, 0⟩ (·.fname == f)).filterMap
      fun k => (s.entries[k]?).map (·.objCacheKey) :=
    List.mem_filterMap.mpr ⟨k, (mem_keysInRange_file Std.TreeMap.ordered_keys).mpr ⟨hkey, hk⟩,
      by rw [hm, Option.map_some, hs.named k m hm]⟩
  rw [clearFrom, objCacheDeleteAll_lookup _ s hmem] at hb
  cases hb

/-- A clear leaves alone what its filter does not match. -/
theorem clearFrom_keeps (hs : s.OK) (startKey : InMemCacheBlock) {filter : InMemCacheBlock → Bool}
    (hk : filter k = false) : (s.clearFrom startKey filter).resident k = s.resident k := by
  have hshed : Sheds s (s.clearFrom startKey filter) := objCacheDeleteAll_sheds _ s
  refine Option.ext fun x => ⟨hshed.resident, fun hx => ?_⟩
  obtain ⟨b, m, block, hb, hm, hd, rfl⟩ := resident_iff.mp hx
  have hkeep : (s.clearFrom startKey filter).objCache.lookup (makeObjCacheKey k) = some b := by
    rw [clearFrom, objCacheDeleteAll_lookup_notMem]
    · exact hb
    · intro hmem
      obtain ⟨k', hk', he⟩ := List.mem_filterMap.mp hmem
      obtain ⟨m', hm', hn⟩ := Option.map_eq_some_iff.mp he
      rw [hs.named k' m' hm'] at hn
      obtain rfl := makeObjCacheKey_injective hn
      rw [filter_of_mem_keysInRange hk'] at hk
      cases hk
  obtain ⟨m', _, hm', hid, _⟩ := hs.at hb
  obtain rfl : m = m' := Option.some.inj (hm.symm.trans hm')
  exact resident_iff.mpr ⟨b, m, block, hkeep, hshed.kept _ k m (by rw [hid]; exact hkeep) hm,
    (hshed.blocks _ b hkeep).trans hd, rfl⟩

/-- Draining a block of the object cache leaves the others alone. -/
theorem drain_sheds (hs : s.OK) {o : String} (hb : s.objCache.lookup o = some b) :
    Sheds s ((s.moveOut b).objCacheDelete o) := by
  have hshed := objCacheDelete_sheds (s.moveOut b) o
  refine ⟨hshed.objCache, hshed.entries, hshed.kept, fun o' b' ho' => ?_, hshed.timeoutMillisec⟩
  have hold : s.objCache.lookup o' = some b' := hshed.objCache o' b' ho'
  have hne : o' ≠ o := fun he => by rw [he, objCacheDelete_lookup] at ho'; cases ho'
  have hbne : b ≠ b' := by
    intro he
    subst he
    obtain ⟨k, _, d, rfl, _, _, hd⟩ := hs.held o b hb
    obtain ⟨k', _, d', rfl, _, _, hd'⟩ := hs.held o' b hold
    rw [hd] at hd'
    cases hd'
    exact hne rfl
  rw [objCacheDelete_blocks, moveOut, List.getElem?_modify_ne _ _ hbne]

theorem takeLoop_spec : ∀ (l : List (InMemCacheBlock × EntryMeta)) {s : ObjectStorage}, s.OK →
    (∀ k m, (k, m) ∈ l → m.objCacheKey = makeObjCacheKey k ∧ ∀ m', s.entries[k]? = some m' → m' = m) →
    Sheds s (takeLoop l s).2 ∧ (∀ k m, (k, m) ∈ l → (takeLoop l s).2.objCache.lookup (makeObjCacheKey k) = none) ∧
      ∀ k e, (k, e) ∈ (takeLoop l s).1 → ∃ x, s.resident k = some x ∧ e = ⟨x.data, x.versionTag⟩
  | [], s, _, _ => ⟨.refl s, fun k m h => by simp at h, fun k e h => by simp [takeLoop] at h⟩
  | (key, m) :: rest, s, hs, hl => by
    obtain ⟨hname, hmeta⟩ := hl key m (by simp)
    cases hb : s.objCache.lookup (makeObjCacheKey key) with
    | none =>
      have heq : takeLoop ((key, m) :: rest) s = takeLoop rest s := by
        have hb' : s.objCache.lookup m.objCacheKey = none := by rw [hname]; exact hb
        simp only [takeLoop, hb', Option.bind_none]
      obtain ⟨hshed, hgone, hmem⟩ := takeLoop_spec rest hs fun k m' h => hl k m' (by simp [h])
      rw [heq]
      refine ⟨hshed, fun k m' h => ?_, hmem⟩
      rcases List.mem_cons.mp h with h | h
      · obtain ⟨rfl, rfl⟩ := Prod.mk.inj h
        refine Option.eq_none_iff_forall_ne_some.mpr fun b hb' => ?_
        rw [hshed.objCache _ b hb'] at hb
        cases hb
      · exact hgone k m' h
    | some b =>
      obtain ⟨m', d, hm', _, hd⟩ := hs.at hb
      have hdrain := drain_sheds hs hb
      have heq : takeLoop ((key, m) :: rest) s =
          ((key, { data := d, versionTag := m.versionTag }) ::
            (takeLoop rest ((s.moveOut b).objCacheDelete (makeObjCacheKey key))).1,
            (takeLoop rest ((s.moveOut b).objCacheDelete (makeObjCacheKey key))).2) := by
        have hb' : s.objCache.lookup m.objCacheKey = some b := by rw [hname]; exact hb
        simp only [takeLoop, hb', hd, Option.bind_some, Option.map_some, hname]
      obtain ⟨hshed, hgone, hmem⟩ := takeLoop_spec rest (hdrain.ok hs) fun k m'' h =>
        ⟨(hl k m'' (by simp [h])).1, fun x hx => (hl k m'' (by simp [h])).2 x (hdrain.entries k x hx)⟩
      rw [heq]
      refine ⟨hdrain.trans hshed, fun k m'' h => ?_, fun k e h => ?_⟩
      · rcases List.mem_cons.mp h with h | h
        · obtain ⟨rfl, rfl⟩ := Prod.mk.inj h
          refine Option.eq_none_iff_forall_ne_some.mpr fun c hc => ?_
          have := hshed.objCache _ c hc
          rw [objCacheDelete_lookup] at this
          cases this
        · exact hgone k m'' h
      · rcases List.mem_cons.mp h with h | h
        · obtain ⟨rfl, rfl⟩ := Prod.mk.inj h
          obtain rfl := hmeta m' hm'
          exact ⟨_, resident_iff.mpr ⟨b, m', _, hb, hm', hd, rfl⟩, rfl⟩
        · obtain ⟨x, hx, he⟩ := hmem k e h
          exact ⟨x, hdrain.resident hx, he⟩

/-- `Take` empties the storage and returns only blocks that were held. -/
theorem take_spec (hs : s.OK) : Sheds s s.take.2 ∧ (∀ k, s.take.2.resident k = none) ∧
    ∀ k e, (k, e) ∈ s.take.1 → ∃ x, s.resident k = some x ∧ e = ⟨x.data, x.versionTag⟩ := by
  have hmem : ∀ k m, (k, m) ∈ s.entries.toList ↔ s.entries[k]? = some m := fun k m =>
    Std.TreeMap.mem_toList_iff_getElem?_eq_some
  obtain ⟨hshed, hgone, hres⟩ := takeLoop_spec s.entries.toList hs fun k m h =>
    ⟨hs.named k m ((hmem k m).mp h), fun m' hm' => Option.some.inj (hm'.symm.trans ((hmem k m).mp h))⟩
  refine ⟨hshed, fun k => resident_none (Option.eq_none_iff_forall_ne_some.mpr fun b hb => ?_), hres⟩
  obtain ⟨m, _, hm, _⟩ := hs.at (hshed.objCache _ b hb)
  rw [take, hgone k m ((hmem k m).mpr hm)] at hb
  cases hb

end ObjectStorage

end ReadCacheFs
