/-
`ExtensionBoundedDataCacheStorage` under concurrent `Get` and `Put` calls,
without timeout and without a limit.

`Get` looks its key up, validates the tag of the entry it found and deletes
the key if the tag is not the one expected; the lookup and the deletion are
critical sections of their own, and the deletion is by key. The machine
takes one of these steps at a time, in any order. A stale entry is all a
`Get` removes as long as no `Put` of the key lands between its lookup and
its deletion.
-/
import ReadCacheFs.ExtensionStorage
import ReadCacheFs.SharedValueLruMap

namespace ReadCacheFs

open Lib

/-- A call, before the step it takes next. -/
inductive ExtCall
  | putStart (key : InMemCacheBlock) (chunk : PageAlignedDataChunk) (versionTag : String)
  | getStart (key : InMemCacheBlock) (expectedVersionTag : String)
  /-- The lookup found this entry. -/
  | getFound (key : InMemCacheBlock) (expectedVersionTag : String) (entry : Nat)
  /-- The tag was not the one expected. -/
  | getStale (key : InMemCacheBlock) (expectedVersionTag : String) (entry : Nat)
  | done
  /-- `Get` has returned. -/
  | got (result : Option Nat)

def ExtCall.finished : ExtCall → Bool
  | .done | .got _ => true
  | _ => false

/-- What has happened to the storage. -/
inductive ExtEvent
  | put (key : InMemCacheBlock) (entry : Nat)
  /-- A `Get` has looked the key up. -/
  | lookUp (key : InMemCacheBlock) (expectedVersionTag : String)
  /-- A `Get` has removed the entry. -/
  | drop (entry : Nat) (expectedVersionTag : String)
deriving DecidableEq

structure ExtRace where
  storage : ExtensionStorage := newExtensionStorage 0 0
  calls : List ExtCall := []
  /-- The latest first. -/
  log : List ExtEvent := []

inductive ExtAct
  | startPut (key : InMemCacheBlock) (chunk : PageAlignedDataChunk) (versionTag : String)
  | startGet (key : InMemCacheBlock) (expectedVersionTag : String)
  /-- The next step of a call; `now` is what the clock reads in it. -/
  | step (i now : Nat)

namespace ExtRace

def goto (s : ExtRace) (i : Nat) (c : ExtCall) : ExtRace := { s with calls := s.calls.set i c }

/-- The entry a cache has under a key. -/
def entryOf (c : SharedValueLruCache InMemCacheBlock Nat) (key : InMemCacheBlock) : Option Nat :=
  (c.find? key).map (·.1)

def held (s : ExtRace) (key : InMemCacheBlock) : Option Nat := entryOf s.storage.lruCache key

/-- `lru_cache.Delete(key)` of a `Get`. -/
def deleteStale (s : ExtRace) (key : InMemCacheBlock) (expectedVersionTag : String) : ExtRace :=
  { s with storage := (s.storage.delete key).2
           log := ((s.held key).map fun entry => ExtEvent.drop entry expectedVersionTag).toList ++ s.log }

def callStep (s : ExtRace) (i now : Nat) : ExtCall → Option ExtRace
  | .putStart key chunk versionTag =>
    some (goto { s with storage := s.storage.put now key chunk versionTag
                        log := .put key s.storage.heap.length :: s.log } i .done)
  | .getStart key tag =>
    let (result, lruCache) := s.storage.lruCache.get (steadyMillis now) key
    let s' : ExtRace := { s with storage := { s.storage with lruCache }, log := .lookUp key tag :: s.log }
    match result with
    | none => some (s'.goto i (.got none))
    | some entry => some (s'.goto i (.getFound key tag entry))
  | .getFound key tag entry => (s.storage.heap[entry]?).map fun d =>
    if !validateVersionTag d.versionTag tag then s.goto i (.getStale key tag entry) else s.goto i (.got (some entry))
  | .getStale key tag _ => some ((s.deleteStale key tag).goto i (.got none))
  | .done | .got _ => none

def step (s : ExtRace) : ExtAct → Option ExtRace
  | .startPut key chunk tag => some { s with calls := s.calls ++ [.putStart key chunk tag] }
  | .startGet key tag => some { s with calls := s.calls ++ [.getStart key tag] }
  | .step i now => (s.calls[i]?).bind (s.callStep i now)

/-! ## What is to hold -/

/-- The entry of the last `Put` of a key, and the tags expected by the lookups of the key since. -/
def lastPut (key : InMemCacheBlock) : List ExtEvent → Option (Nat × List String)
  | [] => none
  | .put key' entry :: log => if key' = key then some (entry, []) else lastPut key log
  | .lookUp key' tag :: log =>
    (lastPut key log).map fun (entry, tags) => if key' = key then (entry, tag :: tags) else (entry, tags)
  | .drop .. :: log => lastPut key log

/-- The entry is stale for a `Get` that expects `tag`. -/
def StaleFor (s : ExtRace) (entry : Nat) (tag : String) : Prop :=
  ∃ d, s.storage.heap[entry]? = some d ∧ validateVersionTag d.versionTag tag = false

/-- What a `Get` removes is stale for it, and the entry of the last `Put`
stays unless it was stale for a later lookup. -/
structure RemovesStale (s : ExtRace) : Prop where
  dropped : ∀ entry tag, .drop entry tag ∈ s.log → s.StaleFor entry tag
  held : ∀ key entry tags, lastPut key s.log = some (entry, tags) → s.held key = some entry ∨ ∃ tag ∈ tags, s.StaleFor entry tag

/-- The deletion of a `Get` finds the entry its lookup found, or none. -/
def StillHeld (s : ExtRace) : ExtAct → Prop
  | .step i _ => match s.calls[i]? with
    | some (.getStale key _ entry) => s.held key = some entry ∨ s.held key = none
    | _ => True
  | _ => True

instance (s : ExtRace) : (a : ExtAct) → Decidable (s.StillHeld a)
  | .step i _ =>
    match h : s.calls[i]? with
    | some (.getStale key _ entry) =>
      decidable_of_iff (s.held key = some entry ∨ s.held key = none) (by simp only [StillHeld, h])
    | some (.putStart ..) | some (.getStart ..) | some (.getFound ..) | some .done | some (.got _) | none =>
      .isTrue (by simp only [StillHeld, h])
  | .startPut .. | .startGet .. => .isTrue trivial

/-! ## The cache -/

/-- An LRU cache without timeout and limit. -/
structure Unbounded (c : SharedValueLruCache InMemCacheBlock Nat) : Prop where
  lru : ∃ r, c.Realizes some r
  maxEntries : c.maxEntries = 0
  timeoutMillisec : c.timeoutMillisec = 0

variable {c : SharedValueLruCache InMemCacheBlock Nat} {now : Nat} {key : InMemCacheBlock}

theorem entryOf_eq {r : Recency InMemCacheBlock Nat} (h : c.Realizes some r) (key : InMemCacheBlock) :
    entryOf c key = r.value key := by
  rw [← h.value key, entryOf]
  cases c.find? key <;> rfl

theorem Unbounded.put (h : Unbounded c) (now : Nat) (key : InMemCacheBlock) (entry : Nat) :
    Unbounded (c.put now key entry) ∧ ∀ k,
      entryOf (c.put now key entry) k = if k = key then some entry else entryOf c k := by
  obtain ⟨⟨r, hr⟩, hmax, htime⟩ := h
  have hput : (c.put now key entry).Realizes some (r.put none key entry) := by
    have hlimit : c.maxEntries = (none : Option Nat).getD 0 := hmax
    exact hr.put hlimit nofun now key rfl
  refine ⟨⟨⟨_, hput⟩, (SharedValueLruCache.put_maxEntries ..).trans hmax,
    (SharedValueLruCache.put_timeout ..).trans htime⟩,
    fun k => ?_⟩
  rw [entryOf_eq hput, entryOf_eq hr]
  exact Function.update_apply ..

theorem Unbounded.get (h : Unbounded c) (now : Nat) (key : InMemCacheBlock) :
    (c.get now key).1 = entryOf c key ∧ Unbounded (c.get now key).2 ∧
      ∀ k, entryOf (c.get now key).2 k = entryOf c k := by
  obtain ⟨⟨r, hr⟩, hmax, htime⟩ := h
  obtain ⟨hvalue, -, hget⟩ := hr.get htime now key
  refine ⟨?_, ⟨⟨_, hget⟩, (SharedValueLruCache.get_maxEntries ..).trans hmax,
    (SharedValueLruCache.get_timeout ..).trans htime⟩,
    fun k => ?_⟩
  · rw [entryOf_eq hr, ← hvalue]
    cases (c.get now key).1 <;> rfl
  · rw [entryOf_eq hget, entryOf_eq hr]
    rfl

theorem Unbounded.delete (h : Unbounded c) (key : InMemCacheBlock) :
    Unbounded (c.delete key).2 ∧ ∀ k, entryOf (c.delete key).2 k = if k = key then none else entryOf c k := by
  obtain ⟨⟨r, hr⟩, hmax, htime⟩ := h
  obtain ⟨-, hdelete⟩ := hr.delete key
  refine ⟨⟨⟨_, hdelete⟩, (SharedValueLruCache.delete_maxEntries ..).trans hmax,
    (SharedValueLruCache.delete_timeout ..).trans htime⟩,
    fun k => ?_⟩
  rw [entryOf_eq hdelete, entryOf_eq hr, Recency.remove, Recency.keep_value]
  by_cases hk : k = key <;> simp [hk]

/-! ## The last `Put` -/

variable {log : List ExtEvent} {entry : Nat} {tag : String} {tags : List String}

theorem lastPut_lookUp {k : InMemCacheBlock} (h : lastPut k (.lookUp key tag :: log) = some (entry, tags)) :
    ∃ tags', lastPut k log = some (entry, tags') ∧ tags' ⊆ tags ∧ (key = k → tag ∈ tags) := by
  rw [lastPut] at h
  obtain ⟨⟨entry', tags'⟩, hlast, he⟩ := Option.map_eq_some_iff.mp h
  dsimp only at he
  split at he
  next =>
    cases he
    exact ⟨tags', hlast, List.subset_cons_self _ _, fun _ => List.mem_cons_self⟩
  next hne =>
    cases he
    exact ⟨tags, hlast, fun _ ht => ht, fun he => absurd he hne⟩

theorem lastPut_lookUp_isSome {k : InMemCacheBlock} (h : lastPut k log = some (entry, tags)) :
    ∃ tags', lastPut k (.lookUp key tag :: log) = some (entry, tags') := by
  rw [lastPut, h, Option.map_some]
  dsimp only
  split
  · exact ⟨_, rfl⟩
  · exact ⟨_, rfl⟩

/-! ## The invariant -/

/-- What the lookup of a `Get` has found: if no `Put` of the key came since, its own lookup came after the last. -/
def Looked (s : ExtRace) (key : InMemCacheBlock) (tag : String) (entry : Nat) : Prop :=
  entry < s.storage.heap.length ∧ ∀ tags, lastPut key s.log = some (entry, tags) → tag ∈ tags

def CallOK (s : ExtRace) : ExtCall → Prop
  | .getFound key tag entry => s.Looked key tag entry
  | .getStale key tag entry => s.Looked key tag entry ∧ s.StaleFor entry tag
  | _ => True

structure Inv (s : ExtRace) : Prop where
  cache : Unbounded s.storage.lruCache
  heldLast : ∀ key entry, s.held key = some entry → ∃ tags, lastPut key s.log = some (entry, tags)
  lastLt : ∀ key entry tags, lastPut key s.log = some (entry, tags) → entry < s.storage.heap.length
  removes : s.RemovesStale
  calls : ∀ c ∈ s.calls, s.CallOK c

variable {s s' : ExtRace}

theorem Inv.new : Inv {} := by
  have hempty : ∀ key, entryOf (newExtensionStorage 0 0).lruCache key = none := by
    intro key
    simp [entryOf, SharedValueLruCache.find?, newExtensionStorage]
  have hput : ∀ key entry tags, lastPut key ({} : ExtRace).log ≠ some (entry, tags) := by
    intro key entry tags hlast
    cases hlast
  refine ⟨⟨⟨.empty, SharedValueLruCache.Realizes.clear (c := (newExtensionStorage 0 0).lruCache)⟩, rfl, rfl⟩,
    fun key entry hheld => ?_,
    fun key entry tags hlast => ?_, ⟨fun entry tag hmem => ?_, fun key entry tags hlast => ?_⟩, fun c hc => ?_⟩
  · cases (hempty key).symm.trans hheld
  · cases hput key entry tags hlast
  · cases hmem
  · cases hput key entry tags hlast
  · cases hc

theorem StaleFor.mono (h : s.StaleFor entry tag) (hheap : s.storage.heap <+: s'.storage.heap) :
    s'.StaleFor entry tag := by
  obtain ⟨d, hd, hstale⟩ := h
  obtain ⟨alloc, halloc⟩ := hheap
  refine ⟨d, ?_, hstale⟩
  rw [← halloc, List.getElem?_append_left (List.getElem?_eq_some_iff.mp hd).1]
  exact hd

/-- The calls after a step of the storage, and after the step of the call that takes it. -/
theorem Inv.goto (h : Inv s) {i : Nat} {call : ExtCall} (hcall : s.CallOK call) : Inv (s.goto i call) := by
  refine ⟨h.cache, h.heldLast, h.lastLt, ⟨h.removes.dropped, h.removes.held⟩, fun c hc => ?_⟩
  rcases List.mem_or_eq_of_mem_set hc with hold | rfl
  · exact h.calls c hold
  · exact hcall

theorem Inv.put (h : Inv s) (now : Nat) (key : InMemCacheBlock) (chunk : PageAlignedDataChunk)
    (versionTag : String) :
    Inv { s with storage := s.storage.put now key chunk versionTag, log := .put key s.storage.heap.length :: s.log } := by
  obtain ⟨hcache, hheld⟩ := h.cache.put (steadyMillis now) key s.storage.heap.length
  have hheap : s.storage.heap <+: (s.storage.put now key chunk versionTag).heap := List.prefix_append ..
  have hlast : ∀ k, lastPut k (.put key s.storage.heap.length :: s.log) =
      if key = k then some (s.storage.heap.length, []) else lastPut k s.log := fun k => rfl
  have hlen : (s.storage.put now key chunk versionTag).heap.length = s.storage.heap.length + 1 :=
    List.length_append
  refine ⟨hcache, fun k entry hk => ?_, fun k entry tags hk => ?_,
    ⟨fun entry tag hdrop => ?_, fun k entry tags hk => ?_⟩,
    fun c hc => ?_⟩
  · rw [hlast k]
    have hk := (hheld k).symm.trans hk
    split
    next he =>
      rw [if_pos he.symm] at hk
      cases hk
      exact ⟨[], rfl⟩
    next hne =>
      rw [if_neg fun he => hne he.symm] at hk
      exact h.heldLast k entry hk
  · change entry < (s.storage.put now key chunk versionTag).heap.length
    rw [hlast k] at hk
    rw [hlen]
    split at hk
    next =>
      cases hk
      exact Nat.lt_succ_self _
    next => exact (h.lastLt k entry tags hk).trans (Nat.lt_succ_self _)
  · rcases List.mem_cons.mp hdrop with he | hdrop
    · cases he
    · exact (h.removes.dropped entry tag hdrop).mono hheap
  · rw [hlast k] at hk
    change entryOf (s.storage.lruCache.put (steadyMillis now) key s.storage.heap.length) k = some entry ∨ _
    rw [hheld k]
    split at hk
    next he =>
      cases hk
      exact .inl (if_pos he.symm)
    next hne =>
      rw [if_neg fun he => hne he.symm]
      rcases h.removes.held k entry tags hk with hold | ⟨tag, htag, hstale⟩
      · exact .inl hold
      · exact .inr ⟨tag, htag, hstale.mono hheap⟩
  · have hlooked : ∀ {k tag entry}, s.Looked k tag entry →
        Looked { s with storage := s.storage.put now key chunk versionTag, log := .put key s.storage.heap.length :: s.log } k tag entry := by
      intro k tag entry ⟨hlt, hlater⟩
      refine ⟨?_, fun tags hk => ?_⟩
      · change entry < (s.storage.put now key chunk versionTag).heap.length
        omega
      · rw [hlast k] at hk
        split at hk
        · cases hk
          exact absurd hlt (Nat.lt_irrefl _)
        · exact hlater tags hk
    have hold := h.calls c hc
    cases c with
    | getFound k tag entry => exact hlooked hold
    | getStale k tag entry => exact ⟨hlooked hold.1, hold.2.mono hheap⟩
    | putStart | getStart | done | got => trivial

theorem Inv.lookUp (h : Inv s) (now : Nat) (key : InMemCacheBlock) (tag : String) :
    Inv { s with storage := { s.storage with lruCache := (s.storage.lruCache.get now key).2 }, log := .lookUp key tag :: s.log } := by
  obtain ⟨-, hcache, hheld⟩ := h.cache.get now key
  refine ⟨hcache, fun k entry hk => ?_, fun k entry tags hk => ?_,
    ⟨fun entry tag hdrop => ?_, fun k entry tags hk => ?_⟩,
    fun c hc => ?_⟩
  · obtain ⟨tags, hlast⟩ := h.heldLast k entry ((hheld k).symm.trans hk)
    exact lastPut_lookUp_isSome hlast
  · obtain ⟨tags', hlast, -⟩ := lastPut_lookUp hk
    exact h.lastLt k entry tags' hlast
  · rcases List.mem_cons.mp hdrop with he | hdrop
    · cases he
    · exact h.removes.dropped entry tag hdrop
  · obtain ⟨tags', hlast, hsub, -⟩ := lastPut_lookUp hk
    rcases h.removes.held k entry tags' hlast with hold | ⟨tag, htag, hstale⟩
    · exact .inl ((hheld k).trans hold)
    · exact .inr ⟨tag, hsub htag, hstale⟩
  · have hlooked : ∀ {k tag' entry}, s.Looked k tag' entry →
        Looked { s with storage := { s.storage with lruCache := (s.storage.lruCache.get now key).2 },
                        log := .lookUp key tag :: s.log } k tag' entry := by
      intro k tag' entry ⟨hlt, hlater⟩
      refine ⟨hlt, fun tags hk => ?_⟩
      obtain ⟨tags', hlast, hsub, -⟩ := lastPut_lookUp hk
      exact hsub (hlater tags' hlast)
    have hold := h.calls c hc
    cases c with
    | getFound k tag entry => exact hlooked hold
    | getStale k tag entry => exact ⟨hlooked hold.1, hold.2⟩
    | putStart | getStart | done | got => trivial

/-- The deletion removes the entry the lookup found, which was stale, or nothing. -/
theorem Inv.deleteStale (h : Inv s) {key : InMemCacheBlock} {tag : String} {entry : Nat}
    (hlooked : s.Looked key tag entry) (hstale : s.StaleFor entry tag)
    (hheld : s.held key = some entry ∨ s.held key = none) : Inv (s.deleteStale key tag) := by
  obtain ⟨hcache, hgone⟩ := h.cache.delete key
  have hlast : ∀ k, lastPut k (s.deleteStale key tag).log = lastPut k s.log := by
    intro k
    change lastPut k (((s.held key).map fun entry => ExtEvent.drop entry tag).toList ++ s.log) = _
    cases s.held key <;> rfl
  refine ⟨hcache, fun k entry' hk => ?_, fun k entry' tags hk => ?_,
    ⟨fun entry' tag' hdrop => ?_, fun k entry' tags hk => ?_⟩,
    fun c hc => ?_⟩
  · rw [hlast k]
    have hk := (hgone k).symm.trans hk
    split at hk
    · cases hk
    · exact h.heldLast k entry' hk
  · rw [hlast k] at hk
    exact h.lastLt k entry' tags hk
  · rcases List.mem_append.mp hdrop with hnew | hold
    · obtain ⟨entry'', he, hdrop⟩ := Option.map_eq_some_iff.mp (Option.mem_toList.mp hnew)
      cases hdrop
      rcases hheld with hheld | hheld
      · cases hheld.symm.trans he
        exact hstale
      · cases hheld.symm.trans he
    · exact h.removes.dropped entry' tag' hold
  · rw [hlast k] at hk
    rcases h.removes.held k entry' tags hk with hold | hlater
    · by_cases hkey : k = key
      · subst hkey
        rcases hheld with hheld | hheld
        · cases hheld.symm.trans hold
          exact .inr ⟨tag, hlooked.2 tags hk, hstale⟩
        · cases hheld.symm.trans hold
      · exact .inl ((hgone k).trans ((if_neg hkey).trans hold))
    · exact .inr hlater
  · have hlooked' : ∀ {k tag' entry'}, s.Looked k tag' entry' → (s.deleteStale key tag).Looked k tag' entry' := by
      intro k tag' entry' ⟨hlt, hlater⟩
      refine ⟨hlt, fun tags hk => ?_⟩
      rw [hlast k] at hk
      exact hlater tags hk
    have hold := h.calls c hc
    cases c with
    | getFound k tag entry => exact hlooked' hold
    | getStale k tag entry => exact ⟨hlooked' hold.1, hold.2⟩
    | putStart | getStart | done | got => trivial

theorem Inv.start (h : Inv s) {call : ExtCall} (hcall : s.CallOK call) :
    Inv { s with calls := s.calls ++ [call] } := by
  refine ⟨h.cache, h.heldLast, h.lastLt, ⟨h.removes.dropped, h.removes.held⟩, fun c hc => ?_⟩
  rcases List.mem_append.mp hc with hold | hnew
  · exact h.calls c hold
  · cases List.mem_singleton.mp hnew
    exact hcall

theorem Inv.callStep (h : Inv s) {i now : Nat} {call : ExtCall} (hcall : s.calls[i]? = some call)
    (hg : s.StillHeld (.step i now)) (hs : s.callStep i now call = some s') : Inv s' := by
  have hok : s.CallOK call := h.calls call (List.mem_of_getElem? hcall)
  cases call with
  | putStart key chunk versionTag =>
    cases hs
    exact (h.put now key chunk versionTag).goto trivial
  | getStart key tag =>
    have hlookUp := h.lookUp (steadyMillis now) key tag
    obtain ⟨hresult, -⟩ := h.cache.get (steadyMillis now) key
    cases hget : s.storage.lruCache.get (steadyMillis now) key with
    | mk result lruCache =>
    rw [hget] at hresult hlookUp
    simp only [ExtRace.callStep, hget] at hs
    cases result with
    | none =>
      cases hs
      exact hlookUp.goto trivial
    | some entry =>
      cases hs
      obtain ⟨tags, hlast⟩ := h.heldLast key entry hresult.symm
      refine hlookUp.goto ⟨h.lastLt key entry tags hlast, fun tags' hlast' => ?_⟩
      obtain ⟨-, -, -, hmem⟩ := lastPut_lookUp hlast'
      exact hmem rfl
  | getFound key tag entry =>
    obtain ⟨d, hd, rfl⟩ := Option.map_eq_some_iff.mp hs
    by_cases hvalid : validateVersionTag d.versionTag tag = true
    · rw [hvalid]
      exact h.goto trivial
    · rw [Bool.eq_false_iff.mpr hvalid]
      exact h.goto ⟨hok, d, hd, Bool.eq_false_iff.mpr hvalid⟩
  | getStale key tag entry =>
    cases hs
    simp only [StillHeld, hcall] at hg
    exact (h.deleteStale hok.1 hok.2 hg).goto trivial
  | done | got => cases hs

theorem Inv.step (h : Inv s) {a : ExtAct} (hg : s.StillHeld a) (hs : s.step a = some s') : Inv s' := by
  cases a with
  | startPut key chunk tag =>
    cases hs
    exact h.start trivial
  | startGet key tag =>
    cases hs
    exact h.start trivial
  | step i now =>
    obtain ⟨call, hcall, hs⟩ := Option.bind_eq_some_iff.mp hs
    exact h.callStep hcall hg hs

/-- The critical sections of a `Get` one after the other are the `Get` of the storage. -/
theorem get_sections (storage : ExtensionStorage) (h : storage.OK) (now : Nat) (key : InMemCacheBlock)
    (tag : String) :
    ∃ n s, exec ExtRace.step { storage } (.startGet key tag :: List.replicate n (.step 0 now)) = some s ∧
      s.calls = [.got (storage.get now key tag).1] ∧ s.storage = (storage.get now key tag).2 := by
  cases hget : storage.lruCache.get (steadyMillis now) key with
  | mk result lruCache =>
  cases result with
  | none =>
    refine ⟨1, { storage := { storage with lruCache }, calls := [.got none], log := [.lookUp key tag] },
      ?_, ?_, ?_⟩
    · simp [exec, ExtRace.step, ExtRace.callStep, hget, ExtRace.goto]
    · simp [ExtensionStorage.get, hget]
    · simp [ExtensionStorage.get, hget]
  | some entry =>
    have hfound := (SharedValueLruCache.get_spec h.lru (steadyMillis now) key).2
    rw [hget] at hfound
    obtain ⟨⟨ts, hfind, -⟩, -⟩ := hfound
    obtain ⟨d, hd⟩ : ∃ d, storage.heap[entry]? = some d :=
      ⟨_, List.getElem?_eq_getElem (h.pointed key entry ts hfind)⟩
    cases hvalid : validateVersionTag d.versionTag tag with
    | true =>
      refine ⟨2, { storage := { storage with lruCache }, calls := [.got (some entry)], log := [.lookUp key tag] }, ?_, ?_, ?_⟩
      · simp [exec, ExtRace.step, ExtRace.callStep, hget, ExtRace.goto, hd, hvalid]
      · simp [ExtensionStorage.get, hget, hd, hvalid]
      · simp [ExtensionStorage.get, hget, hd, hvalid]
    | false =>
      refine ⟨3, (deleteStale
        { storage := { storage with lruCache }, calls := [.getStale key tag entry], log := [.lookUp key tag] }
        key tag).goto 0 (.got none), ?_, ?_, ?_⟩
      · simp [exec, ExtRace.step, ExtRace.callStep, hget, ExtRace.goto, hd, hvalid]
      · simp [ExtensionStorage.get, hget, hd, hvalid, ExtRace.goto, ExtRace.deleteStale]
      · simp [ExtensionStorage.get, hget, hd, hvalid, ExtRace.goto, ExtRace.deleteStale, ExtensionStorage.delete]

/-- Where every deletion finds what its lookup found, a stale entry is all that goes. -/
theorem stale_get_removes_stale (acts : List ExtAct) (s : ExtRace) (hg : Guarded ExtRace.step StillHeld {} acts)
    (h : exec ExtRace.step {} acts = some s) : s.RemovesStale :=
  (exec_guarded_invariant (fun _ _ _ hI hG hs => Inv.step hI hG hs) hg h Inv.new).removes

/-- A `Get` that finds the entry stale, deletes it and leaves the next `Put` alone. -/
theorem stale_get_removes_stale_two :
    ∃ s, exec ExtRace.step {} [.startPut ⟨"f", 0, 4⟩ ⟨none, 4, 4⟩ "a", .step 0 0, .startGet ⟨"f", 0, 4⟩ "b",
      .step 1 0, .step 1 0,
        .step 1 0, .startPut ⟨"f", 0, 4⟩ ⟨none, 4, 4⟩ "b", .step 2 0] = some s ∧ s.RemovesStale := by
  have hrun : (exec ExtRace.step {} [.startPut ⟨"f", 0, 4⟩ ⟨none, 4, 4⟩ "a", .step 0 0,
    .startGet ⟨"f", 0, 4⟩ "b", .step 1 0,
      .step 1 0, .step 1 0, .startPut ⟨"f", 0, 4⟩ ⟨none, 4, 4⟩ "b", .step 2 0]).isSome := by decide +kernel
  obtain ⟨s, hs⟩ := Option.isSome_iff_exists.mp hrun
  exact ⟨s, hs, stale_get_removes_stale _ s (by decide +kernel) hs⟩

/-- A `Put` with the tag the `Get` expects lands between the check and the deletion, which removes it. -/
theorem stale_get_removes_fresh :
    ∃ s, exec ExtRace.step {} [.startPut ⟨"f", 0, 4⟩ ⟨none, 4, 4⟩ "a", .step 0 0, .startGet ⟨"f", 0, 4⟩ "b",
      .step 1 0, .step 1 0,
        .startPut ⟨"f", 0, 4⟩ ⟨none, 4, 4⟩ "b", .step 2 0, .step 1 0] = some s ∧ s.calls.all ExtCall.finished ∧
      ¬(∀ entry tag, .drop entry tag ∈ s.log → s.StaleFor entry tag) ∧
      ¬(∀ key entry tags, lastPut key s.log = some (entry, tags) → s.held key = some entry ∨
        ∃ tag ∈ tags, s.StaleFor entry tag) := by
  have hrun : (exec ExtRace.step {} [.startPut ⟨"f", 0, 4⟩ ⟨none, 4, 4⟩ "a", .step 0 0,
    .startGet ⟨"f", 0, 4⟩ "b", .step 1 0,
      .step 1 0, .startPut ⟨"f", 0, 4⟩ ⟨none, 4, 4⟩ "b", .step 2 0, .step 1 0]).map (fun s =>
        (s.calls.all ExtCall.finished, s.log, s.storage.heap, s.held ⟨"f", 0, 4⟩)) =
      some (true, [.drop 1 "b", .put ⟨"f", 0, 4⟩ 1, .lookUp ⟨"f", 0, 4⟩ "b", .put ⟨"f", 0, 4⟩ 0],
        [⟨⟨none, 4, 4⟩, "a"⟩, ⟨⟨none, 4, 4⟩, "b"⟩], none) := by decide +kernel
  obtain ⟨s, hs, hfacts⟩ := Option.map_eq_some_iff.mp hrun
  rw [Prod.mk.injEq, Prod.mk.injEq, Prod.mk.injEq] at hfacts
  obtain ⟨hquiet, hlog, hheap, hheld⟩ := hfacts
  have hlast : lastPut ⟨"f", 0, 4⟩ s.log = some (1, []) := by
    rw [hlog]
    rfl
  refine ⟨s, hs, hquiet, fun hdropped => ?_, fun hkept => ?_⟩
  · obtain ⟨d, hd, hstale⟩ := hdropped 1 "b" (hlog ▸ List.mem_cons_self)
    rw [hheap] at hd
    cases hd
    revert hstale
    decide
  · rcases hkept _ _ _ hlast with hkeeps | ⟨tag, htag, -⟩
    · cases hheld.symm.trans hkeeps
    · cases htag

end ExtRace

end ReadCacheFs
