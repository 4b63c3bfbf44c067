/-
Clearing one file: `ClearCache(f)` on the in-memory storages,
`ClearFileHandleCache(f)` on the handle cache.

The extension storage and the handle cache scan an ordered map from the first
key of the path and stop at the first other key; the policy storage goes
through all entries; the object cache storage scans its metadata and leaves
the rest to the blocks' destructors. All leave what filtering every entry
would, the object cache storage where the metadata of the file's keys are
those of the blocks the object cache has under them
(`clearing_a_file_is_exact`).
-/
import ReadCacheFs.ClockFifo
import ReadCacheFs.DataCacheStorage
import ReadCacheFs.FileHandleCache
import ReadCacheFs.ObjectRace
import ReadCacheFs.PolicyInvariant
import ReadCacheFs.SharedValueLruMap

namespace ReadCacheFs

open Lib

/-! ## The extension storage -/

namespace ExtensionStorage

/-- The entries of other files stay, in their order, and no others. -/
structure WithoutFile (f : String) (s s' : ExtensionStorage) : Prop where
  entries : ∀ k, s'.lruCache.find? k = if k.fname = f then none else s.lruCache.find? k
  order : s'.lruCache.lruList.values = s.lruCache.lruList.values.filter (·.fname != f)
  heap : s'.heap = s.heap

theorem clearFile_exact {s : ExtensionStorage} (h : s.lruCache.OK) (f : String) :
    WithoutFile f s (s.clearFrom ⟨f, 0, 0⟩ (·.fname == f)) := by
  refine ⟨fun k => ?_, ?_, rfl⟩
  · obtain ⟨hgone, hkept⟩ := (SharedValueLruCache.clearFrom_spec h ⟨f, 0, 0⟩ (·.fname == f)).2 k
    change (s.lruCache.clearFrom ⟨f, 0, 0⟩ (·.fname == f)).find? k = _
    by_cases hin : k ∈ s.lruCache.keysFrom ⟨f, 0, 0⟩ (·.fname == f)
    · rw [hgone hin, if_pos (mem_keysFrom_file.mp hin).2]
    · rw [hkept hin]
      cases hfind : s.lruCache.find? k with
      | none => exact (ite_self none).symm
      | some x =>
        obtain ⟨e, he, -⟩ := Option.map_eq_some_iff.mp hfind
        rw [if_neg fun hf => hin (mem_keysFrom_file.mpr ⟨⟨e, he⟩, hf⟩)]
  · obtain ⟨r, hr⟩ := h.realizes
    refine (hr.clearFrom ⟨f, 0, 0⟩ (·.fname == f)).order.trans ?_
    rw [hr.order, Recency.keep_order]
    refine List.filter_congr fun k hk => ?_
    rw [Bool.eq_iff_iff, decide_eq_true_eq, bne_iff_ne, mem_keysFrom_file, and_iff_right (hr.mem_order.mp hk)]

end ExtensionStorage

/-- What a call does under the mutex; a `Get` is a lookup and, if the entry is stale, a deletion. -/
inductive ExtensionAct
  | put (now : Nat) (key : InMemCacheBlock) (chunk : PageAlignedDataChunk) (versionTag : String)
  | lookUp (now : Nat) (key : InMemCacheBlock)
  | delete (key : InMemCacheBlock)
  | clear
  | clearFrom (startKey : InMemCacheBlock) (filter : InMemCacheBlock → Bool)
  | take (clock : Nat → Nat)

def extensionStep (s : ExtensionStorage) : ExtensionAct → Option ExtensionStorage
  | .put now key chunk versionTag => some (s.put now key chunk versionTag)
  | .lookUp now key => some { s with lruCache := (s.lruCache.get (steadyMillis now) key).2 }
  | .delete key => some (s.delete key).2
  | .clear => some s.clear
  | .clearFrom startKey filter => some (s.clearFrom startKey filter)
  | .take clock => (s.take clock).toOption.map (·.2)

namespace ExtensionStorage

theorem step_ok {s s' : ExtensionStorage} {a : ExtensionAct} (h : s.lruCache.OK)
    (hs : extensionStep s a = some s') :
    s'.lruCache.OK := by
  cases a with
  | put now key chunk tag =>
    cases hs
    exact SharedValueLruCache.put_ok h _ _ _
  | lookUp now key =>
    cases hs
    exact (SharedValueLruCache.get_spec h _ _).1
  | delete key =>
    cases hs
    exact (SharedValueLruCache.delete_spec h key).1
  | clear =>
    cases hs
    exact SharedValueLruCache.clear_spec.1
  | clearFrom startKey filter =>
    cases hs
    exact (SharedValueLruCache.clearFrom_spec h startKey filter).1
  | take clock =>
    obtain ⟨result, c, htake, hok, -⟩ := SharedValueLruCache.take_spec h (steadyMillis ∘ clock)
    simp only [extensionStep, ExtensionStorage.take, htake] at hs
    cases hs
    exact hok

end ExtensionStorage

/-! ## The policy storage -/

namespace EvictionPolicy

/-- The keys with CLOCK's bits, a list from back to front, a ring from the hand on. -/
def queue : EvictionPolicy → SecondChance InMemCacheBlock
  | .lru p | .fifo p | .mru p => p.queue
  | .clock p => p.queue

variable {p : EvictionPolicy}

theorem queue_onErase (h : p.OK) (key : InMemCacheBlock) : (p.onErase key).queue = p.queue.erase key := by
  cases p with
  | lru p | fifo p | mru p => exact ListPolicy.queue_onErase h key
  | clock p => exact ClockPolicy.queue_onErase h key

theorem keys_queue (p : EvictionPolicy) : p.queue.keys.Perm p.keys := by
  cases p with
  | lru p | fifo p | mru p =>
    change p.queue.keys.Perm p.order.values
    rw [ListPolicy.keys_queue]
    exact List.reverse_perm _
  | clock p => exact p.queue_keys_perm

end EvictionPolicy

namespace Group

variable {g : Group} {key : InMemCacheBlock}

theorem Tracked.clear (g : Group) : g.clear.Tracked := by
  obtain ⟨hok, hk⟩ := g.policy.clear_spec
  exact ⟨hok, by rw [Group.clear, hk]; exact .refl _⟩

/-- A filtered clear keeps the policy's order. -/
theorem Tracked.clearMatching (filter : InMemCacheBlock → Bool) (l : List (Σ _ : InMemCacheBlock, PolicyEntry))
    (h : g.Tracked) : (g.clearMatching filter l).Tracked ∧
      (g.clearMatching filter l).policy.queue =
        g.policy.queue.filter fun x => !(filter x.1 && decide (x.1 ∈ l.keys)) := by
  induction l generalizing g with
  | nil =>
    refine ⟨h, (List.filter_eq_self.mpr fun x _ => ?_).symm⟩
    simp
  | cons kv rest ih =>
    obtain ⟨key, e⟩ := kv
    rw [Group.clearMatching]
    split
    next hf =>
      obtain ⟨htracked, hqueue⟩ := ih (h.removeEntry key e)
      refine ⟨htracked, hqueue.trans ?_⟩
      rw [Group.removeEntry, EvictionPolicy.queue_onErase h.policy, SecondChance.erase, List.filter_filter]
      refine List.filter_congr fun x _ => ?_
      by_cases hk : x.1 = key <;> simp [hk, hf]
    next hf =>
      obtain ⟨htracked, hqueue⟩ := ih h
      refine ⟨htracked, hqueue.trans (List.filter_congr fun x _ => ?_)⟩
      by_cases hk : x.1 = key
      · simp [hk, Bool.eq_false_iff.mpr hf]
      · simp [hk]

/-- The entries of other files stay, in the order of the policy, and no others. -/
structure WithoutFile (f : String) (g g' : Group) : Prop where
  entries : ∀ k, g'.entries.lookup k = if k.fname = f then none else g.entries.lookup k
  order : g'.policy.queue = g.policy.queue.filter (·.1.fname != f)

theorem Tracked.clearFile_exact (h : g.Tracked) (hash : PolicyHash) (f : String) :
    WithoutFile f g (g.clearMatching (·.fname == f) (hash.order g.entries.entries)) := by
  have hperm := hash.perm g.entries.entries
  refine ⟨fun k => Option.ext fun e => ?_, ?_⟩
  · rw [clearMatching_lookup]
    by_cases hf : k.fname = f
    · rw [if_pos hf]
      refine ⟨fun ⟨he, hout⟩ => ?_, nofun⟩
      exact absurd rfl (hout (beq_iff_eq.mpr hf) ⟨k, e⟩ (hperm.mem_iff.mpr (AList.mem_lookup_iff.mp he)))
    · rw [if_neg hf]
      exact ⟨And.left, fun he => ⟨he, fun hf' => absurd (beq_iff_eq.mp hf') hf⟩⟩
  · rw [(h.clearMatching _ _).2]
    refine List.filter_congr fun x hx => ?_
    have hkey : x.1 ∈ (hash.order g.entries.entries).keys := by
      have hmem : x.1 ∈ g.policy.queue.keys := List.mem_map_of_mem hx
      exact (hperm.map Sigma.fst).mem_iff.mpr (h.tracked.mem_iff.mp (g.policy.keys_queue.mem_iff.mp hmem))
    rw [decide_eq_true hkey, Bool.and_true]
    rfl

end Group

namespace PolicyStorage

structure WithoutFile (f : String) (s s' : PolicyStorage) : Prop where
  groups : List.Forall₂ (Group.WithoutFile f) s.groups s'.groups
  heap : s'.heap = s.heap

variable {s s' : PolicyStorage}

theorem Tracked.clearFile_exact (h : s.Tracked) (hash : PolicyHash) (f : String) :
    WithoutFile f s (s.clearFrom hash ⟨f, 0, 0⟩ (·.fname == f)) := by
  refine ⟨List.forall₂_map_right_iff.mpr (List.forall₂_same.mpr fun g hg => ?_), rfl⟩
  exact (h.groups g hg).clearFile_exact hash f

theorem Tracked.delete (h : s.Tracked) (key : InMemCacheBlock) : (s.delete key).2.Tracked := by
  have hr := (delete_moves h.toRouted key).routed h.toRouted
  obtain ⟨g, hg, ⟨_, he⟩ | ⟨e, _, he⟩⟩ := delete_cases h.toRouted key
  · rw [he]
    exact h.groupFor key.fname
  · exact h.setGroup hr ((h.groups g (List.mem_of_getElem? hg)).removeEntry key e) (by rw [he, groupFor_eq])

theorem Tracked.map {f : Group → Group} (h : s.Tracked) (hf : ∀ g, g.Tracked → (f g).Tracked)
    (hr : ({ s with groups := s.groups.map f } : PolicyStorage).Routed) :
    ({ s with groups := s.groups.map f } : PolicyStorage).Tracked := by
  refine ⟨hr, fun x hx => ?_⟩
  obtain ⟨g, hg, rfl⟩ := List.mem_map.mp hx
  exact hf g (h.groups g hg)

theorem step_tracked {a : PolicyAct} (h : s.Tracked) (hs : policyStep s a = some s') : s'.Tracked := by
  cases a with
  | put now key chunk tag =>
    cases hs
    exact h.put now key chunk tag
  | get now key tag =>
    cases hs
    exact h.get now key tag
  | delete key =>
    cases hs
    exact h.delete key
  | clear | take =>
    cases hs
    exact h.map (fun g _ => .clear g) ((clear_moves s).routed h.toRouted)
  | clearFrom hash startKey filter =>
    cases hs
    exact h.map (fun g hg => (hg.clearMatching filter _).1)
      ((clearFrom_moves s hash startKey filter).routed h.toRouted)

end PolicyStorage

/-! ## The object cache storage -/

namespace ObjectStorage

/-- The entries of other files stay, in the metadata and in the object cache, and no others. -/
structure WithoutFile (f : String) (s s' : ObjectStorage) : Prop where
  entries : ∀ k : InMemCacheBlock, s'.entries[k]? = if k.fname = f then none else s.entries[k]?
  objCache : ∀ k, s'.objCache.lookup (makeObjCacheKey k) =
    if k.fname = f then none else s.objCache.lookup (makeObjCacheKey k)

/-- The metadata of a key are those of the block the object cache has under it, or there is neither. -/
def InStep (s : ObjectStorage) (k : InMemCacheBlock) : Prop :=
  (s.entries[k]?).map (·.blockId) = s.objCache.lookup (makeObjCacheKey k)

/-- Blocks and metadata are under the keys they were made for. -/
structure Named (s : ObjectStorage) : Prop where
  entries : ∀ (k : InMemCacheBlock) m, s.entries[k]? = some m → m.objCacheKey = makeObjCacheKey k
  objCache : ∀ o b, s.objCache.lookup o = some b → ∃ k d, o = makeObjCacheKey k ∧ s.blocks[b]? = some ⟨k, d⟩

variable {s s' : ObjectStorage} {k key : InMemCacheBlock} {m : EntryMeta}

theorem Named.sheds (h : s.Named) (hs : Sheds s s') : s'.Named := by
  refine ⟨fun k m hm => h.entries k m (hs.entries k m hm), fun o b ho => ?_⟩
  obtain ⟨k, d, hk, hd⟩ := h.objCache o b (hs.objCache o b ho)
  exact ⟨k, d, hk, (hs.blocks o b ho).trans hd⟩

theorem objCacheDelete_pins (s : ObjectStorage) (o : String) : (s.objCacheDelete o).pins = s.pins := by
  unfold objCacheDelete
  split
  · rfl
  · rw [dropReference_eq]

/-- Without pins, a block that leaves the object cache takes its metadata along, but not those of another block. -/
theorem Named.objCacheDelete_entries (h : s.Named) (hpins : s.pins = []) :
    (s.objCacheDelete (makeObjCacheKey key)).entries[k]? = some m ↔
      s.entries[k]? = some m ∧ ¬(k = key ∧ s.objCache.lookup (makeObjCacheKey key) = some m.blockId) := by
  unfold objCacheDelete
  split
  next hnone =>
    rw [hnone]
    simp
  next b hb =>
    obtain ⟨k', d, hk, hd⟩ := h.objCache _ b hb
    obtain rfl := makeObjCacheKey_injective hk
    have hfree : ({ s with objCache := s.objCache.erase (makeObjCacheKey key) } : ObjectStorage).referenced b = false := by
      by_contra hreferenced
      rcases ObjRace.referenced_cases
        (s := { storage := { s with objCache := s.objCache.erase (makeObjCacheKey key) } })
        (Bool.not_eq_false _ ▸ hreferenced) with ⟨o, ho⟩ | hpin
      · obtain ⟨hne, ho⟩ := lookup_erase_objCache ho
        obtain ⟨k', d', rfl, hd'⟩ := h.objCache o b ho
        rw [hd] at hd'
        cases hd'
        exact hne rfl
      · rw [hpins] at hpin
        cases hpin
    simp only [dropReference, hfree, Bool.false_eq_true, if_false, hd]
    rw [ObjRace.onEntryDestroyed_entries, hb, Option.some.injEq, eq_comm (a := b)]

theorem Named.objCacheDeleteAll_entries (h : s.Named) (hpins : s.pins = []) (ks : List InMemCacheBlock) :
    (s.objCacheDeleteAll (ks.map makeObjCacheKey)).entries[k]? = some m ↔
      s.entries[k]? = some m ∧ ¬(k ∈ ks ∧ s.objCache.lookup (makeObjCacheKey k) = some m.blockId) := by
  induction ks generalizing s with
  | nil => simp [objCacheDeleteAll]
  | cons key ks ih =>
    have hrest := ih (h.sheds (objCacheDelete_sheds s (makeObjCacheKey key)))
      ((objCacheDelete_pins s _).trans hpins)
    change ((s.objCacheDelete (makeObjCacheKey key)).objCacheDeleteAll (ks.map makeObjCacheKey)).entries[k]? =
      some m ↔ _
    rw [hrest, h.objCacheDelete_entries hpins, List.mem_cons]
    by_cases hk : k = key
    · subst hk
      rw [objCacheDelete_lookup]
      simp
    · rw [objCacheDelete_lookup_ne s fun he => hk (makeObjCacheKey_injective he)]
      simp [hk]

/-- The keys of the file that are in step go entirely; what is not in step stays in one of the two maps. -/
theorem Named.clearFile_exact_iff (h : s.Named) (hpins : s.pins = []) (f : String) :
    WithoutFile f s (s.clearFrom ⟨f, 0, 0⟩ (·.fname == f)) ↔ ∀ k, k.fname = f → s.InStep k := by
  generalize hks : keysInRange s.entries.keys ⟨f, 0, 0⟩ (·.fname == f) = ks
  have hmem : ∀ k, k ∈ ks ↔ (∃ m, s.entries[k]? = some m) ∧ k.fname = f := by
    intro k
    rw [← hks, mem_keysInRange_file Std.TreeMap.ordered_keys, Std.TreeMap.mem_keys,
      Std.TreeMap.mem_iff_isSome_getElem?,
      Option.isSome_iff_exists]
  have hclear : s.clearFrom ⟨f, 0, 0⟩ (·.fname == f) = s.objCacheDeleteAll (ks.map makeObjCacheKey) := by
    rw [clearFrom, hks]
    congr 1
    rw [← List.filterMap_eq_map]
    refine List.filterMap_congr fun k hk => ?_
    obtain ⟨⟨m, hm⟩, -⟩ := (hmem k).mp hk
    rw [hm, Option.map_some, h.entries k m hm]
    rfl
  have hlookup : ∀ k, (s.objCacheDeleteAll (ks.map makeObjCacheKey)).objCache.lookup (makeObjCacheKey k) =
      if k ∈ ks then none else s.objCache.lookup (makeObjCacheKey k) := by
    intro k
    split
    next hk => exact objCacheDeleteAll_lookup _ s (List.mem_map_of_mem hk)
    next hk =>
      refine objCacheDeleteAll_lookup_notMem _ s fun hin => ?_
      obtain ⟨k', hk', he⟩ := List.mem_map.mp hin
      exact hk (makeObjCacheKey_injective he ▸ hk')
  rw [hclear]
  constructor
  · intro hexact k hk
    have hentries := hexact.entries k
    have hobjCache := hexact.objCache k
    rw [if_pos hk] at hentries hobjCache
    rw [InStep]
    cases hm : s.entries[k]? with
    | none =>
      rw [hlookup, if_neg fun hin => by simpa [hm] using ((hmem k).mp hin).1] at hobjCache
      exact hobjCache.symm
    | some m =>
      by_contra hapart
      have hkept := (h.objCacheDeleteAll_entries hpins ks).mpr ⟨hm, fun hown => hapart hown.2.symm⟩
      cases hentries.symm.trans hkept
  · intro hstep
    refine ⟨fun k => Option.ext fun m => ?_, fun k => ?_⟩
    · rw [h.objCacheDeleteAll_entries hpins]
      by_cases hk : k.fname = f
      · rw [if_pos hk]
        constructor
        · rintro ⟨hm, hkept⟩
          have hown := hstep k hk
          rw [InStep, hm, Option.map_some] at hown
          exact absurd ⟨(hmem k).mpr ⟨⟨m, hm⟩, hk⟩, hown.symm⟩ hkept
        · intro hm
          cases hm
      · rw [if_neg hk]
        exact ⟨And.left, fun hm => ⟨hm, fun hown => hk ((hmem k).mp hown.1).2⟩⟩
    · rw [hlookup]
      by_cases hk : k.fname = f
      · rw [if_pos hk]
        split
        next => rfl
        next hout =>
          have hown := hstep k hk
          rw [InStep] at hown
          rw [← hown, Option.map_eq_none_iff]
          exact Option.eq_none_iff_forall_ne_some.mpr fun m hm => hout ((hmem k).mpr ⟨⟨m, hm⟩, hk⟩)
      · rw [if_neg hk, if_neg fun hin => hk ((hmem k).mp hin).2]

end ObjectStorage

namespace ObjRace

/-- The block a `Put` has in hand is under the key of the `Put`. -/
def CallNamed (blocks : List CacheHttpfsDataBlock) : ObjCall → Prop
  | .putMade key m | .putPlaced key m => m.objCacheKey = makeObjCacheKey key ∧
    ∃ d, blocks[m.blockId]? = some ⟨key, d⟩
  | _ => True

/-- In any run, in order or not. -/
structure Named (s : ObjRace) : Prop where
  storage : s.storage.Named
  calls : ∀ c ∈ s.calls, CallNamed s.storage.blocks c

variable {s s' : ObjRace}

theorem Named.goto (h : s.Named) (i : Nat) (c : ObjCall) (hc : CallNamed s.storage.blocks c) :
    (s.goto i c).Named := by
  refine ⟨h.storage, fun c' hc' => ?_⟩
  rcases List.mem_or_eq_of_mem_set hc' with hc' | rfl
  · exact h.calls c' hc'
  · exact hc

theorem Named.start (h : s.Named) (c : ObjCall) (hc : CallNamed s.storage.blocks c) :
    Named { s with calls := s.calls ++ [c] } := by
  refine ⟨h.storage, fun c' hc' => ?_⟩
  rcases List.mem_append.mp hc' with hc' | hc'
  · exact h.calls c' hc'
  · rw [List.mem_singleton.mp hc']
    exact hc

theorem Named.unlink (h : s.Named) (b : Nat) : (s.unlink b).Named := by
  unfold ObjRace.unlink
  split
  · exact h
  · exact ⟨h.storage, h.calls⟩

theorem Named.remove (h : s.Named) (o : String) : (s.remove o).Named := by
  unfold ObjRace.remove
  split
  · exact h
  · have herase : Named { s with storage := { s.storage with objCache := s.storage.objCache.erase o } } :=
      ⟨h.storage.sheds (ObjectStorage.erase_sheds s.storage o), h.calls⟩
    exact herase.unlink _

/-- A new block is under a number of its own. -/
theorem Named.make (h : s.Named) (now : Nat) (key : InMemCacheBlock) (chunk : PageAlignedDataChunk)
    (tag : String) :
    (s.make now key chunk tag).2.Named ∧
      CallNamed (s.make now key chunk tag).2.storage.blocks (.putMade key (s.make now key chunk tag).1) := by
  have hold : ∀ {b : Nat} {x}, s.storage.blocks[b]? = some x →
      (s.storage.blocks ++ [⟨key, chunk⟩])[b]? = some x := by
    intro b x hb
    rw [List.getElem?_append_left (List.getElem?_eq_some_iff.mp hb).1]
    exact hb
  refine ⟨⟨⟨h.storage.entries, fun o b ho => ?_⟩, fun c hc => ?_⟩, rfl, chunk, List.getElem?_concat_length⟩
  · obtain ⟨k, d, hk, hd⟩ := h.storage.objCache o b ho
    exact ⟨k, d, hk, hold hd⟩
  · have hnamed := h.calls c hc
    cases c with
    | putMade k m | putPlaced k m =>
      obtain ⟨ho, d, hd⟩ := hnamed
      exact ⟨ho, d, hold hd⟩
    | _ => trivial

theorem Named.place (h : s.Named) {key : InMemCacheBlock} {m : EntryMeta} (hc : .putMade key m ∈ s.calls)
    (i : Nat) :
    ((s.place m.objCacheKey m.blockId).goto i (.putPlaced key m)).Named := by
  obtain ⟨hkey, d, hd⟩ := h.calls _ hc
  have hput : Named { s with
      storage := { s.storage with objCache := s.storage.objCache.insert m.objCacheKey m.blockId } } := by
    refine ⟨⟨h.storage.entries, fun o b ho => ?_⟩, h.calls⟩
    by_cases hk : o = m.objCacheKey
    · subst hk
      rw [AList.lookup_insert] at ho
      cases ho
      exact ⟨key, d, hkey, hd⟩
    · rw [AList.lookup_insert_ne hk] at ho
      exact h.storage.objCache o b ho
  unfold ObjRace.place
  dsimp only
  split
  · exact hput.goto i (.putPlaced key m) ⟨hkey, d, hd⟩
  · rw [unlink_goto]
    exact (hput.goto i (.putPlaced key m) ⟨hkey, d, hd⟩).unlink _

theorem Named.record (h : s.Named) {key : InMemCacheBlock} {m : EntryMeta} (hc : .putPlaced key m ∈ s.calls)
    (i : Nat) :
    Named (({ s with storage := { s.storage with entries := s.storage.entries.insert key m } } : ObjRace).goto i .done) := by
  obtain ⟨hkey, -⟩ := h.calls _ hc
  have hput : Named { s with storage := { s.storage with entries := s.storage.entries.insert key m } } := by
    refine ⟨⟨fun k m' hm' => ?_, h.storage.objCache⟩, h.calls⟩
    by_cases hk : k = key
    · subst hk
      cases Std.TreeMap.getElem?_insert_self.symm.trans hm'
      exact hkey
    · exact h.storage.entries k m' ((SharedValueLruCache.getElem?_insert_ne hk).symm.trans hm')
  exact hput.goto i .done trivial

theorem Named.pin (h : s.Named) (pins : List Nat) : Named { s with storage := { s.storage with pins } } :=
  ⟨⟨h.storage.entries, h.storage.objCache⟩, h.calls⟩

theorem Named.callStep (h : s.Named) {i now : Nat} {c : ObjCall} (hc : c ∈ s.calls)
    (hs : s.callStep i now c = some s') : s'.Named := by
  cases c with
  | putStart key chunk tag =>
    simp only [ObjRace.callStep] at hs
    split at hs
    · cases hs
      exact h.goto i .done trivial
    · cases hs
      obtain ⟨hmade, hnew⟩ := h.make now key chunk tag
      exact hmade.goto i _ hnew
  | putMade key m =>
    cases hs
    exact h.place hc i
  | putPlaced key m =>
    cases hs
    exact h.record hc i
  | getStart key tag =>
    simp only [ObjRace.callStep] at hs
    split at hs
    · cases hs
      exact h.goto i (.got key tag none) trivial
    next m _ =>
      split at hs
      · cases hs
        exact h.goto i (.getStale m.objCacheKey) trivial
      · cases hs
        exact h.goto i (.getFetch key tag m.objCacheKey) trivial
  | getFetch key tag o =>
    simp only [ObjRace.callStep] at hs
    split at hs
    · cases hs
      exact h.goto i (.got key tag none) trivial
    next b _ =>
      cases hs
      exact (h.pin (b :: s.storage.pins)).goto i (.got key tag (some b)) trivial
  | deleteStart key =>
    simp only [ObjRace.callStep] at hs
    split at hs
    · cases hs
      exact h.goto i .done trivial
    next m _ =>
      cases hs
      exact h.goto i (.deleteFound m.objCacheKey) trivial
  | getStale o | deleteFound o =>
    cases hs
    exact (h.remove o).goto i .done trivial
  | clearStart range =>
    cases hs
    exact h.goto i (.clearing (s.snapshot range)) trivial
  | clearing os =>
    cases os with
    | nil =>
      cases hs
      exact h.goto i .done trivial
    | cons o rest =>
      cases hs
      exact (h.remove o).goto i (.clearing rest) trivial
  | done | got => cases hs

theorem Named.step (h : s.Named) {a : ObjAct} (hs : s.step a = some s') : s'.Named := by
  cases a with
  | startPut key chunk tag =>
    cases hs
    exact h.start (.putStart key chunk tag) trivial
  | startGet key tag =>
    cases hs
    exact h.start (.getStart key tag) trivial
  | startDelete key =>
    cases hs
    exact h.start (.deleteStart key) trivial
  | startClear range =>
    cases hs
    exact h.start (.clearStart range) trivial
  | step i now =>
    obtain ⟨c, hi, hc⟩ := Option.bind_eq_some_iff.mp hs
    exact h.callStep (List.mem_of_getElem? hi) hc
  | evict o =>
    cases hs
    exact h.remove o
  | release b =>
    simp only [ObjRace.step] at hs
    split at hs
    · cases hs
      exact (h.pin (s.storage.pins.erase b)).unlink b
    · cases hs
  | destroy b =>
    obtain ⟨block, hblock, hs⟩ := Option.bind_eq_some_iff.mp hs
    split at hs
    · cases hs
      rw [onEntryDestroyed_eq]
      refine ⟨⟨fun k m hm => ?_, h.storage.objCache⟩, h.calls⟩
      exact h.storage.entries k m ((onEntryDestroyed_entries s.storage).mp hm).1
    · cases hs

theorem Named.init (timeoutMillisec : Nat) : Named { storage := { timeoutMillisec } } :=
  ⟨⟨by simp, nofun⟩, nofun⟩

theorem AgreesAt.inStep {k : InMemCacheBlock} (h : s.AgreesAt k) : s.storage.InStep k := by
  obtain ⟨hboth, hown⟩ := h
  rw [ObjectStorage.InStep]
  cases hm : s.storage.entries[k]? with
  | some m => exact (hown m hm).1.symm
  | none =>
    rw [hm] at hboth
    exact (Option.not_isSome_iff_eq_none.mp fun hsome => by simpa using hboth.mpr hsome).symm

end ObjRace

/-! ## The handle cache -/

/-- The handle closed `n` times, which destroys it. -/
def InternalHandle.closeTimes (x : InternalHandle) (n : Nat) : InternalHandle :=
  { x with closes := x.closes + n, destroyed := x.destroyed || decide (0 < n) }

@[simp] theorem InternalHandle.closeTimes_zero (x : InternalHandle) : x.closeTimes 0 = x := by simp [closeTimes]

namespace HandleState

/-- What the live cache holds, with the keys. -/
def liveItems (s : HandleState) : List (FileHandleCacheKey × Nat) :=
  (s.fileHandleCache.bind fun r => (s.caches[r]?).map (·.items)).getD []

/-- The handles under the path, which are closed, leave the live cache, and no others; nothing else happens. -/
structure WithoutPath (f : String) (s s' : HandleState) : Prop where
  items : s'.liveItems.Perm (s.liveItems.filter (·.1.path != f))
  handles : ∀ h : Nat, s'.handles[h]? =
    (s.handles[h]?).map (·.closeTimes (((s.liveItems.filter (·.1.path == f)).map Prod.snd).count h))
  rest : ∃ caches handles, s' = { s with caches, handles } ∧ ∀ r, s.fileHandleCache ≠ some r → caches[r]? = s.caches[r]?

/-- Keys are made with the flag, those of the entries and those the handles took along. -/
structure Flagged (parallelAccess : Nat) (s : HandleState) : Prop where
  caches : ∀ c ∈ s.caches, ∀ kv ∈ c.items, parallelAccess ≤ kv.1.flags
  files : ∀ f ∈ s.files, parallelAccess ≤ f.cacheKey.flags

variable {parallelAccess : Nat} {s s' : HandleState} {r : Nat} {c c' : FileHandleCache}

theorem closeAll_handles (hs : List Nat) (h : Nat) :
    (s.closeAll hs).handles[h]? = (s.handles[h]?).map (·.closeTimes (hs.count h)) := by
  induction hs generalizing s with
  | nil => simp [HandleState.closeAll]
  | cons j hs ih =>
    refine (ih (s := s.closeInternal j)).trans ?_
    rw [closeInternal, modifyHandle, List.getElem?_modify]
    cases hx : s.handles[h]? with
    | none => rfl
    | some x =>
      by_cases hj : j = h
      · subst hj
        simp [InternalHandle.closeTimes]
        omega
      · simp [hj, List.count_cons_of_ne hj]

theorem Flagged.setHandles (h : s.Flagged parallelAccess) (handles : List InternalHandle) :
    Flagged parallelAccess { s with handles } := ⟨h.caches, h.files⟩

theorem Flagged.setCounters (h : s.Flagged parallelAccess) (counters : List InUseFileHandleCounter) :
    Flagged parallelAccess { s with counters } := ⟨h.caches, h.files⟩

theorem Flagged.closeAll (h : s.Flagged parallelAccess) (hs : List Nat) :
    (s.closeAll hs).Flagged parallelAccess := by
  obtain ⟨handles, hframe⟩ := closeAll_frame s hs
  rw [hframe]
  exact h.setHandles handles

theorem Flagged.destroyAll (h : s.Flagged parallelAccess) (hs : List Nat) :
    (hs.foldl destroyInternal s).Flagged parallelAccess := by
  induction hs generalizing s with
  | nil => exact h
  | cons j hs ih => exact ih (h.setHandles _)

theorem Flagged.setCache (h : s.Flagged parallelAccess) (r : Nat)
    (hc : ∀ kv ∈ c.items, parallelAccess ≤ kv.1.flags) :
    (s.setCache r c).Flagged parallelAccess := by
  refine ⟨fun d hd => ?_, h.files⟩
  rcases List.mem_or_eq_of_mem_set hd with hd | rfl
  · exact h.caches d hd
  · exact hc

theorem Flagged.shrinkCache (h : s.Flagged parallelAccess) (hc : s.caches[r]? = some c) (c' : FileHandleCache)
    (hsub : c'.items ⊆ c.items) : (s.setCache r c').Flagged parallelAccess :=
  h.setCache r fun kv hkv => h.caches c (List.mem_of_getElem? hc) kv (hsub hkv)

theorem Flagged.clear (h : s.Flagged parallelAccess) : s.clearFileHandleCache.Flagged parallelAccess := by
  unfold clearFileHandleCache
  split
  · exact h
  split
  · exact h
  next c hc =>
    have hcleared := (h.shrinkCache hc c.clearAndGetValues.2 (List.nil_subset _)).closeAll c.values
    exact ⟨hcleared.caches, hcleared.files⟩

theorem Flagged.clearPath (h : s.Flagged parallelAccess) (hi : Refs s) {filepath : String}
    (hs : s.clearFileHandleCachePath parallelAccess filepath = .ok s') : s'.Flagged parallelAccess := by
  unfold clearFileHandleCachePath at hs
  split at hs
  · cases hs
    exact h
  split at hs
  · cases hs
    exact h
  next c hc =>
    obtain ⟨gone, c', hrun, -, hitems, -⟩ := ExclusiveMultiLruCache.clearAndGetValuesFrom_spec
      (hi.caches c (List.mem_of_getElem? hc)) (cacheKey parallelAccess filepath 0) (·.path == filepath)
    rw [hrun] at hs
    cases hs
    exact (h.shrinkCache hc c' fun kv hkv => hitems.subset (List.mem_append_right _ hkv)).closeAll _

theorem Flagged.set (h : s.Flagged parallelAccess) : s.setFileHandleCache.Flagged parallelAccess := by
  have hnew : ∀ c ∈ s.caches ++ [newCache s.config], ∀ kv ∈ c.items, parallelAccess ≤ kv.1.flags := by
    intro c hc kv hkv
    rcases List.mem_append.mp hc with hc | hc
    · exact h.caches c hc kv hkv
    · rw [List.mem_singleton.mp hc] at hkv
      cases hkv
  unfold setFileHandleCache
  split
  · cases hr : s.fileHandleCache with
    | some r =>
      cases hq : s.inUseFileHandleCounter with
      | some q => simpa only [hq] using h
      | none => simpa only [hq] using ⟨h.caches, h.files⟩
    | none =>
      cases hq : s.inUseFileHandleCounter with
      | some q => simpa only [hq] using ⟨hnew, h.files⟩
      | none => simpa only [hq] using ⟨hnew, h.files⟩
  · exact h.clear

/-- A new handle takes a key with the flag along. -/
theorem Flagged.create (h : s.Flagged parallelAccess) (j : Nat) :
    (s.createCacheFileHandleForRead parallelAccess j).Flagged parallelAccess := by
  unfold createCacheFileHandleForRead
  split
  · exact h
  · refine ⟨h.caches, fun f hf => ?_⟩
    rcases List.mem_append.mp hf with hf | hf
    · exact h.files f hf
    · rw [List.mem_singleton.mp hf]
      exact Nat.right_le_or

theorem Flagged.openInternal (h : s.Flagged parallelAccess) (path : String) (flags : Nat) (opens : Bool) :
    (s.openInternal parallelAccess path flags opens).Flagged parallelAccess := by
  unfold HandleState.openInternal
  split
  · exact (h.setHandles _).create _
  · exact h

theorem Flagged.getOrCreate (h : s.Flagged parallelAccess) (hi : Refs s) {path : String} {flags now : Nat}
    {opens : Bool} (hs : s.getOrCreateFileHandleForRead parallelAccess path flags now opens = .ok s') :
    s'.Flagged parallelAccess := by
  unfold getOrCreateFileHandleForRead at hs
  split at hs
  · cases hs
    exact h.openInternal path flags opens
  split at hs
  · cases hs
  next c hc =>
    obtain ⟨evicted, target, c', hrun, -, hitems⟩ := ExclusiveMultiLruCache.getAndPop_spec
      (hi.caches c (List.mem_of_getElem? hc)) now (cacheKey parallelAccess path flags)
    rw [hrun] at hs
    have hset := (h.shrinkCache hc c' fun kv hkv => hitems.subset (List.mem_append_right _ hkv)).closeAll evicted
    cases target with
    | some j =>
      cases hs
      exact hset.create j
    | none =>
      dsimp only at hs
      split at hs
      · cases hs
      · cases hs
        exact hset.openInternal path flags opens

theorem Flagged.open (h : s.Flagged parallelAccess) (hi : Refs s) {path : String} {flags now : Nat} {opens : Bool}
    (hs : s.openFileExtended parallelAccess path flags now opens = .ok s') : s'.Flagged parallelAccess := by
  obtain ⟨t, ht, hs⟩ := except_bind_eq_ok.mp hs
  split at ht
  · obtain ⟨t', ht', hrefs⟩ := hi.set.clearPath parallelAccess path
    rw [ht'] at ht
    cases ht
    exact (h.set.clearPath hi.set ht').getOrCreate hrefs hs
  · cases ht
    exact h.set.getOrCreate hi.set hs

theorem Flagged.dropCache (h : s.Flagged parallelAccess) (r : Nat) : (s.dropCache r).Flagged parallelAccess := by
  unfold HandleState.dropCache
  split
  · exact h
  split
  · exact h
  next c hc => exact (h.shrinkCache hc c.clearAndGetValues.2 (List.nil_subset _)).destroyAll c.values

/-- The handle goes back under the key it took along. -/
theorem Flagged.destroy (h : s.Flagged parallelAccess) (hi : Refs s) {i now : Nat} {f : CacheFileSystemHandle}
    (hf : s.files[i]? = some f) (hs : s.destroyFile i f now = .ok s') : s'.Flagged parallelAccess := by
  have hflag := h.files f (List.mem_of_getElem? hf)
  have hdisowned : ((s.touch f.internal).disown i f).Flagged parallelAccess := by
    refine ⟨h.caches, fun g hg => ?_⟩
    rcases List.mem_or_eq_of_mem_set hg with hg | rfl
    · exact h.files g hg
    · exact hflag
  unfold destroyFile dtorCallback at hs
  split at hs
  · split at hs
    · cases hs
      exact hdisowned.setHandles _
    · cases hs
  next r _ =>
    split at hs
    next c q counter hc _ =>
      obtain ⟨evicted, c', hput, -, hitems⟩ := ExclusiveMultiLruCache.put_spec
        (hi.caches c (List.mem_of_getElem? hc)) now f.cacheKey f.internal
      rw [hput, ok_bind] at hs
      obtain ⟨counter', -, rfl⟩ := except_map_eq_ok.mp hs
      have hset : (((s.touch f.internal).disown i f).setCache r c').Flagged parallelAccess := by
        refine hdisowned.setCache r fun kv hkv => ?_
        rcases List.mem_cons.mp (hitems.subset (List.mem_append_right _ hkv)) with rfl | hkv
        · exact hflag
        · exact h.caches c (List.mem_of_getElem? hc) kv hkv
      exact ((hset.closeAll (evicted.map Prod.snd).toList).setCounters _).dropCache r
    next => cases hs

theorem mem_keysInRange_path {keys : List FileHandleCacheKey} (h : keys.Pairwise fun a b => compare a b = .lt)
    (hflag : ∀ k ∈ keys, parallelAccess ≤ k.flags) {f : String} {k : FileHandleCacheKey} :
    k ∈ keysInRange keys (cacheKey parallelAccess f 0) (·.path == f) ↔ k ∈ keys ∧ k.path = f := by
  refine mem_scan_of_first (·.path) (cacheKey parallelAccess f 0) h (fun a b hab => ?_) fun a ha hf => ?_
  · exact (Ordering.isLE_then_iff_and.mp hab).1
  · rw [FileHandleCacheKey.compare_def, hf, Std.ReflOrd.compare_self, Ordering.eq_then, Nat.isLE_compare,
      cacheKey,
      Nat.zero_or]
    exact hflag a ha

/-- What goes is what filtering the items would take out. -/
theorem clearAndGetValuesFrom_path (hok : c.OK) (hflag : ∀ kv ∈ c.items, parallelAccess ≤ kv.1.flags)
    (f : String) :
    ∃ gone c', c.clearAndGetValuesFrom (cacheKey parallelAccess f 0) (·.path == f) = .ok (gone, c') ∧
      gone.Perm ((c.items.filter (·.1.path == f)).map Prod.snd) ∧
        c'.items.Perm (c.items.filter (·.1.path != f)) := by
  obtain ⟨gone, c', hrun, -, hitems, hleft, hgone⟩ :=
    ExclusiveMultiLruCache.clearAndGetValuesFrom_spec hok (cacheKey parallelAccess f 0) (·.path == f)
  have hflag' : ∀ k ∈ c.entryMap.keys, parallelAccess ≤ k.flags := by
    intro k hk
    obtain ⟨es, hes⟩ := Option.isSome_iff_exists.mp (Std.TreeMap.mem_iff_isSome_getElem?.mp
      (Std.TreeMap.mem_keys.mp hk))
    cases es with
    | nil => exact absurd hes (hok.nonempty k)
    | cons e es =>
      have hitem : (k, e.value) ∈ c.items :=
        List.mem_map_of_mem (mem_entries.mpr ⟨e :: es, hes, List.mem_cons_self⟩)
      exact hflag _ hitem
  have hin : ∀ kv ∈ gone, kv.1.path = f := by
    intro kv hkv
    have hmatch := filter_of_mem_keysInRange (hgone kv hkv)
    exact beq_iff_eq.mp hmatch
  have hout : ∀ kv ∈ c'.items, kv.1.path ≠ f := by
    intro kv hkv hf
    obtain ⟨ke, hke, rfl⟩ := List.mem_map.mp hkv
    obtain ⟨es, hes, -⟩ := mem_entries.mp hke
    obtain ⟨hold, hnot⟩ := (hleft ke.1).mp (Std.TreeMap.mem_iff_isSome_getElem?.mpr
      (Option.isSome_of_eq_some hes))
    exact hnot ((mem_keysInRange_path Std.TreeMap.ordered_keys hflag').mpr ⟨Std.TreeMap.mem_keys.mpr hold, hf⟩)
  refine ⟨gone.map Prod.snd, c', hrun, ?_, ?_⟩
  · have hsplit := hitems.filter (·.1.path == f)
    rw [List.filter_append, List.filter_eq_self.mpr fun kv hkv => beq_iff_eq.mpr (hin kv hkv),
      List.filter_eq_nil_iff.mpr fun kv hkv => by simpa using hout kv hkv, List.append_nil] at hsplit
    exact hsplit.map Prod.snd
  · have hsplit := hitems.filter (·.1.path != f)
    rw [List.filter_append, List.filter_eq_nil_iff.mpr fun kv hkv => by simpa using hin kv hkv,
      List.filter_eq_self.mpr fun kv hkv => bne_iff_ne.mpr (hout kv hkv), List.nil_append] at hsplit
    exact hsplit

theorem liveItems_of_live (hr : s.fileHandleCache = some r) (hc : s.caches[r]? = some c) :
    s.liveItems = c.items := by
  simp [liveItems, hr, hc]

theorem WithoutPath.of_empty (h : s.liveItems = []) (f : String) : WithoutPath f s s := by
  refine ⟨by simp [h], fun j => ?_, s.caches, s.handles, rfl, fun _ _ => rfl⟩
  rw [h]
  cases hx : s.handles[j]? with
  | none => rfl
  | some x => simp

/-- A handle that goes is closed. -/
theorem Flagged.clearPath_exact (h : s.Flagged parallelAccess) (hi : Refs s) (f : String) :
    ∃ s', s.clearFileHandleCachePath parallelAccess f = .ok s' ∧ WithoutPath f s s' := by
  unfold clearFileHandleCachePath
  cases hr : s.fileHandleCache with
  | none => exact ⟨s, rfl, .of_empty (by simp [liveItems, hr]) f⟩
  | some r =>
    cases hc : s.caches[r]? with
    | none => exact ⟨s, by simp only [hc], .of_empty (by simp [liveItems, hr, hc]) f⟩
    | some c =>
      have hmem := List.mem_of_getElem? hc
      obtain ⟨gone, c', hrun, hgone, hitems⟩ := clearAndGetValuesFrom_path (hi.caches c hmem) (h.caches c hmem) f
      simp only [hc, hrun, Except.map]
      refine ⟨_, rfl, ?_, fun j => ?_, ?_⟩
      · have hself : ((s.setCache r c').closeAll gone).caches[r]? = some c' := by
          rw [closeAll_caches]
          exact (getElem?_set_iff hc).mpr (.inl ⟨rfl, rfl⟩)
        have hlive : ((s.setCache r c').closeAll gone).fileHandleCache = some r :=
          (closeAll_fileHandleCache _ _).trans hr
        rw [liveItems_of_live hlive hself, liveItems_of_live hr hc]
        exact hitems
      · rw [closeAll_handles, liveItems_of_live hr hc, hgone.count_eq]
        rfl
      · obtain ⟨handles, hframe⟩ := closeAll_frame (s.setCache r c') gone
        refine ⟨s.caches.set r c', handles, hframe, fun j hj => List.getElem?_set_ne fun he => hj ?_⟩
        exact hr.trans (congrArg some he)

theorem step_flagged {a : Act} (h : s.Flagged parallelAccess) (hi : Refs s)
    (hs : step parallelAccess s a = some s') :
    s'.Flagged parallelAccess := by
  cases a with
  | setConfig config =>
    cases hs
    exact ⟨h.caches, h.files⟩
  | «open» path flags now opens =>
    simp only [step] at hs
    split at hs
    · exact h.open hi (toOption_eq_some.mp hs)
    · cases hs
  | use i =>
    obtain ⟨f, -, hs⟩ := Option.bind_eq_some_iff.mp hs
    split at hs
    · cases hs
      exact h.setHandles _
    · cases hs
  | destroy i now =>
    obtain ⟨f, hf, hs⟩ := Option.bind_eq_some_iff.mp hs
    split at hs
    · exact h.destroy hi hf (toOption_eq_some.mp hs)
    · cases hs
  | clearFileHandleCache =>
    cases hs
    exact h.clear
  | clearFileHandleCachePath filepath => exact h.clearPath hi (toOption_eq_some.mp hs)
  | destroyFileSystem =>
    simp only [step] at hs
    split at hs
    · cases hs
      exact ⟨h.clear.caches, h.clear.files⟩
    · cases hs

theorem run_flagged {config : HandleConfig} {acts : List Act}
    (hrun : exec (step parallelAccess) { config } acts = some s) :
    s.Flagged parallelAccess ∧ Refs s :=
  exec_invariant (I := fun s => s.Flagged parallelAccess ∧ Refs s)
    (fun _ _ _ hi hs => ⟨step_flagged hi.1 hi.2 hs, step_refs hi.2 hs⟩) hrun
      ⟨⟨by simp, by simp⟩, Refs.init config⟩

end HandleState

/-! ## Clearing a file -/

/-- On each of the backends. -/
def DataCacheStorage.WithoutFile (f : String) : DataCacheStorage → DataCacheStorage → Prop
  | .extension s, .extension s' => ExtensionStorage.WithoutFile f s s'
  | .policy s, .policy s' => PolicyStorage.WithoutFile f s s'
  | .object s, .object s' => ObjectStorage.WithoutFile f s s'
  | _, _ => False

/-- **Clearing one file is exact**: after any run, whatever the calls that
raced in it, of the extension storage, of the policy storage and of the handle
cache. Of a quiet object cache storage it is for the paths whose keys are all
in step, which after a run in order are all paths. -/
theorem clearing_a_file_is_exact (f : String) (hash : PolicyHash) :
    (∀ (maxEntries timeoutMillisec : Nat) (acts : List ExtensionAct) (s : ExtensionStorage),
      exec extensionStep (newExtensionStorage maxEntries timeoutMillisec) acts = some s →
      DataCacheStorage.WithoutFile f (.extension s) (.clearFile hash f (.extension s))) ∧
    (∀ (maxBytes timeoutMillisec : Nat) (defaultPolicy : EvictionPolicyKind) (filePolicies : List SpecEntry)
      (s₀ : PolicyStorage), newPolicyStorage maxBytes timeoutMillisec defaultPolicy filePolicies = .ok s₀ →
      ∀ (acts : List PolicyAct) (s : PolicyStorage), exec policyStep s₀ acts = some s →
      DataCacheStorage.WithoutFile f (.policy s) (.clearFile hash f (.policy s))) ∧
    (∀ (timeoutMillisec : Nat) (acts : List ObjAct) (s : ObjRace),
      exec ObjRace.step { storage := { timeoutMillisec } } acts = some s → s.Quiescent →
      (DataCacheStorage.WithoutFile f (.object s.storage) (.clearFile hash f (.object s.storage)) ↔
        ∀ k, k.fname = f → s.storage.InStep k) ∧
      (Guarded ObjRace.step (fun s a => s.inOrder a = true) { storage := { timeoutMillisec } } acts →
        ∀ k, s.storage.InStep k)) ∧
    (∀ (parallelAccess : Nat) (config : HandleConfig) (acts : List HandleState.Act) (s : HandleState),
      exec (HandleState.step parallelAccess) { config } acts = some s →
      ∃ s', s.clearFileHandleCachePath parallelAccess f = .ok s' ∧ HandleState.WithoutPath f s s') := by
  refine ⟨fun maxEntries timeoutMillisec acts s hrun => ?_, fun _ _ _ _ s₀ hnew acts s hrun => ?_,
    fun timeoutMillisec acts s hrun hquiet => ⟨?_, fun hord k => ?_⟩, fun parallelAccess config acts s hrun => ?_⟩
  · have hok : s.lruCache.OK := exec_invariant (I := fun s => s.lruCache.OK)
      (fun _ _ _ h hs => ExtensionStorage.step_ok h hs) hrun
        (ExtensionStorage.OK.new maxEntries timeoutMillisec).1.lru
    exact ExtensionStorage.clearFile_exact hok f
  · have htracked : s.Tracked := exec_invariant (fun _ _ _ h hs => PolicyStorage.step_tracked h hs) hrun
      (PolicyStorage.new_tracked hnew)
    exact htracked.clearFile_exact hash f
  · have hnamed : s.Named :=
      exec_invariant (fun _ _ _ h hs => h.step hs) hrun (ObjRace.Named.init timeoutMillisec)
    exact hnamed.storage.clearFile_exact_iff hquiet.2.1 f
  · have hinv : ObjRace.Inv none s :=
      exec_guarded_invariant (fun _ _ _ h ho hs => h.step ho hs) hord hrun (ObjRace.Inv.init timeoutMillisec)
    exact (hinv.agreesAt hquiet k).inStep
  · obtain ⟨hflagged, hrefs⟩ := HandleState.run_flagged hrun
    exact hflagged.clearPath_exact hrefs f

/-- Handles of two paths, one a prefix of the other, go back into the cache. -/
def cachedHandles : List HandleState.Act :=
  [.open "f" 1 0 true, .open "f" 3 0 true, .open "fa" 1 0 true, .destroy 1 1, .destroy 0 2, .destroy 2 3]

theorem clearing_a_file_is_exact_replacing :
    (∃ s, exec ObjRace.step { storage := { timeoutMillisec := 0 } } replacingPuts = some s ∧ s.Quiescent ∧
      DataCacheStorage.WithoutFile "f" (.object s.storage) (.clearFile .inserted "f" (.object s.storage))) ∧
    ∃ s s', exec (HandleState.step 256) { config := ⟨true, 4, 0, false⟩ } cachedHandles = some s ∧
      s.liveItems = [(⟨"f", 257⟩, 0), (⟨"f", 259⟩, 1), (⟨"fa", 257⟩, 2)] ∧
        s.clearFileHandleCachePath 256 "f" = .ok s' ∧
      HandleState.WithoutPath "f" s s' := by
  obtain ⟨-, -, hobject, hhandles⟩ := clearing_a_file_is_exact "f" .inserted
  constructor
  · have hrun : (exec ObjRace.step { storage := { timeoutMillisec := 0 } } replacingPuts).map
        (fun s => decide s.Quiescent) = some true := by
      decide +kernel
    obtain ⟨s, hs, hquiet⟩ := Option.map_eq_some_iff.mp hrun
    rw [decide_eq_true_eq] at hquiet
    obtain ⟨hiff, hstep⟩ := hobject 0 replacingPuts s hs hquiet
    exact ⟨s, hs, hquiet, hiff.mpr fun k _ => hstep (by decide +kernel) k⟩
  · have hrun : (exec (HandleState.step 256) { config := ⟨true, 4, 0, false⟩ } cachedHandles).map (·.liveItems) =
        some [(⟨"f", 257⟩, 0), (⟨"f", 259⟩, 1), (⟨"fa", 257⟩, 2)] := by
      decide +kernel
    obtain ⟨s, hs, hitems⟩ := Option.map_eq_some_iff.mp hrun
    obtain ⟨s', hs', hwithout⟩ := hhandles 256 _ cachedHandles s hs
    exact ⟨s, s', hs, hitems, hs', hwithout⟩

/-- After the two overlapping `Put`s the metadata stays where the clear has dropped the block. -/
theorem clearing_a_file_leaves_metadata :
    ∃ s, exec ObjRace.step { storage := { timeoutMillisec := 0 } } overlappingPuts = some s ∧ s.Quiescent ∧
      (s.storage.clearFrom ⟨"f", 0, 0⟩ (·.fname == "f")).keys = [⟨"f", 0, 2⟩] ∧
      ∀ hash, ¬ DataCacheStorage.WithoutFile "f" (.object s.storage)
        (.clearFile hash "f" (.object s.storage)) := by
  have hrun : (exec ObjRace.step { storage := { timeoutMillisec := 0 } } overlappingPuts).map (fun s =>
      (decide s.Quiescent, (s.storage.clearFrom ⟨"f", 0, 0⟩ (·.fname == "f")).keys,
        ((s.storage.clearFrom ⟨"f", 0, 0⟩ (·.fname == "f")).entries[(⟨"f", 0, 2⟩ : InMemCacheBlock)]?).isSome)) =
          some (true, [⟨"f", 0, 2⟩], true) := by
    decide +kernel
  obtain ⟨s, hs, hfinal⟩ := Option.map_eq_some_iff.mp hrun
  simp only [Prod.mk.injEq, decide_eq_true_eq] at hfinal
  obtain ⟨hquiet, hkeys, hkept⟩ := hfinal
  refine ⟨s, hs, hquiet, hkeys, fun hash hexact => ?_⟩
  have hgone : (s.storage.clearFrom ⟨"f", 0, 0⟩
      (·.fname == "f")).entries[(⟨"f", 0, 2⟩ : InMemCacheBlock)]? = none :=
    hexact.entries ⟨"f", 0, 2⟩
  rw [hgone] at hkept
  cases hkept

end ReadCacheFs
