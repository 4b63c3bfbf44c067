/-
Pinned blocks: what `PinnedBlock::Data` gives while the pin is held.

A pin of the first two backends shares the entry it points at, and an entry
is never written to: operations only drop references. `ObjectCacheStorage`
is different: its `Take` moves the chunk out of every block the object
cache holds, pinned or not.
-/
import ReadCacheFs.RemapFacts
import ReadCacheFs.StorageContract

namespace ReadCacheFs

open Lib

inductive PinAct
  | op (a : StorageAct)
  | remap (env : RemapEnv) (newBlockSize : Nat)

/-- `RemapInMemoryDataBlocksForNewBlockSize` puts the rebuilt blocks back: the
calls it makes. -/
def RemapEnv.puts (env : RemapEnv) (rebuilt : List (InMemCacheBlock × InMemCacheDataEntry)) : List StorageAct :=
  rebuilt.map fun (key, entry) => .put (env.putNow key) (env.evicted key) key entry.data entry.versionTag

def pinStep (s : StorageRun) : PinAct → Option StorageRun
  | .op a => storageStep s a
  | .remap env newBlockSize =>
    match s.storage.take env.clock env.policyHash with
    | .error _ => none
    | .ok (taken, storage) =>
      let s' := { s with storage, log := s.log ++ [.take] }
      let rebuilt := remapInMemCacheEntries env.page env.fileHash (taken.map fun (k, e) => (k, some e)) newBlockSize ∅
      match rebuilt with
      | .error _ => some s'
      | .ok rebuilt => exec storageStep s' (env.puts rebuilt)

/-- The blocks `Take` moves the chunk out of. -/
def DataCacheStorage.drains : DataCacheStorage → List Nat
  | .object s => s.objCache.entries.map (·.2)
  | _ => []

/-- A `Take` or a remap comes only when it drains no pinned block. -/
def DrainsNoPin (s : StorageRun) : PinAct → Prop
  | .op (.take ..) | .remap .. => ∀ pin ∈ s.pins, pin.1 ∉ s.storage.drains
  | _ => True

/-- Every pin still gives what it gave when `Get` returned it. -/
def PinsKept (s : StorageRun) : Prop := ∀ pin ∈ s.pins, s.storage.chunk? pin.1 = some pin.2

/-! ## What the operations do to the chunks -/

namespace DataCacheStorage

variable {s s' : DataCacheStorage} {p : Nat} {d : PageAlignedDataChunk}

/-- Entries and blocks are only ever added. -/
theorem put_chunk? (hs : s.OK) {now : Nat} {evicted : List String} {key : InMemCacheBlock}
    {chunk : PageAlignedDataChunk} {tag : String} (hp : s.put now evicted key chunk tag = .ok s')
    (hd : s.chunk? p = some d) : s'.chunk? p = some d := by
  have happ : ∀ {α : Type} {f : α → PageAlignedDataChunk} {l l' : List α}, (l[p]?).map f = some d →
      ((l ++ l')[p]?).map f = some d := by
    intro α f l l' h
    obtain ⟨x, hx, rfl⟩ := Option.map_eq_some_iff.mp h
    rw [List.getElem?_append_left (List.getElem?_eq_some_iff.mp hx).1, hx]
    rfl
  cases s with
  | extension s =>
    cases hp
    exact happ hd
  | policy s =>
    cases hp
    obtain ⟨_, hm, _⟩ := PolicyStorage.put_moves hs now key chunk tag
    rw [chunk?, hm.heap]
    exact happ hd
  | object s =>
    cases hput : s.put now evicted key chunk tag with
    | error f => simp [put, hput, Except.map] at hp
    | ok t =>
      simp only [put, hput, Except.map, Except.ok.injEq] at hp
      subst hp
      rw [chunk?, (ObjectStorage.put_spec hs hput).2.2.1]
      exact happ hd

theorem get_chunk? (now : Nat) (key : InMemCacheBlock) (tag : String) (hs : s.OK) :
    (s.get now key tag).2.chunk? p = s.chunk? p := by
  cases s with
  | extension s =>
    simp only [get, chunk?, (s.get_heap now key tag).1]
  | policy s =>
    simp only [get, chunk?, (PolicyStorage.get_moves hs now key tag).heap, List.append_nil]
  | object s =>
    have hb : (s.get now key tag).2.blocks = s.blocks := by
      unfold ObjectStorage.get
      split
      · rfl
      split
      · exact ObjectStorage.objCacheDelete_blocks s _
      split <;> rfl
    simp only [get, chunk?, hb]

theorem delete_chunk? (key : InMemCacheBlock) (hs : s.OK) : (s.delete key).2.chunk? p = s.chunk? p := by
  cases s with
  | extension s => rfl
  | policy s => simp only [delete, chunk?, (PolicyStorage.delete_moves hs key).heap, List.append_nil]
  | object s => simp only [delete, chunk?, (ObjectStorage.delete_spec hs key).2.1]

theorem clear_chunk? (s : DataCacheStorage) : s.clear.chunk? p = s.chunk? p := by
  cases s with
  | extension s => rfl
  | policy s => rfl
  | object s => simp only [clear, chunk?, ObjectStorage.clear, ObjectStorage.objCacheDeleteAll_blocks]

theorem clearFile_chunk? (hash : PolicyHash) (fname : String) :
    (s.clearFile hash fname).chunk? p = s.chunk? p := by
  cases s with
  | extension s => rfl
  | policy s => rfl
  | object s =>
    simp only [clearFile, clearFrom, chunk?, ObjectStorage.clearFrom, ObjectStorage.objCacheDeleteAll_blocks]

theorem evict_chunk? (objCacheKey : String) : (s.evict objCacheKey).chunk? p = s.chunk? p := by
  cases s with
  | extension s => rfl
  | policy s => rfl
  | object s => simp only [evict, chunk?, ObjectStorage.objCacheDelete_blocks]

theorem release_chunk? (q : Nat) : (s.release q).chunk? p = s.chunk? p := by
  cases s with
  | extension s => rfl
  | policy s => rfl
  | object s =>
    simp only [release, chunk?, ObjectStorage.release]
    rw [ObjectStorage.dropReference_eq]

end DataCacheStorage

/-- `Take` leaves a block alone that the object cache does not hold. -/
theorem ObjectStorage.takeLoop_blocks {p : Nat} :
    ∀ (l : List (InMemCacheBlock × EntryMeta)) {s : ObjectStorage}, s.OK →
    (∀ o, s.objCache.lookup o ≠ some p) → (takeLoop l s).2.blocks[p]? = s.blocks[p]?
  | [], s, _, _ => rfl
  | (key, m) :: rest, s, hs, hp => by
    rw [takeLoop]
    split
    next => exact takeLoop_blocks rest hs hp
    next b block hb =>
      obtain ⟨b', hb', hblock⟩ := Option.bind_eq_some_iff.mp hb
      obtain ⟨_, _, hpair⟩ := Option.map_eq_some_iff.mp hblock
      obtain ⟨rfl, _⟩ := Prod.mk.inj hpair
      have hne : b' ≠ p := fun he => hp m.objCacheKey (he ▸ hb')
      have hshed := drain_sheds hs hb'
      have hrec := takeLoop_blocks rest (hshed.ok hs) fun o ho => hp o (hshed.objCache o p ho)
      refine hrec.trans ?_
      rw [objCacheDelete_blocks, moveOut, List.getElem?_modify_ne _ _ hne]

theorem DataCacheStorage.take_chunk? {s s' : DataCacheStorage} (hs : s.OK) {clock : Nat → Nat} {hash : PolicyHash}
    {taken : List (InMemCacheBlock × InMemCacheDataEntry)} (ht : s.take clock hash = .ok (taken, s')) {p : Nat}
    (hp : p ∉ s.drains) : s'.chunk? p = s.chunk? p := by
  cases s with
  | extension s =>
    obtain ⟨_, t, htake, _, _, hheap, _⟩ := ExtensionStorage.take_spec hs clock
    simp only [take, htake, Except.map, Except.ok.injEq, Prod.mk.injEq] at ht
    obtain ⟨_, rfl⟩ := ht
    simp only [chunk?, hheap]
  | policy s =>
    cases ht
    rfl
  | object s =>
    cases ht
    have hnot : ∀ o, s.objCache.lookup o ≠ some p := by
      intro o ho
      exact hp (List.mem_map.mpr ⟨⟨o, p⟩, AList.mem_lookup_iff.mp ho, rfl⟩)
    simp only [chunk?, ObjectStorage.takeLoop_blocks _ hs hnot]

/-! ## Runs -/

/-- The storage is in order and every pin is kept. -/
structure PinsOK (s : StorageRun) : Prop where
  ok : s.storage.OK
  kept : PinsKept s

theorem storageStep_pins {s s' : StorageRun} {a : StorageAct} (h : PinsOK s) (hg : DrainsNoPin s (.op a))
    (hs : storageStep s a = some s') : PinsOK s' := by
  cases a with
  | put now evicted key chunk tag =>
    simp only [storageStep] at hs
    split at hs
    next hc =>
      split at hs
      next storage hp =>
        cases hs
        exact ⟨(DataCacheStorage.put_spec h.ok hp).1, fun pin hm => DataCacheStorage.put_chunk? h.ok hp
          (h.kept pin hm)⟩
      next => cases hs
    next => cases hs
  | get now key tag =>
    simp only [storageStep] at hs
    split at hs
    next hc =>
      obtain ⟨hl, hr⟩ := DataCacheStorage.get_spec h.ok now key tag
      have hsame : ∀ p, (s.storage.get now key tag).2.chunk? p = s.storage.chunk? p := fun p =>
        DataCacheStorage.get_chunk? now key tag h.ok
      split at hs
      next storage hget =>
        cases hs
        rw [hget] at hl hsame
        exact ⟨hl.ok, fun pin hm => (hsame pin.1).trans (h.kept pin hm)⟩
      next p storage hget =>
        cases hs
        rw [hget] at hl hr hsame
        obtain ⟨x, _, hd, _⟩ := hr
        refine ⟨hl.ok, fun pin hm => ?_⟩
        rcases List.mem_cons.mp hm with rfl | hm
        · change storage.chunk? p = some (storage.pinnedData p)
          rw [DataCacheStorage.pinnedData, hd]
          rfl
        · exact (hsame pin.1).trans (h.kept pin hm)
    next => cases hs
  | delete key =>
    cases hs
    exact ⟨(DataCacheStorage.delete_spec h.ok key).1.ok, fun pin hm =>
      (DataCacheStorage.delete_chunk? key h.ok).trans (h.kept pin hm)⟩
  | clear =>
    cases hs
    exact ⟨(DataCacheStorage.clear_spec h.ok).1.ok, fun pin hm => s.storage.clear_chunk?.trans (h.kept pin hm)⟩
  | clearFile hash fname =>
    cases hs
    exact ⟨(DataCacheStorage.clearFile_spec h.ok hash fname).1.ok, fun pin hm =>
      (DataCacheStorage.clearFile_chunk? hash fname).trans (h.kept pin hm)⟩
  | take clock hash =>
    obtain ⟨taken, storage, htake, hl, _⟩ := DataCacheStorage.take_spec h.ok clock hash
    simp only [storageStep, htake] at hs
    cases hs
    exact ⟨hl.ok, fun pin hm => (DataCacheStorage.take_chunk? h.ok htake (hg pin hm)).trans (h.kept pin hm)⟩
  | evict objCacheKey =>
    cases hs
    exact ⟨(DataCacheStorage.evict_spec h.ok objCacheKey).ok, fun pin hm =>
      (DataCacheStorage.evict_chunk? objCacheKey).trans (h.kept pin hm)⟩
  | release i =>
    obtain ⟨pin, _, rfl⟩ := Option.map_eq_some_iff.mp hs
    exact ⟨(DataCacheStorage.release_spec h.ok pin.1).ok, fun pin' hm =>
      (DataCacheStorage.release_chunk? pin.1).trans (h.kept pin' (List.mem_of_mem_eraseIdx hm))⟩

theorem pinStep_pins {s s' : StorageRun} {a : PinAct} (h : PinsOK s) (hg : DrainsNoPin s a)
    (hs : pinStep s a = some s') : PinsOK s' := by
  cases a with
  | op a => exact storageStep_pins h hg hs
  | remap env newBlockSize =>
    obtain ⟨taken, storage, htake, hl, _⟩ := DataCacheStorage.take_spec h.ok env.clock env.policyHash
    simp only [pinStep, htake] at hs
    have h' : PinsOK { s with storage, log := s.log ++ [.take] } :=
      ⟨hl.ok, fun pin hm => (DataCacheStorage.take_chunk? h.ok htake (hg pin hm)).trans (h.kept pin hm)⟩
    split at hs
    · cases hs
      exact h'
    next rebuilt hrebuilt =>
      -- What follows the drain is a run of `Put`s, which the condition does not restrict.
      refine exec_guarded_invariant (G := fun s a => DrainsNoPin s (.op a))
        (fun _ _ _ => storageStep_pins) ?_ hs h'
      clear hs hrebuilt
      generalize ({ s with storage, log := s.log ++ [.take] } : StorageRun) = t
      induction rebuilt generalizing t with
      | nil => trivial
      | cons kv rest ih => exact ⟨trivial, fun t' _ => ih t'⟩

/-- **Pins are kept unless a `Take` drains them.** In every run of any
backend in which no `Take` and no remap comes while an object cache block
it drains is pinned, `Data()` of every live pin is what it was when `Get`
returned it. -/
theorem pinned_data_kept (mode : StorageMode) (maxEntries timeoutMillisec : Nat)
    (policyOptions : PolicyStorageOptions) (storage : DataCacheStorage)
    (hbuild : buildInMemoryDataCacheStorage mode maxEntries timeoutMillisec policyOptions = .ok storage)
    (as : List PinAct) (s : StorageRun) (hx : exec pinStep { storage } as = some s)
    (hg : Guarded pinStep DrainsNoPin { storage } as) : ∀ pin ∈ s.pins, s.storage.pinnedData pin.1 = pin.2 :=
  by
  have h₀ : PinsOK { storage } := ⟨(DataCacheStorage.build_spec hbuild).1, fun pin hm => by simp at hm⟩
  intro pin hm
  rw [DataCacheStorage.pinnedData, (exec_guarded_invariant (fun _ _ _ => pinStep_pins) hg hx h₀).kept pin hm]
  rfl

instance (s : StorageRun) (a : PinAct) : Decidable (DrainsNoPin s a) :=
  match a with
  | .op (.take ..) | .remap .. => inferInstanceAs (Decidable (∀ pin ∈ s.pins, _))
  | .op (.put ..) | .op (.get ..) | .op (.delete _) | .op .clear | .op (.clearFile ..) | .op (.evict _)
  | .op (.release _) => .isTrue trivial

/-- A pin held while its key is put again and everything is cleared. -/
def keptPinActs : List PinAct :=
  [.op (.put 0 [] ⟨"f", 0, 2⟩ ⟨some [1, 2], 2, 4⟩ ""), .op (.get 1 ⟨"f", 0, 2⟩ ""),
    .op (.put 2 [] ⟨"f", 0, 2⟩ ⟨some [3, 4], 2, 4⟩ ""), .op .clear, .op (.take id .inserted)]

theorem pinned_data_kept_cleared :
    ∃ storage s, buildInMemoryDataCacheStorage .object 0 0 ⟨0, .lru, []⟩ = .ok storage ∧
      exec pinStep { storage } keptPinActs = some s ∧ s.pins = [(0, ⟨some [1, 2], 2, 4⟩)] ∧
      ∀ pin ∈ s.pins, s.storage.pinnedData pin.1 = pin.2 := by
  obtain ⟨storage, hbuild, hrun, hg⟩ : ∃ storage,
      buildInMemoryDataCacheStorage .object 0 0 ⟨0, .lru, []⟩ = .ok storage ∧
      (exec pinStep { storage } keptPinActs).map (·.pins) = some [(0, ⟨some [1, 2], 2, 4⟩)] ∧
      Guarded pinStep DrainsNoPin { storage } keptPinActs :=
    ⟨_, rfl, by decide +kernel, by decide +kernel⟩
  obtain ⟨s, hs, hpins⟩ := Option.map_eq_some_iff.mp hrun
  exact ⟨storage, s, hbuild, hs, hpins, pinned_data_kept .object 0 0 _ storage hbuild keptPinActs s hs hg⟩

/-- A block-size change, or any `Take`, while a block is pinned. -/
def drainedPinActs : List PinAct :=
  [.op (.put 0 [] ⟨"f", 0, 2⟩ ⟨some [1, 2], 2, 4⟩ ""), .op (.get 1 ⟨"f", 0, 2⟩ ""), .op (.take id .inserted)]

/-- The pin of a drained block keeps its length and loses its bytes. -/
theorem take_drains_pinned :
    ∃ storage s, buildInMemoryDataCacheStorage .object 0 0 ⟨0, .lru, []⟩ = .ok storage ∧
      exec pinStep { storage } drainedPinActs = some s ∧
      ∃ pin ∈ s.pins, pin.2.bytes = [1, 2] ∧ (s.storage.pinnedData pin.1).bytes = [] ∧
        (s.storage.pinnedData pin.1).length = pin.2.length := by
  obtain ⟨storage, hbuild, hrun⟩ : ∃ storage,
      buildInMemoryDataCacheStorage .object 0 0 ⟨0, .lru, []⟩ = .ok storage ∧
      (exec pinStep { storage } drainedPinActs).map (fun s => (s.pins, s.storage.pinnedData 0)) =
        some ([(0, ⟨some [1, 2], 2, 4⟩)], ⟨none, 2, 4⟩) :=
    ⟨_, rfl, by decide +kernel⟩
  obtain ⟨s, hs, hpins⟩ := Option.map_eq_some_iff.mp hrun
  obtain ⟨hpins, hdata⟩ := Prod.mk.inj hpins
  refine ⟨storage, s, hbuild, hs, (0, ⟨some [1, 2], 2, 4⟩), by rw [hpins]; simp, rfl, ?_, ?_⟩
  · rw [hdata]
    rfl
  · rw [hdata]

end ReadCacheFs
