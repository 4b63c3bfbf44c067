/-
`InMemoryDataCacheStorage`: the three backends behind one interface.

What no backend decides itself is an argument: readings of the steady
clock, in nanoseconds, the order a hash map is iterated in, and what the
object cache drops while it takes a block in.
-/
import ReadCacheFs.ExtensionStorage
import ReadCacheFs.Lib.Runs
import ReadCacheFs.ObjectStorage
import ReadCacheFs.PolicyContents
import ReadCacheFs.Remap

namespace ReadCacheFs

open Lib

inductive DataCacheStorage
  | extension (s : ExtensionStorage)
  | policy (s : PolicyStorage)
  | object (s : ObjectStorage)

/-- The setting `cache_httpfs_in_mem_cache_storage`. -/
inductive StorageMode
  | extension
  | policy
  | object
  deriving DecidableEq, Repr

/-- `PolicyStorageOptions`, its spec parsed. -/
structure PolicyStorageOptions where
  maxBytes : Nat := 0
  evictionPolicy : EvictionPolicyKind
  filePolicies : List SpecEntry := []
  deriving DecidableEq, Repr

/-- `BuildInMemoryDataCacheStorage` without policy options, which makes no policy storage. -/
def buildPlainStorage (mode : StorageMode) (maxEntries timeoutMillisec : Nat) : DataCacheStorage :=
  match mode with
  | .object => .object { timeoutMillisec }
  | .extension | .policy => .extension (newExtensionStorage maxEntries timeoutMillisec)

def buildInMemoryDataCacheStorage (mode : StorageMode) (maxEntries timeoutMillisec : Nat)
    (policyOptions : PolicyStorageOptions) : Except Fault DataCacheStorage :=
  match mode with
  | .policy => (newPolicyStorage policyOptions.maxBytes timeoutMillisec policyOptions.evictionPolicy
      policyOptions.filePolicies).map .policy
  | .extension | .object => .ok (buildPlainStorage mode maxEntries timeoutMillisec)

abbrev PolicyHash := HashOrder (Σ _ : InMemCacheBlock, PolicyEntry)

/-- What the remap meets on its way: iteration orders of hash maps, readings
of the clock, and for each block put back what the object cache drops. -/
structure RemapEnv where
  page : Nat
  fileHash : HashOrder (Σ _ : String, Std.TreeMap Nat CachedSlice)
  policyHash : PolicyHash
  clock : Nat → Nat
  putNow : InMemCacheBlock → Nat
  evicted : InMemCacheBlock → List String

namespace DataCacheStorage

def timeoutMillisec : DataCacheStorage → Nat
  | .extension s => s.timeoutMillisec
  | .policy s => s.timeoutMillisec
  | .object s => s.timeoutMillisec

def put (now : Nat) (evicted : List String) (key : InMemCacheBlock) (chunk : PageAlignedDataChunk)
    (versionTag : String) : DataCacheStorage → Except Fault DataCacheStorage
  | .extension s => .ok (.extension (s.put now key chunk versionTag))
  | .policy s => .ok (.policy (s.put now key chunk versionTag))
  | .object s => (s.put now evicted key chunk versionTag).map .object

def get (now : Nat) (key : InMemCacheBlock) (expectedVersionTag : String) :
    DataCacheStorage → Option Nat × DataCacheStorage
  | .extension s => let (p, s') := s.get now key expectedVersionTag; (p, .extension s')
  | .policy s => let (p, s') := s.get now key expectedVersionTag; (p, .policy s')
  | .object s => let (p, s') := s.get now key expectedVersionTag; (p, .object s')

def delete (key : InMemCacheBlock) : DataCacheStorage → Bool × DataCacheStorage
  | .extension s => let (found, s') := s.delete key; (found, .extension s')
  | .policy s => let (found, s') := s.delete key; (found, .policy s')
  | .object s => let (found, s') := s.delete key; (found, .object s')

def clear : DataCacheStorage → DataCacheStorage
  | .extension s => .extension s.clear
  | .policy s => .policy s.clear
  | .object s => .object s.clear

/-- `Clear(start_key, filter)`. -/
def clearFrom (hash : PolicyHash) (startKey : InMemCacheBlock) (filter : InMemCacheBlock → Bool) :
    DataCacheStorage → DataCacheStorage
  | .extension s => .extension (s.clearFrom startKey filter)
  | .policy s => .policy (s.clearFrom hash startKey filter)
  | .object s => .object (s.clearFrom startKey filter)

/-- How the readers clear one file. -/
def clearFile (hash : PolicyHash) (fname : String) : DataCacheStorage → DataCacheStorage :=
  clearFrom hash ⟨fname, 0, 0⟩ (·.fname == fname)

def keys (hash : PolicyHash) : DataCacheStorage → List InMemCacheBlock
  | .extension s => s.keys
  | .policy s => s.keys hash
  | .object s => s.keys

/-- The entries pointers lead to. -/
def deref (heap : DataHeap) (taken : List (InMemCacheBlock × Nat)) :
    List (InMemCacheBlock × InMemCacheDataEntry) :=
  taken.filterMap fun (k, p) => (heap[p]?).map (k, ·)

def take (clock : Nat → Nat) (hash : PolicyHash) :
    DataCacheStorage → Except Fault (List (InMemCacheBlock × InMemCacheDataEntry) × DataCacheStorage)
  | .extension s => (s.take clock).map fun (taken, s') => (deref s'.heap taken, .extension s')
  | .policy s => let (taken, s') := s.take hash; .ok (deref s'.heap taken, .policy s')
  | .object s => let (taken, s') := s.take; .ok (taken, .object s')

def chunk? (p : Nat) : DataCacheStorage → Option PageAlignedDataChunk
  | .extension s => (s.heap[p]?).map (·.data)
  | .policy s => (s.heap[p]?).map (·.data)
  | .object s => (s.blocks[p]?).map (·.data)

def pinnedData (p : Nat) (s : DataCacheStorage) : PageAlignedDataChunk := (s.chunk? p).getD {}

/-- A `PinnedBlock` is destroyed. -/
def release (p : Nat) : DataCacheStorage → DataCacheStorage
  | .object s => .object (s.release p)
  | s => s

def evict (objCacheKey : String) : DataCacheStorage → DataCacheStorage
  | .object s => .object (s.objCacheDelete objCacheKey)
  | s => s

/-- `RemapInMemoryDataBlocksForNewBlockSize`: everything is taken out, and the
blocks rebuilt from it are put back. -/
def remapForNewBlockSize (env : RemapEnv) (newBlockSize : Nat) (s : DataCacheStorage) :
    Except Fault DataCacheStorage := do
  let (taken, s) ← s.take env.clock env.policyHash
  let rebuilt ← remapInMemCacheEntries env.page env.fileHash (taken.map fun (k, e) => (k, some e)) newBlockSize ∅
  rebuilt.foldlM (fun s (k, e) => s.put (env.putNow k) (env.evicted k) k e.data e.versionTag) s

/-! ## One contract -/

def OK : DataCacheStorage → Prop
  | .extension s => s.OK
  | .policy s => s.Routed
  | .object s => s.OK

def resident (k : InMemCacheBlock) : DataCacheStorage → Option HeldBlock
  | .extension s => s.resident k
  | .policy s => s.resident k
  | .object s => s.resident k

/-- `Put` refuses a block of this many bytes for this path. -/
def Refuses (fname : String) (bytes : Nat) : DataCacheStorage → Prop
  | .policy s => s.Refuses fname bytes
  | _ => False

/-- `Take` returns a block held: the extension's leaves out what it finds
expired, the other two return whatever is there. -/
def HandsOver (clock : Nat → Nat) (x : HeldBlock) : DataCacheStorage → Prop
  | .extension s => ∃ j, ¬(0 < s.timeoutMillisec ∧
    s.timeoutMillisec < u64Sub (steadyMillis (clock j)) x.putMillis)
  | _ => True

/-- Nothing happens but that blocks are no longer held. -/
structure Loses (s s' : DataCacheStorage) : Prop where
  ok : s'.OK
  held : ∀ k x, s'.resident k = some x → s.resident k = some x
  refuses : ∀ fname bytes, s'.Refuses fname bytes → s.Refuses fname bytes
  timeout : s'.timeoutMillisec = s.timeoutMillisec

theorem Loses.refl {s : DataCacheStorage} (h : s.OK) : Loses s s := ⟨h, fun _ _ h => h, fun _ _ h => h, rfl⟩

theorem Loses.extension {s s' : ExtensionStorage} (hok : s'.OK)
    (hheld : ∀ k x, s'.resident k = some x → s.resident k = some x)
    (ht : s'.timeoutMillisec = s.timeoutMillisec) :
    Loses (.extension s) (.extension s') := ⟨hok, hheld, fun _ _ h => h.elim, ht⟩

theorem Loses.policy {s s' : PolicyStorage} (hs : s.Routed) (h : PolicyStorage.Moves s s' []) :
    Loses (.policy s) (.policy s') := ⟨h.routed hs, fun _ _ => h.resident, fun _ _ => h.refuses,
      h.timeoutMillisec⟩

theorem Loses.object {s s' : ObjectStorage} (hs : s.OK) (h : ObjectStorage.Sheds s s') :
    Loses (.object s) (.object s') := ⟨h.ok hs, fun _ _ => h.resident, fun _ _ h => h.elim, h.timeoutMillisec⟩

variable {s s' : DataCacheStorage} {key : InMemCacheBlock}

/-- After a `Put` a key holds what was put, or what it held: the key put
only if the block was refused. -/
theorem put_spec (hs : s.OK) {now : Nat} {evicted : List String} {chunk : PageAlignedDataChunk}
    {versionTag : String} (hp : s.put now evicted key chunk versionTag = .ok s') :
    s'.OK ∧ s'.timeoutMillisec = s.timeoutMillisec ∧
      (∀ fname bytes, s'.Refuses fname bytes → s.Refuses fname bytes) ∧
      ∀ k x, s'.resident k = some x →
        (k = key ∧ x = ⟨chunk, versionTag, steadyMillis now⟩ ∧ ¬ s.Refuses key.fname (chargedBytes chunk)) ∨
          (s.resident k = some x ∧ (k = key → s.Refuses key.fname (chargedBytes chunk))) := by
  cases s with
  | extension s =>
    cases hp
    obtain ⟨hok, hres⟩ := ExtensionStorage.put_spec hs now key chunk versionTag
    refine ⟨hok, SharedValueLruCache.put_timeout _ _ _ _, fun _ _ h => h.elim, fun k x hx => ?_⟩
    rcases hres k x hx with ⟨hk, he⟩ | ⟨hk, hold⟩
    · exact .inl ⟨hk, he, fun h => h.elim⟩
    · exact .inr ⟨hold, fun he => absurd he hk⟩
  | policy s =>
    cases hp
    obtain ⟨_, hm, _⟩ := PolicyStorage.put_moves hs now key chunk versionTag
    exact ⟨hm.routed hs, hm.timeoutMillisec, fun _ _ => hm.refuses, fun _ _ => PolicyStorage.put_resident hs⟩
  | object s =>
    cases hput : s.put now evicted key chunk versionTag with
    | error f => simp [put, hput, Except.map] at hp
    | ok t =>
      simp only [put, hput, Except.map, Except.ok.injEq] at hp
      subst hp
      obtain ⟨hok, hres, _, ht⟩ := ObjectStorage.put_spec hs hput
      refine ⟨hok, ht, fun _ _ h => h.elim, fun k x hx => ?_⟩
      rcases hres k x hx with ⟨hk, he⟩ | ⟨hk, hold⟩
      · exact .inl ⟨hk, he, fun h => h.elim⟩
      · exact .inr ⟨hold, fun he => absurd he hk⟩

/-- A hit pins the block held, which serves the lookup if it was put in the
past; after a miss nothing is held. -/
theorem get_spec (hs : s.OK) (now : Nat) (key : InMemCacheBlock) (tag : String) :
    Loses s (s.get now key tag).2 ∧ match (s.get now key tag).1 with
      | some p => ∃ x, s.resident key = some x ∧ (s.get now key tag).2.chunk? p = some x.data ∧
          (now < clockLimit → x.putMillis ≤ steadyMillis now → x.Serves s.timeoutMillisec now tag)
      | none => (s.get now key tag).2.resident key = none := by
  cases s with
  | extension s =>
    obtain ⟨hok, hheld, hr⟩ := ExtensionStorage.get_spec hs now key tag
    obtain ⟨hheap, ht⟩ := s.get_heap now key tag
    refine ⟨.extension hok hheld ht, ?_⟩
    simp only [get, chunk?, hheap]
    cases hp : (s.get now key tag).1 with
    | some p =>
      rw [hp] at hr
      obtain ⟨x, hx, hd, hserves⟩ := hr
      exact ⟨x, hx, by rw [hd]; rfl, hserves⟩
    | none =>
      rw [hp] at hr
      exact hr
  | policy s =>
    have hm := PolicyStorage.get_moves hs now key tag
    have hr := PolicyStorage.get_spec hs now key tag
    refine ⟨.policy hs hm, ?_⟩
    simp only [get, chunk?, hm.heap, List.append_nil]
    cases hp : (s.get now key tag).1 with
    | some p =>
      rw [hp] at hr
      obtain ⟨x, hx, hd, hserves⟩ := hr
      exact ⟨x, hx, by rw [hd]; rfl, hserves⟩
    | none =>
      rw [hp] at hr
      exact hr
  | object s =>
    obtain ⟨hshed, hblocks, hr⟩ := ObjectStorage.get_spec hs now key tag
    refine ⟨.object hs hshed, ?_⟩
    simp only [get, chunk?, hblocks]
    exact hr

theorem delete_spec (hs : s.OK) (key : InMemCacheBlock) :
    Loses s (s.delete key).2 ∧ (s.delete key).2.resident key = none := by
  cases s with
  | extension s =>
    obtain ⟨hok, hn, hheld⟩ := ExtensionStorage.delete_spec hs key
    exact ⟨.extension hok hheld (SharedValueLruCache.delete_timeout _ _), hn⟩
  | policy s => exact ⟨.policy hs (PolicyStorage.delete_moves hs key), PolicyStorage.delete_resident hs key⟩
  | object s =>
    obtain ⟨hshed, _, hn⟩ := ObjectStorage.delete_spec hs key
    exact ⟨.object hs hshed, hn⟩

theorem clear_spec (hs : s.OK) : Loses s s.clear ∧ ∀ k, s.clear.resident k = none := by
  cases s with
  | extension s =>
    obtain ⟨hok, hn⟩ := s.clear_spec
    refine ⟨.extension hok (fun k x hx => ?_) rfl, hn⟩
    rw [hn k] at hx
    cases hx
  | policy s => exact ⟨.policy hs s.clear_moves, s.clear_resident⟩
  | object s => exact ⟨.object hs (ObjectStorage.objCacheDeleteAll_sheds _ s), ObjectStorage.clear_resident hs⟩

theorem clearFile_spec (hs : s.OK) (hash : PolicyHash) (fname : String) :
    Loses s (s.clearFile hash fname) ∧ ∀ k, k.fname = fname → (s.clearFile hash fname).resident k = none := by
  cases s with
  | extension s =>
    obtain ⟨hok, _, hheld⟩ := ExtensionStorage.clearFrom_spec hs ⟨fname, 0, 0⟩ (·.fname == fname)
    exact ⟨.extension hok hheld (SharedValueLruCache.clearFrom_timeout _ _ _),
      fun k hk => ExtensionStorage.clearFile_spec hs hk⟩
  | policy s =>
    exact ⟨.policy hs (s.clearFrom_moves hash _ _), fun k hk => s.clearFrom_resident hash _ (beq_iff_eq.mpr hk)⟩
  | object s =>
    exact ⟨.object hs (ObjectStorage.objCacheDeleteAll_sheds _ s), fun k hk => ObjectStorage.clearFile_spec hs hk⟩

/-- A per-file clear leaves the other files alone. -/
theorem clearFile_keeps (hs : s.OK) (hash : PolicyHash) {fname : String} {k : InMemCacheBlock}
    (hk : k.fname ≠ fname) :
    (s.clearFile hash fname).resident k = s.resident k := by
  have hf : (k.fname == fname) = false := beq_eq_false_iff_ne.mpr hk
  cases s with
  | extension s => exact ExtensionStorage.clearFrom_keeps hs _ hf
  | policy s => exact s.clearFrom_keeps hash _ hf
  | object s => exact ObjectStorage.clearFrom_keeps hs _ hf

theorem release_spec (hs : s.OK) (p : Nat) : Loses s (s.release p) := by
  cases s with
  | extension s => exact .refl hs
  | policy s => exact .refl hs
  | object s => exact .object hs (s.release_sheds p)

theorem evict_spec (hs : s.OK) (objCacheKey : String) : Loses s (s.evict objCacheKey) := by
  cases s with
  | extension s => exact .refl hs
  | policy s => exact .refl hs
  | object s => exact .object hs (s.objCacheDelete_sheds objCacheKey)

theorem mem_deref {heap : DataHeap} {taken : List (InMemCacheBlock × Nat)} {k : InMemCacheBlock}
    {e : InMemCacheDataEntry} : (k, e) ∈ deref heap taken ↔ ∃ p, (k, p) ∈ taken ∧ heap[p]? = some e := by
  simp only [deref, List.mem_filterMap, Option.map_eq_some_iff, Prod.mk.injEq, Prod.exists]
  refine ⟨fun ⟨k', p, hm, e', he, hk, hee⟩ => ?_, fun ⟨p, hm, he⟩ => ⟨k, p, hm, e, he, rfl, rfl⟩⟩
  subst hk hee
  exact ⟨p, hm, he⟩

/-- `Take` succeeds, empties the storage and returns only blocks that were held. -/
theorem take_spec (hs : s.OK) (clock : Nat → Nat) (hash : PolicyHash) :
    ∃ taken s', s.take clock hash = .ok (taken, s') ∧ Loses s s' ∧ (∀ k, s'.resident k = none) ∧
      ∀ k e, (k, e) ∈ taken → ∃ x, s.resident k = some x ∧ e = ⟨x.data, x.versionTag⟩ ∧ s.HandsOver clock x := by
  cases s with
  | extension s =>
    obtain ⟨taken, s', htake, hok, hn, hheap, ht, hmem⟩ := ExtensionStorage.take_spec hs clock
    refine ⟨_, _, by rw [take, htake]; rfl, .extension hok (fun k x hx => ?_) ht, hn, fun k e he => ?_⟩
    · rw [hn k] at hx
      cases hx
    · obtain ⟨p, hp, he⟩ := mem_deref.mp he
      obtain ⟨x, hx, hd, hj⟩ := hmem k p hp
      rw [hheap, hd] at he
      exact ⟨x, hx, (Option.some.inj he).symm, hj⟩
  | policy s =>
    refine ⟨_, _, rfl, .policy hs s.clear_moves, s.clear_resident, fun k e he => ?_⟩
    obtain ⟨p, hp, he⟩ := mem_deref.mp he
    obtain ⟨x, hx, hd⟩ := PolicyStorage.take_mem hs hash hp
    rw [show s.clear.heap = s.heap from rfl, hd] at he
    exact ⟨x, hx, (Option.some.inj he).symm, trivial⟩
  | object s =>
    obtain ⟨hshed, hn, hmem⟩ := ObjectStorage.take_spec hs
    refine ⟨_, _, rfl, .object hs hshed, hn, fun k e he => ?_⟩
    obtain ⟨x, hx, he⟩ := hmem k e he
    exact ⟨x, hx, he, trivial⟩

theorem remapForNewBlockSize_ok (hs : s.OK) {env : RemapEnv} {newBlockSize : Nat}
    (h : s.remapForNewBlockSize env newBlockSize = .ok s') : s'.OK := by
  obtain ⟨taken, s₁, htake, hl, _⟩ := take_spec hs env.clock env.policyHash
  rw [remapForNewBlockSize, htake, ok_bind] at h
  obtain ⟨rebuilt, _, hput⟩ := except_bind_eq_ok.mp h
  exact foldlM_invariant (fun s kv s' hs hp => (put_spec hs hp).1) hput hl.ok

theorem build_spec {mode : StorageMode} {maxEntries timeoutMillisec : Nat} {policyOptions : PolicyStorageOptions}
    (h : buildInMemoryDataCacheStorage mode maxEntries timeoutMillisec policyOptions = .ok s) :
    s.OK ∧ (∀ k, s.resident k = none) ∧ s.timeoutMillisec = timeoutMillisec := by
  cases mode with
  | extension =>
    cases h
    obtain ⟨hok, hn⟩ := ExtensionStorage.OK.new maxEntries timeoutMillisec
    exact ⟨hok, hn, rfl⟩
  | policy =>
    simp only [buildInMemoryDataCacheStorage] at h
    cases hnew : newPolicyStorage policyOptions.maxBytes timeoutMillisec policyOptions.evictionPolicy
      policyOptions.filePolicies with
    | error f => simp [hnew, Except.map] at h
    | ok t =>
      simp only [hnew, Except.map, Except.ok.injEq] at h
      subst h
      obtain ⟨hr, ht, hn⟩ := PolicyStorage.new_routed hnew
      exact ⟨hr, fun k => PolicyStorage.resident_none (hn _ k), ht⟩
  | object =>
    cases h
    refine ⟨⟨fun o b hb => ?_, fun k m hm => ?_⟩,
      fun k => ObjectStorage.resident_none (AList.lookup_empty _), rfl⟩
    · rw [AList.lookup_empty] at hb
      cases hb
    · simp at hm

/-- Without policy options it is a storage of one of the other modes. -/
theorem buildPlainStorage_built (mode : StorageMode) (maxEntries timeoutMillisec : Nat) :
    ∃ m, buildInMemoryDataCacheStorage m maxEntries timeoutMillisec ⟨0, .lru, []⟩ =
      .ok (buildPlainStorage mode maxEntries timeoutMillisec) := by
  cases mode with
  | object => exact ⟨.object, rfl⟩
  | extension | policy => exact ⟨.extension, rfl⟩

theorem buildPlainStorage_ok (mode : StorageMode) (maxEntries timeoutMillisec : Nat) :
    (buildPlainStorage mode maxEntries timeoutMillisec).OK := by
  obtain ⟨m, hm⟩ := buildPlainStorage_built mode maxEntries timeoutMillisec
  exact (build_spec hm).1

end DataCacheStorage

end ReadCacheFs
