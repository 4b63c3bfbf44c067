/-
The access timestamps of the on-disk cache: a map from timestamp to cache
file, whose first entry an eviction takes, and its inverse.

The two maps are updated one after the other and the calls may throw, so a
call here returns the maps in either case. Timestamps are `timestamp_t`
values and a taken one is counted up to the next free one; that they do not
reach the end of `int64_t` is not modelled.

The maps are filled from the directories, and the configuration may name a
directory twice: `a` and `a/` are the same once sanitised. Its files are
then found twice, under two timestamps.
-/
import Mathlib.Data.List.AList
import Mathlib.Data.List.Sort
import ReadCacheFs.CachePaths
import ReadCacheFs.Lib.Runs
import Std.Data.TreeMap

namespace ReadCacheFs

open Lib

structure AccessMaps where
  cacheFileAccessTimestampMap : Std.TreeMap Int String := ∅
  cacheFilepathToAccessTimestamp : AList fun _ : String => Int := ∅

/-- A call on the maps; one that throws leaves them as they are then. -/
abbrev MapsCall := EStateM Fault AccessMaps

def alwaysAssert (condition : Bool) : MapsCall Unit := if condition then pure () else throw .assertFailed

/-- `while (map.count(ts)) ++ts`, for this many rounds. -/
def firstFree (map : Std.TreeMap Int String) : Nat → Int → Except Fault Int
  | 0, _ => .error .diverges
  | n + 1, ts => if ts ∈ map then firstFree map n (ts + 1) else .ok ts

/-! ## The directories -/

/-- What a scan of a directory finds: the name and the modification time of
each file that opens. -/
structure Listing where
  files : List (String × Int)
  nodup : (files.map Prod.fst).Nodup
  noSlash : ∀ name ∈ files.map Prod.fst, '/' ∉ name.toList
  deriving DecidableEq, Repr

def Listing.empty : Listing := ⟨[], by simp, by simp⟩

instance : Inhabited Listing := ⟨.empty⟩

def sanitizeDirectory (dir : String) : Except Fault String :=
  if dir = "" then .error (.invalidInput "cache_httpfs_cache_directory cannot be empty")
  else .ok (if dir.toList.getLast? = some '/' then String.ofList dir.toList.dropLast else dir)

/-- `UpdateCacheDirectoriesImpl`: the directories it configures. -/
def updateCacheDirectoriesImpl (directories : List String) : Except Fault (List String) :=
  (directories.mapM sanitizeDirectory).map (List.insertionSort (· ≤ ·))

/-- The files found in the directories, each scanned in its turn. -/
def foundFiles (dirs : List String) (listings : Nat → Listing) : List (String × Int) :=
  dirs.zipIdx.flatMap fun (dir, i) => (listings i).files.map fun (name, mtime) => (dir ++ "/" ++ name, mtime)

def addFoundFile (map : Std.TreeMap Int String) (file : String × Int) : Except Fault (Std.TreeMap Int String) :=
  (firstFree map (map.size + 1) file.2).map fun ts => map.insert ts file.1

def getOnDiskFilesUnder (dirs : List String) (listings : Nat → Listing) : Except Fault (Std.TreeMap Int String) :=
  (foundFiles dirs listings).foldlM addFoundFile ∅

/-! ## The calls -/

def removeCacheFileAccessTimestamp (filepath : String) : MapsCall Unit := do
  let m ← get
  match m.cacheFilepathToAccessTimestamp.lookup filepath with
  | none => pure ()
  | some ts =>
    set { m with cacheFileAccessTimestampMap := m.cacheFileAccessTimestampMap.erase ts }
    alwaysAssert (m.cacheFileAccessTimestampMap.contains ts)
    modify fun m => { m with cacheFilepathToAccessTimestamp := m.cacheFilepathToAccessTimestamp.erase filepath }

/-- `emplace` into the inverse map, asserted to insert. -/
def emplaceAccessTimestamp (filepath : String) (ts : Int) : MapsCall Unit := do
  let m ← get
  alwaysAssert (filepath ∉ m.cacheFilepathToAccessTimestamp)
  set { m with cacheFilepathToAccessTimestamp := m.cacheFilepathToAccessTimestamp.insert filepath ts }

def assertSameSize : MapsCall Unit := do
  let m ← get
  alwaysAssert (m.cacheFileAccessTimestampMap.size == m.cacheFilepathToAccessTimestamp.keys.length)

def emplaceAll : List (Int × String) → MapsCall Unit
  | [] => pure ()
  | (ts, filepath) :: rest => do
    emplaceAccessTimestamp filepath ts
    emplaceAll rest

/-- `scan` is what `GetOnDiskFilesUnder` returns or throws. -/
def loadCacheFileAccessTimestampMapsFromDisk (scan : Except Fault (Std.TreeMap Int String)) : MapsCall Unit := do
  let m ← get
  alwaysAssert m.cacheFileAccessTimestampMap.isEmpty
  alwaysAssert m.cacheFilepathToAccessTimestamp.keys.isEmpty
  match scan with
  | .error e => throw e
  | .ok files =>
    set { m with cacheFileAccessTimestampMap := files }
    emplaceAll files.toList
    assertSameSize

def upsertCacheFileAccessTimestamp (now : Int) (filepath : String) : MapsCall Unit := do
  removeCacheFileAccessTimestamp filepath
  let m ← get
  match firstFree m.cacheFileAccessTimestampMap (m.cacheFileAccessTimestampMap.size + 1) now with
  | .error e => throw e
  | .ok ts =>
    set { m with cacheFileAccessTimestampMap := m.cacheFileAccessTimestampMap.insert ts filepath }
    emplaceAccessTimestamp filepath ts
    assertSameSize

/-- The path is moved out of the first entry, which leaves it empty until
the entry goes. -/
def evictFirst : MapsCall (Option String) := do
  let m ← get
  match m.cacheFileAccessTimestampMap.toList.head? with
  | none => pure none
  | some (ts, filepath) =>
    set { m with cacheFileAccessTimestampMap := m.cacheFileAccessTimestampMap.insert ts "" }
    removeCacheFileAccessTimestamp filepath
    assertSameSize
    pure (some filepath)

def evictCacheBlockLru (scan : Except Fault (Std.TreeMap Int String)) : MapsCall (Option String) := do
  let m ← get
  if m.cacheFileAccessTimestampMap.isEmpty then loadCacheFileAccessTimestampMapsFromDisk scan
  evictFirst

def removeAll : List String → MapsCall Unit
  | [] => pure ()
  | filepath :: rest => do
    removeCacheFileAccessTimestamp filepath
    removeAll rest

/-- `ClearCache(fname)`, of the files whose names have the prefix. -/
def clearCacheFileTimestamps (cacheFilesToRemove : List String) : MapsCall Unit := do
  removeAll cacheFilesToRemove
  assertSameSize

/-- `ClearCache()`. -/
def clearCacheTimestamps : MapsCall Unit := set ({} : AccessMaps)

/-! ## Free timestamps -/

/-- The first timestamp that is not taken, from `ts` on. -/
theorem firstFree_spec {map : Std.TreeMap Int String} {n : Nat} {ts ts' : Int}
    (h : firstFree map n ts = .ok ts') :
    ts ≤ ts' ∧ ts' ∉ map ∧ ∀ t, ts ≤ t → t < ts' → t ∈ map := by
  induction n generalizing ts with
  | zero => cases h
  | succ n ih =>
    rw [firstFree] at h
    split at h
    next hmem =>
      obtain ⟨hle, hfree, htaken⟩ := ih h
      refine ⟨by omega, hfree, fun t ht hlt => ?_⟩
      by_cases heq : t = ts
      · rw [heq]
        exact hmem
      · exact htaken t (by omega) hlt
    next hmem =>
      cases h
      exact ⟨Int.le_refl _, hmem, fun t ht hlt => by omega⟩

theorem firstFree_notMem {map : Std.TreeMap Int String} {n : Nat} {ts ts' : Int}
    (h : firstFree map n ts = .ok ts') :
    ts' ∉ map := (firstFree_spec h).2.1

theorem firstFree_diverges {map : Std.TreeMap Int String} {n : Nat} {ts : Int} {e : Fault}
    (h : firstFree map n ts = .error e) : ∀ i < n, ts + (i : Int) ∈ map := by
  induction n generalizing ts with
  | zero => intro i hi; omega
  | succ n ih =>
    rw [firstFree] at h
    split at h
    · rename_i hm
      intro i hi
      cases i with
      | zero => simpa using hm
      | succ i =>
        have hi' := ih h i (by omega)
        rwa [show ts + ((i + 1 : Nat) : Int) = ts + 1 + (i : Int) by push_cast; omega]
    · cases h

/-- One more timestamp than the map holds is enough: one of them is free. -/
theorem firstFree_total (map : Std.TreeMap Int String) (ts : Int) :
    ∃ ts', firstFree map (map.size + 1) ts = .ok ts' ∧ ts' ∉ map := by
  cases h : firstFree map (map.size + 1) ts with
  | ok ts' => exact ⟨ts', rfl, firstFree_notMem h⟩
  | error e =>
    have hsub : (List.range (map.size + 1)).map (fun i : Nat => ts + (i : Int)) ⊆ map.keys := by
      intro t ht
      obtain ⟨i, hi, rfl⟩ := List.mem_map.mp ht
      exact Std.TreeMap.mem_keys.mpr (firstFree_diverges h i (List.mem_range.mp hi))
    have hnodup : ((List.range (map.size + 1)).map (fun i : Nat => ts + (i : Int))).Nodup :=
      List.nodup_range.map fun i j hij => Int.ofNat_inj.mp (Int.add_left_cancel hij)
    have hle := (List.subperm_of_subset hnodup hsub).length_le
    rw [List.length_map, List.length_range, Std.TreeMap.length_keys] at hle
    omega

/-! ## What the directories hold -/

theorem addFoundFile_spec (map : Std.TreeMap Int String) (file : String × Int) :
    ∃ map', addFoundFile map file = .ok map' ∧
      (map'.toList.map Prod.snd).Perm (file.1 :: map.toList.map Prod.snd) := by
  obtain ⟨ts, hts, hfree⟩ := firstFree_total map file.2
  refine ⟨map.insert ts file.1, by rw [addFoundFile, hts]; rfl, ?_⟩
  have hkeep : map.toList.filter (fun e => ¬(ts == e.1) = true) = map.toList := by
    refine List.filter_eq_self.mpr fun e he => ?_
    have hne : ts ≠ e.1 := by
      rintro rfl
      exact hfree (by rw [← Std.TreeMap.mem_keys, ← Std.TreeMap.map_fst_toList_eq_keys]; exact List.mem_map_of_mem he)
    simpa using hne
  have hperm := (Std.TreeMap.toList_insert_perm (t := map) (k := ts) (v := file.1)).map Prod.snd
  rw [hkeep] at hperm
  exact hperm

theorem getOnDiskFilesUnder_spec (dirs : List String) (listings : Nat → Listing) :
    ∃ files, getOnDiskFilesUnder dirs listings = .ok files ∧
      (files.toList.map Prod.snd).Perm ((foundFiles dirs listings).map Prod.fst) := by
  have hrun : ∀ (found : List (String × Int)) (map : Std.TreeMap Int String),
      ∃ files, found.foldlM addFoundFile map = .ok files ∧
        (files.toList.map Prod.snd).Perm (found.map Prod.fst ++ map.toList.map Prod.snd) := by
    intro found
    induction found with
    | nil => exact fun map => ⟨map, rfl, .refl _⟩
    | cons file found ih =>
      intro map
      obtain ⟨map', hadd, hperm⟩ := addFoundFile_spec map file
      obtain ⟨files, hfold, hfiles⟩ := ih map'
      refine ⟨files, by rw [List.foldlM_cons, hadd]; exact hfold, hfiles.trans ?_⟩
      exact (hperm.append_left _).trans List.perm_middle
  obtain ⟨files, hfold, hfiles⟩ := hrun (foundFiles dirs listings) ∅
  exact ⟨files, hfold, hfiles.trans (.of_eq (List.append_nil _))⟩

/-! ## The maps -/

/-- The two maps are inverse to each other. -/
def AccessMaps.Inverse (m : AccessMaps) : Prop :=
  ∀ ts filepath, m.cacheFileAccessTimestampMap[ts]? = some filepath ↔
    m.cacheFilepathToAccessTimestamp.lookup filepath = some ts

namespace AccessMaps

/-- The entry of a file taken out of both maps. -/
def erase (m : AccessMaps) (ts : Int) (filepath : String) : AccessMaps :=
  { cacheFileAccessTimestampMap := m.cacheFileAccessTimestampMap.erase ts
    cacheFilepathToAccessTimestamp := m.cacheFilepathToAccessTimestamp.erase filepath }

def insert (m : AccessMaps) (ts : Int) (filepath : String) : AccessMaps :=
  { cacheFileAccessTimestampMap := m.cacheFileAccessTimestampMap.insert ts filepath
    cacheFilepathToAccessTimestamp := m.cacheFilepathToAccessTimestamp.insert filepath ts }

variable {m : AccessMaps} {ts : Int} {filepath : String}

theorem Inverse.empty : ({} : AccessMaps).Inverse := by
  intro ts filepath
  rw [AList.lookup_empty]
  simp

theorem Inverse.erase (h : m.Inverse) (hf : m.cacheFilepathToAccessTimestamp.lookup filepath = some ts) :
    (m.erase ts filepath).Inverse := by
  intro ts' f'
  simp only [AccessMaps.erase, Std.TreeMap.getElem?_erase, Std.compare_eq_iff_eq]
  by_cases hfile : f' = filepath
  · subst hfile
    rw [AList.lookup_erase]
    split
    · simp
    · rename_i hne
      simp only [reduceCtorEq, iff_false]
      intro he
      rw [h ts' f', hf] at he
      exact hne (Option.some.inj he)
  · rw [AList.lookup_erase_ne hfile, ← h ts' f']
    split
    · rename_i hts
      subst hts
      simp only [reduceCtorEq, false_iff]
      intro he
      rw [(h ts filepath).mpr hf] at he
      exact hfile (Option.some.inj he).symm
    · rfl

theorem Inverse.insert (h : m.Inverse) (hts : ts ∉ m.cacheFileAccessTimestampMap)
    (hf : filepath ∉ m.cacheFilepathToAccessTimestamp) : (m.insert ts filepath).Inverse := by
  intro ts' f'
  simp only [AccessMaps.insert, Std.TreeMap.getElem?_insert, Std.compare_eq_iff_eq]
  by_cases hfile : f' = filepath
  · subst hfile
    rw [AList.lookup_insert]
    have hnone : m.cacheFileAccessTimestampMap[ts']? ≠ some f' := by
      rw [Ne, h ts' f', AList.lookup_eq_none.mpr hf]
      simp
    split
    · simpa using ‹ts = ts'›
    · simpa [hnone] using ‹¬ts = ts'›
  · rw [AList.lookup_insert_ne hfile, ← h ts' f']
    split
    · rename_i he
      subst he
      simp [Std.TreeMap.getElem?_eq_none hts, Ne.symm hfile]
    · rfl

/-- The files of the one map are the files of the other. -/
theorem Inverse.perm (h : m.Inverse) :
    (m.cacheFileAccessTimestampMap.toList.map Prod.snd).Perm m.cacheFilepathToAccessTimestamp.keys := by
  refine (List.perm_ext_iff_of_nodup ?_ m.cacheFilepathToAccessTimestamp.keys_nodup).mpr fun f => ?_
  · refine (List.nodup_map_iff_inj_on ?_).mpr ?_
    · exact Std.TreeMap.ordered_keys_toList.imp fun hlt he => by simp [he] at hlt
    · rintro ⟨t, f⟩ ht ⟨t', f'⟩ ht' he
      change f = f' at he
      subst he
      rw [Std.TreeMap.mem_toList_iff_getElem?_eq_some, h t f] at ht
      rw [Std.TreeMap.mem_toList_iff_getElem?_eq_some, h t' f, ht] at ht'
      cases ht'
      rfl
  · rw [← AList.mem_keys, ← AList.lookup_isSome, Option.isSome_iff_exists]
    constructor
    · intro hm
      obtain ⟨⟨t, f⟩, ht, rfl⟩ := List.mem_map.mp hm
      exact ⟨t, (h t f).mp (Std.TreeMap.mem_toList_iff_getElem?_eq_some.mp ht)⟩
    · rintro ⟨t, ht⟩
      exact List.mem_map.mpr ⟨(t, f), Std.TreeMap.mem_toList_iff_getElem?_eq_some.mpr ((h t f).mpr ht), rfl⟩

theorem Inverse.size_eq (h : m.Inverse) :
    m.cacheFileAccessTimestampMap.size = m.cacheFilepathToAccessTimestamp.keys.length := by
  rw [← h.perm.length_eq, List.length_map, Std.TreeMap.length_toList]

theorem Inverse.keys_eq_nil (h : m.Inverse) (he : m.cacheFileAccessTimestampMap.isEmpty = true) :
    m.cacheFilepathToAccessTimestamp.keys = [] := by
  refine List.length_eq_zero_iff.mp ?_
  rw [← h.size_eq]
  simpa [Std.TreeMap.isEmpty_eq_size_eq_zero] using he

end AccessMaps

/-! ## What the calls do -/

/-- The call returns, and leaves the maps inverse to each other. -/
def KeepsInverse {α : Type} (call : MapsCall α) (m : AccessMaps) : Prop :=
  ∃ a m', call.run m = .ok a m' ∧ m'.Inverse

@[simp] theorem run_alwaysAssert_true (m : AccessMaps) : (alwaysAssert true).run m = .ok () m := rfl

@[simp] theorem run_alwaysAssert_false (m : AccessMaps) :
    (alwaysAssert false).run m = .error .assertFailed m := rfl

section Calls

variable {m : AccessMaps} {ts : Int} {filepath : String}

theorem removeCacheFileAccessTimestamp_absent (h : filepath ∉ m.cacheFilepathToAccessTimestamp) :
    (removeCacheFileAccessTimestamp filepath).run m = .ok () m := by
  simp [removeCacheFileAccessTimestamp, AList.lookup_eq_none.mpr h]

theorem removeCacheFileAccessTimestamp_found (h : m.cacheFilepathToAccessTimestamp.lookup filepath = some ts)
    (hts : ts ∈ m.cacheFileAccessTimestampMap) :
    (removeCacheFileAccessTimestamp filepath).run m = .ok () (m.erase ts filepath) := by
  have hc : m.cacheFileAccessTimestampMap.contains ts = true := Std.TreeMap.contains_iff_mem.mpr hts
  simp [removeCacheFileAccessTimestamp, h, hc, AccessMaps.erase]

/-- The other files keep their timestamps. -/
theorem removeCacheFileAccessTimestamp_spec (hm : m.Inverse) (filepath : String) :
    ∃ m', (removeCacheFileAccessTimestamp filepath).run m = .ok () m' ∧ m'.Inverse ∧
      filepath ∉ m'.cacheFilepathToAccessTimestamp ∧ ∀ (t : Int) f, m'.cacheFileAccessTimestampMap[t]? = some f ↔
        m.cacheFileAccessTimestampMap[t]? = some f ∧ f ≠ filepath := by
  cases h : m.cacheFilepathToAccessTimestamp.lookup filepath with
  | none =>
    have hf := AList.lookup_eq_none.mp h
    refine ⟨m, removeCacheFileAccessTimestamp_absent hf, hm, hf,
      fun t f => (and_iff_left_of_imp fun hget he => ?_).symm⟩
    rw [he, hm t filepath, h] at hget
    cases hget
  | some ts =>
    have hts : ts ∈ m.cacheFileAccessTimestampMap := by
      rw [Std.TreeMap.mem_iff_isSome_getElem?, (hm ts filepath).mpr h]
      rfl
    refine ⟨_, removeCacheFileAccessTimestamp_found h hts, hm.erase h, ?_, fun t f => ?_⟩
    · exact AList.lookup_eq_none.mp (AList.lookup_erase _ _)
    · rw [hm.erase h t f, hm t f]
      by_cases hf : f = filepath
      · subst hf
        simp [AccessMaps.erase, AList.lookup_erase]
      · simp [AccessMaps.erase, AList.lookup_erase_ne hf, hf]

theorem emplaceAccessTimestamp_absent (h : filepath ∉ m.cacheFilepathToAccessTimestamp) (ts : Int) :
    (emplaceAccessTimestamp filepath ts).run m =
      .ok () { m with cacheFilepathToAccessTimestamp := m.cacheFilepathToAccessTimestamp.insert filepath ts } := by
  simp [emplaceAccessTimestamp, h]

theorem emplaceAccessTimestamp_present (h : filepath ∈ m.cacheFilepathToAccessTimestamp) (ts : Int) :
    (emplaceAccessTimestamp filepath ts).run m = .error .assertFailed m := by
  simp [emplaceAccessTimestamp, h]

theorem assertSameSize_spec (hm : m.Inverse) : assertSameSize.run m = .ok () m := by
  simp [assertSameSize, hm.size_eq]

/-- The file gets the first free timestamp, its own one counted free. -/
theorem upsert_spec (hm : m.Inverse) (now : Int) (filepath : String) :
    ∃ m' ts, (upsertCacheFileAccessTimestamp now filepath).run m = .ok () m' ∧ m'.Inverse ∧ now ≤ ts ∧
      (∀ (t : Int) f, m.cacheFileAccessTimestampMap[t]? = some f → f ≠ filepath → t ≠ ts) ∧
      (∀ t, now ≤ t → t < ts → ∃ f, m.cacheFileAccessTimestampMap[t]? = some f ∧ f ≠ filepath) ∧
      ∀ (t : Int) f, m'.cacheFileAccessTimestampMap[t]? = some f ↔
        (t = ts ∧ f = filepath) ∨ (m.cacheFileAccessTimestampMap[t]? = some f ∧ f ≠ filepath) := by
  obtain ⟨m', hrem, hm', hf, hget⟩ := removeCacheFileAccessTimestamp_spec hm filepath
  obtain ⟨ts, hts, -⟩ := firstFree_total m'.cacheFileAccessTimestampMap now
  obtain ⟨hle, hfree, htaken⟩ := firstFree_spec hts
  have hins : (m'.insert ts filepath).Inverse := hm'.insert hfree hf
  refine ⟨m'.insert ts filepath, ts, ?_, hins, hle, fun t f ht hne he => ?_, fun t ht hlt => ?_, fun t f => ?_⟩
  · rw [upsertCacheFileAccessTimestamp, EStateM.run_bind, hrem]
    simp only [EStateM.run_bind, EStateM.run_get, hts, EStateM.run_set]
    let emplaced : AccessMaps :=
      { m' with cacheFileAccessTimestampMap := m'.cacheFileAccessTimestampMap.insert ts filepath }
    have hemplace : (emplaceAccessTimestamp filepath ts).run emplaced = .ok () (m'.insert ts filepath) :=
      emplaceAccessTimestamp_absent (m := emplaced) hf ts
    rw [hemplace]
    exact assertSameSize_spec hins
  · apply hfree
    rw [Std.TreeMap.mem_iff_isSome_getElem?, ← he, (hget t f).mpr ⟨ht, hne⟩]
    rfl
  · obtain ⟨f, hf'⟩ := Option.isSome_iff_exists.mp (Std.TreeMap.mem_iff_isSome_getElem?.mp (htaken t ht hlt))
    exact ⟨f, (hget t f).mp hf'⟩
  · rw [← hget t f]
    simp only [AccessMaps.insert, Std.TreeMap.getElem?_insert, Std.compare_eq_iff_eq]
    by_cases htt : ts = t
    · subst htt
      simp [Std.TreeMap.getElem?_eq_none hfree, eq_comm]
    · have htt' : t ≠ ts := fun he => htt he.symm
      simp [htt, htt']

theorem upsert_keeps (hm : m.Inverse) (now : Int) (filepath : String) :
    KeepsInverse (upsertCacheFileAccessTimestamp now filepath) m := by
  obtain ⟨m', ts, hrun, hm', -⟩ := upsert_spec hm now filepath
  exact ⟨(), m', hrun, hm'⟩

/-- The first entry goes from both maps, though its path is gone from the
one by the time it is looked for. -/
theorem evictFirst_spec (hm : m.Inverse) {ts : Int} {filepath : String}
    (hh : m.cacheFileAccessTimestampMap.toList.head? = some (ts, filepath)) :
    ∃ m', evictFirst.run m = .ok (some filepath) m' ∧ m'.Inverse ∧
      ∀ (t : Int) f, m'.cacheFileAccessTimestampMap[t]? = some f ↔
      m.cacheFileAccessTimestampMap[t]? = some f ∧ f ≠ filepath := by
  have hf : m.cacheFilepathToAccessTimestamp.lookup filepath = some ts :=
    (hm ts filepath).mp (Std.TreeMap.mem_toList_iff_getElem?_eq_some.mp (List.mem_of_mem_head? hh))
  let moved : AccessMaps := { m with cacheFileAccessTimestampMap := m.cacheFileAccessTimestampMap.insert ts "" }
  have hrem : (removeCacheFileAccessTimestamp filepath).run moved = .ok () (moved.erase ts filepath) :=
    removeCacheFileAccessTimestamp_found hf Std.TreeMap.mem_insert_self
  have hsame : ∀ t : Int, (moved.erase ts filepath).cacheFileAccessTimestampMap[t]? =
      (m.erase ts filepath).cacheFileAccessTimestampMap[t]? := by
    intro t
    simp only [moved, AccessMaps.erase, Std.TreeMap.getElem?_erase, Std.TreeMap.getElem?_insert]
    split
    · rfl
    · rfl
  have hinv : (moved.erase ts filepath).Inverse := by
    intro t f
    rw [hsame t]
    exact hm.erase hf t f
  refine ⟨_, ?_, hinv, fun t f => ?_⟩
  · rw [evictFirst, EStateM.run_bind]
    simp only [EStateM.run_get, hh, EStateM.run_bind, EStateM.run_set]
    rw [hrem]
    simp only [assertSameSize_spec hinv, EStateM.run_pure]
  · rw [hsame t, hm.erase hf t f, hm t f]
    by_cases hff : f = filepath
    · subst hff
      simp [AccessMaps.erase, AList.lookup_erase]
    · simp [AccessMaps.erase, AList.lookup_erase_ne hff, hff]

theorem evictFirst_keeps (hm : m.Inverse) : KeepsInverse evictFirst m := by
  cases hh : m.cacheFileAccessTimestampMap.toList.head? with
  | none => exact ⟨none, m, by simp [evictFirst, hh], hm⟩
  | some e =>
    obtain ⟨m', hrun, hm', -⟩ := evictFirst_spec hm hh
    exact ⟨some e.2, m', hrun, hm'⟩

/-- All files found are in the inverse map then, if none was found twice. -/
theorem emplaceAll_spec {es : List (Int × String)} (hes : (es.map Prod.snd).Nodup)
    (hnew : ∀ e ∈ es, e.2 ∉ m.cacheFilepathToAccessTimestamp) :
    ∃ inverse, (emplaceAll es).run m = .ok () { m with cacheFilepathToAccessTimestamp := inverse } ∧
      ∀ f t, inverse.lookup f = some t ↔ (t, f) ∈ es ∨ m.cacheFilepathToAccessTimestamp.lookup f = some t := by
  induction es generalizing m with
  | nil => exact ⟨_, rfl, by simp⟩
  | cons e es ih =>
    obtain ⟨ts, filepath⟩ := e
    rw [List.map_cons, List.nodup_cons] at hes
    have hf := hnew _ (List.mem_cons_self ..)
    have hrest : ∀ e ∈ es, e.2 ∉ m.cacheFilepathToAccessTimestamp.insert filepath ts := by
      intro e he hmem
      rcases (AList.mem_insert _).mp hmem with heq | hold
      · exact hes.1 (List.mem_map.mpr ⟨e, he, heq⟩)
      · exact hnew e (List.mem_cons_of_mem _ he) hold
    obtain ⟨inverse, hrun, hlook⟩ := ih (m := { m with
      cacheFilepathToAccessTimestamp := m.cacheFilepathToAccessTimestamp.insert filepath ts }) hes.2 hrest
    refine ⟨inverse, ?_, fun f t => ?_⟩
    · rw [emplaceAll, EStateM.run_bind, emplaceAccessTimestamp_absent hf]
      exact hrun
    · rw [hlook f t, List.mem_cons]
      by_cases hff : f = filepath
      · subst hff
        simp [AList.lookup_insert, AList.lookup_eq_none.mpr hf, eq_comm, or_comm]
      · simp [AList.lookup_insert_ne hff, hff]

/-- A file found twice fails the assertion. -/
theorem emplaceAll_twice {es : List (Int × String)}
    (hes : ¬((es.map Prod.snd).Nodup ∧ ∀ e ∈ es, e.2 ∉ m.cacheFilepathToAccessTimestamp)) :
    ∃ m', (emplaceAll es).run m = .error .assertFailed m' := by
  induction es generalizing m with
  | nil => simp at hes
  | cons e es ih =>
    obtain ⟨ts, filepath⟩ := e
    rw [emplaceAll, EStateM.run_bind]
    by_cases hf : filepath ∈ m.cacheFilepathToAccessTimestamp
    · exact ⟨m, by rw [emplaceAccessTimestamp_present hf]⟩
    · rw [emplaceAccessTimestamp_absent hf]
      refine ih fun hrest => hes ⟨?_, ?_⟩
      · rw [List.map_cons, List.nodup_cons]
        refine ⟨fun hmem => ?_, hrest.1⟩
        obtain ⟨e, he, heq⟩ := List.mem_map.mp hmem
        exact hrest.2 e he ((AList.mem_insert _).mpr (.inl heq))
      · intro e he hmem
        rcases List.mem_cons.mp he with rfl | he
        · exact hf hmem
        · exact hrest.2 e he ((AList.mem_insert _).mpr (.inr hmem))

theorem removeAll_keeps (hm : m.Inverse) (filepaths : List String) : KeepsInverse (removeAll filepaths) m := by
  induction filepaths generalizing m with
  | nil => exact ⟨(), m, rfl, hm⟩
  | cons filepath rest ih =>
    obtain ⟨m', hrem, hm', -⟩ := removeCacheFileAccessTimestamp_spec hm filepath
    obtain ⟨a, m'', hrest, hm''⟩ := ih hm'
    exact ⟨a, m'', by rw [removeAll, EStateM.run_bind, hrem]; exact hrest, hm''⟩

theorem clearCacheFile_keeps (hm : m.Inverse) (filepaths : List String) :
    KeepsInverse (clearCacheFileTimestamps filepaths) m := by
  obtain ⟨a, m', hrem, hm'⟩ := removeAll_keeps hm filepaths
  exact ⟨(), m', by rw [clearCacheFileTimestamps, EStateM.run_bind, hrem]; exact assertSameSize_spec hm', hm'⟩

/-! ## Filling the maps -/

/-- No directory named twice lists a file in both its scans. -/
def NoFileTwice (dirs : List String) (listings : Nat → Listing) : Prop :=
  dirs.zipIdx.Pairwise fun a b => a.1 = b.1 →
    ∀ name ∈ (listings a.2).files.map Prod.fst, name ∉ (listings b.2).files.map Prod.fst

instance (dirs : List String) (listings : Nat → Listing) : Decidable (NoFileTwice dirs listings) := by
  unfold NoFileTwice
  infer_instance

theorem foundFiles_nodup (dirs : List String) (listings : Nat → Listing) :
    ((foundFiles dirs listings).map Prod.fst).Nodup ↔ NoFileTwice dirs listings := by
  have hslash : ("/" : String).toList = ['/'] := rfl
  have hpath : ∀ {dir dir' name name' : String} {l l' : Listing}, name ∈ l.files.map Prod.fst →
      name' ∈ l'.files.map Prod.fst → dir ++ "/" ++ name = dir' ++ "/" ++ name' → dir = dir' ∧ name = name' :=
    fun hn hn' h => append_sep_inj hslash (Listing.noSlash _ _ hn) (Listing.noSlash _ _ hn') h
  have hfiles : ∀ (dir : String) (l : Listing),
    ((l.files.map fun (name, mtime) => (dir ++ "/" ++ name, mtime)).map
      Prod.fst) = (l.files.map Prod.fst).map (dir ++ "/" ++ ·) := by simp
  rw [foundFiles, List.map_flatMap, List.nodup_flatMap, NoFileTwice]
  simp only [hfiles]
  constructor
  · rintro ⟨-, hpair⟩
    refine hpair.imp fun {a b} hdisj hdir name ha hb => ?_
    exact hdisj (List.mem_map_of_mem ha) (hdir ▸ List.mem_map_of_mem hb)
  · intro hpair
    refine ⟨fun a _ => ?_, hpair.imp fun {a b} hno path ha hb => ?_⟩
    · refine (List.nodup_map_iff_inj_on (listings a.2).nodup).mpr fun name hn name' hn' h => ?_
      exact (hpath hn hn' h).2
    · obtain ⟨name, hn, rfl⟩ := List.mem_map.mp ha
      obtain ⟨name', hn', he⟩ := List.mem_map.mp hb
      obtain ⟨hdir, rfl⟩ := hpath hn' hn he
      exact hno hdir.symm name' hn hn'

theorem load_spec (hm : m.Inverse) (he : m.cacheFileAccessTimestampMap.isEmpty = true) (dirs : List String)
    (listings : Nat → Listing) :
    if NoFileTwice dirs listings then
      KeepsInverse (loadCacheFileAccessTimestampMapsFromDisk (getOnDiskFilesUnder dirs listings)) m
    else ∃ m', (loadCacheFileAccessTimestampMapsFromDisk (getOnDiskFilesUnder dirs listings)).run m =
      .error .assertFailed m' := by
  obtain ⟨files, hscan, hperm⟩ := getOnDiskFilesUnder_spec dirs listings
  have hkeys := hm.keys_eq_nil he
  have hnew : ∀ e ∈ files.toList, e.2 ∉ m.cacheFilepathToAccessTimestamp := by
    intro e _ hmem
    rw [AList.mem_keys, hkeys] at hmem
    cases hmem
  -- The asserts on the empty maps hold: what is left is the loop.
  have hload : (loadCacheFileAccessTimestampMapsFromDisk (getOnDiskFilesUnder dirs listings)).run m =
      (do emplaceAll files.toList; assertSameSize : MapsCall Unit).run
        { m with cacheFileAccessTimestampMap := files } := by
    simp [loadCacheFileAccessTimestampMapsFromDisk, hscan, he, hkeys]
  split
  · rename_i htwice
    have hnodup := hperm.nodup_iff.mpr ((foundFiles_nodup dirs listings).mpr htwice)
    obtain ⟨inverse, hrun, hlook⟩ :=
      emplaceAll_spec (m := { m with cacheFileAccessTimestampMap := files }) hnodup hnew
    have hinv : AccessMaps.Inverse ⟨files, inverse⟩ := by
      intro t f
      have hold : m.cacheFilepathToAccessTimestamp.lookup f ≠ some t := by
        rw [AList.lookup_eq_none.mpr (by rw [AList.mem_keys, hkeys]; exact List.not_mem_nil)]
        simp
      rw [hlook f t, or_iff_left hold, Std.TreeMap.mem_toList_iff_getElem?_eq_some]
    refine ⟨(), _, ?_, hinv⟩
    rw [hload, EStateM.run_bind, hrun]
    exact assertSameSize_spec hinv
  · rename_i htwice
    have hdup : ¬(files.toList.map Prod.snd).Nodup :=
      fun h => htwice ((foundFiles_nodup dirs listings).mp (hperm.nodup_iff.mp h))
    obtain ⟨m', hrun⟩ := emplaceAll_twice (m := { m with cacheFileAccessTimestampMap := files }) fun h => hdup h.1
    exact ⟨m', by rw [hload, EStateM.run_bind, hrun]⟩

theorem noFileTwice_of_nodup {dirs : List String} (h : dirs.Nodup) (listings : Nat → Listing) :
    NoFileTwice dirs listings := by
  have hpair : dirs.zipIdx.Pairwise fun a b => a.1 ≠ b.1 :=
    List.pairwise_map.mp (by rw [List.zipIdx_map_fst]; exact h)
  exact hpair.imp fun hne heq => absurd heq hne

theorem evict_keeps (hm : m.Inverse) {dirs : List String} {listings : Nat → Listing}
    (hn : m.cacheFileAccessTimestampMap.isEmpty = true → NoFileTwice dirs listings) :
    KeepsInverse (evictCacheBlockLru (getOnDiskFilesUnder dirs listings)) m := by
  cases he : m.cacheFileAccessTimestampMap.isEmpty with
  | false =>
    obtain ⟨a, m', hrun, hm'⟩ := evictFirst_keeps hm
    exact ⟨a, m', by simp [evictCacheBlockLru, he, hrun], hm'⟩
  | true =>
    have hload := load_spec hm he dirs listings
    rw [if_pos (hn he)] at hload
    obtain ⟨a, m₁, hrun, hm₁⟩ := hload
    obtain ⟨a', m', hfirst, hm'⟩ := evictFirst_keeps hm₁
    exact ⟨a', m', by simp [evictCacheBlockLru, he, hrun, hfirst], hm'⟩

end Calls

/-! ## Runs -/

structure AccessState where
  onDiskCacheDirectories : List String
  maps : AccessMaps := {}
  /-- What the last call threw. -/
  thrown : Option Fault := none

/-- A call of the reader, or a new configuration. The directories are
scanned while other threads and processes add and remove files, so each scan
may find something else. With `fails` the local filesystem throws. -/
inductive AccessAct
  | updateCacheDirectories (directories : List String)
  | upsert (now : Int) (filepath : String)
  | evict (listings : Nat → Listing) (fails : Bool)
  | clearCacheFile (cacheFilePrefix : String) (listings : Nat → Listing) (fails : Bool)
  | clearCache (fails : Bool)

/-- The files `ClearCache(fname)` removes. -/
def cacheFilesToRemove (dirs : List String) (listings : Nat → Listing) (cacheFilePrefix : String) : List String :=
  dirs.zipIdx.flatMap fun (dir, i) =>
    (((listings i).files.map Prod.fst).filter fun name => cacheFilePrefix.toList.isPrefixOf name.toList).map
      (dir ++ "/" ++ ·)

def AccessState.call {α : Type} (s : AccessState) (call : MapsCall α) : AccessState :=
  match call.run s.maps with
  | .ok _ maps => { s with maps, thrown := none }
  | .error e maps => { s with maps, thrown := some e }

def accessStep (s : AccessState) : AccessAct → Option AccessState
  | .updateCacheDirectories directories =>
    match updateCacheDirectoriesImpl directories with
    | .ok dirs => some { s with onDiskCacheDirectories := dirs, thrown := none }
    | .error e => some { s with thrown := some e }
  | .upsert now filepath => some (s.call (upsertCacheFileAccessTimestamp now filepath))
  | .evict listings fails =>
    some (s.call (evictCacheBlockLru
      (if fails then .error .io else getOnDiskFilesUnder s.onDiskCacheDirectories listings)))
  | .clearCacheFile cacheFilePrefix listings fails =>
    some (s.call (if fails then throw .io
      else clearCacheFileTimestamps (cacheFilesToRemove s.onDiskCacheDirectories listings cacheFilePrefix)))
  | .clearCache fails => some (s.call (if fails then throw .io else clearCacheTimestamps))

/-- The maps are inverse, and the last call failed no assertion and came to an end. -/
structure AccessState.Good (s : AccessState) : Prop where
  inverse : s.maps.Inverse
  asserts : s.thrown ≠ some .assertFailed
  ends : s.thrown ≠ some .diverges

/-- An eviction that has to fill the maps finds no file twice. -/
def FillsOnce (s : AccessState) : AccessAct → Prop
  | .evict listings fails =>
    s.maps.cacheFileAccessTimestampMap.isEmpty = true → fails = false → NoFileTwice s.onDiskCacheDirectories listings
  | _ => True

theorem AccessState.good_of_keeps {α : Type} {s : AccessState} {call : MapsCall α}
    (h : KeepsInverse call s.maps) :
    (s.call call).Good := by
  obtain ⟨a, m', hrun, hm'⟩ := h
  simp only [AccessState.call, hrun]
  exact ⟨hm', by simp, by simp⟩

/-- A call the filesystem fails leaves the maps as they are. -/
theorem AccessState.good_of_io {α : Type} {s : AccessState} {call : MapsCall α} (hs : s.Good)
    (h : call.run s.maps = .error .io s.maps) : (s.call call).Good := by
  simp only [AccessState.call, h]
  exact ⟨hs.inverse, by simp, by simp⟩

theorem updateCacheDirectoriesImpl_error {directories : List String} {e : Fault}
    (h : updateCacheDirectoriesImpl directories = .error e) : ∃ message, e = .invalidInput message := by
  have hmap : ∀ {ds : List String}, ds.mapM sanitizeDirectory = .error e →
      ∃ message, e = .invalidInput message := by
    intro ds hds
    induction ds with
    | nil => cases hds
    | cons d ds ih =>
      rw [List.mapM_cons] at hds
      cases hd : sanitizeDirectory d with
      | error e' =>
        rw [hd] at hds
        cases hds
        rw [sanitizeDirectory] at hd
        split at hd
        · cases hd
          exact ⟨_, rfl⟩
        · cases hd
      | ok dir =>
        rw [hd] at hds
        cases hrest : ds.mapM sanitizeDirectory with
        | error e' =>
          simp only [hrest] at hds
          cases hds
          exact ih hrest
        | ok dirs =>
          simp only [hrest] at hds
          cases hds
  rw [updateCacheDirectoriesImpl] at h
  cases hds : directories.mapM sanitizeDirectory with
  | error e' =>
    rw [hds] at h
    cases h
    exact hmap hds
  | ok dirs =>
    rw [hds] at h
    cases h

theorem evict_good {s : AccessState} (hs : s.Good) {listings : Nat → Listing} {fails : Bool}
    (hg : FillsOnce s (.evict listings fails)) :
    (s.call (evictCacheBlockLru
      (if fails then .error .io else getOnDiskFilesUnder s.onDiskCacheDirectories listings))).Good := by
  cases fails with
  | false => exact AccessState.good_of_keeps (evict_keeps hs.inverse fun he => hg he rfl)
  | true =>
    cases he : s.maps.cacheFileAccessTimestampMap.isEmpty with
    | false =>
      refine AccessState.good_of_keeps ?_
      obtain ⟨a, m', hrun, hm'⟩ := evictFirst_keeps hs.inverse
      exact ⟨a, m', by simp [evictCacheBlockLru, he, hrun], hm'⟩
    | true =>
      have hkeys := hs.inverse.keys_eq_nil he
      refine AccessState.good_of_io hs ?_
      simp [evictCacheBlockLru, loadCacheFileAccessTimestampMapsFromDisk, he, hkeys]

theorem accessStep_good {s : AccessState} {a : AccessAct} {s' : AccessState} (hs : s.Good) (hg : FillsOnce s a)
    (h : accessStep s a = some s') : s'.Good := by
  cases a with
  | updateCacheDirectories directories =>
    simp only [accessStep] at h
    split at h
    · cases h
      exact ⟨hs.inverse, by simp, by simp⟩
    · rename_i e he
      cases h
      obtain ⟨message, rfl⟩ := updateCacheDirectoriesImpl_error he
      exact ⟨hs.inverse, by simp, by simp⟩
  | upsert now filepath =>
    cases h
    exact AccessState.good_of_keeps (upsert_keeps hs.inverse now filepath)
  | evict listings fails =>
    cases h
    exact evict_good hs hg
  | clearCacheFile cacheFilePrefix listings fails =>
    cases h
    cases fails with
    | true => exact AccessState.good_of_io hs rfl
    | false => exact AccessState.good_of_keeps (clearCacheFile_keeps hs.inverse _)
  | clearCache fails =>
    cases h
    cases fails with
    | true => exact AccessState.good_of_io hs rfl
    | false => exact AccessState.good_of_keeps ⟨(), {}, rfl, AccessMaps.Inverse.empty⟩

/-- **The maps stay inverse to each other**, and no assertion fails, in every
run whose evictions find no file twice when they fill the maps. -/
theorem access_maps_inverse (dirs : List String) (as : List AccessAct)
    (hg : Guarded accessStep FillsOnce { onDiskCacheDirectories := dirs } as) (s : AccessState)
    (h : exec accessStep { onDiskCacheDirectories := dirs } as = some s) : s.Good :=
  exec_guarded_invariant (fun _ _ _ hs hg h => accessStep_good hs hg h) hg h
    ⟨AccessMaps.Inverse.empty, by simp, by simp⟩

/-- One file of one second. -/
def oneFile : Listing := ⟨[("x", 1000000)], by simp, by simp⟩

/-- A reader is given `/a`, evicts the one file there, and clears. -/
theorem access_maps_inverse_oneDirectory :
    ∃ s, exec accessStep { onDiskCacheDirectories := ["/a"] }
      [.evict (fun _ => oneFile) false, .clearCache false] =
      some s ∧ s.Good := by
  refine ⟨_, rfl, access_maps_inverse ["/a"] [.evict (fun _ => oneFile) false, .clearCache false] ?_ _ rfl⟩
  refine ⟨fun _ _ => ?_, fun s' _ => ⟨trivial, fun _ _ => trivial⟩⟩
  simp [NoFileTwice, List.zipIdx]

/-- A reader is given `/a` and `/a/`, which are one directory, and fills its
maps from it: the file there is found twice, and the assertion fails. -/
theorem access_maps_directory_twice :
    updateCacheDirectoriesImpl ["/a", "/a/"] = .ok ["/a", "/a"] ∧
    ∃ s, exec accessStep { onDiskCacheDirectories := [] }
      [.updateCacheDirectories ["/a", "/a/"], .evict (fun _ => oneFile) false] = some s ∧
      s.thrown = some .assertFailed ∧ ¬s.maps.Inverse := by
  refine ⟨by decide +kernel, _, rfl, by decide +kernel, fun h => ?_⟩
  have hlook := (h 1000001 "/a/x").mp (by decide +kernel)
  revert hlook
  decide +kernel

end ReadCacheFs
