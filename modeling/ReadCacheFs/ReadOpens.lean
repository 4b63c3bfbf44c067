/-
Opening files: `OpenFileExtended`, and what an open leaves of the caches.

Where `clear_cache_on_write` is set, an open clears the file before it looks
at its flags, so opening it to read clears it like opening it to write. The
machine here takes opens, removals and that setting in between the steps of
the reads (`ProfiledReads`); one whose clear throws is no step. An open or a
removal leaves every file alone that it does not clear (`KeepsBlocks`,
`openFileExtended_entry`).
-/
import ReadCacheFs.DiskInvalidation
import ReadCacheFs.ProfiledReads

namespace ReadCacheFs

open Lib

/-- What an open looks at of its `FileOpenFlags`. -/
structure OpenFlags where
  forReading : Bool := false
  forWriting : Bool := false
  deriving DecidableEq, Repr

def OpenFlags.readOnly (flags : OpenFlags) : Bool := flags.forReading && !flags.forWriting

/-- `OpenFileExtended`. A handle that is not for reading is left out. -/
def CacheFileSystem.openFileExtended (w : World) (clearCacheOnWrite : Bool) (flags : OpenFlags) (path : String)
    (hash : PolicyHash) (fs : CacheFileSystem) : Except Fault CacheFileSystem :=
  let fs := fs.initializeGlobalConfig
  (if clearCacheOnWrite then fs.clearCacheFile w hash path else .ok fs).map fun fs =>
    if flags.forReading then { fs with handles := fs.handles ++ [{ path }] } else fs

/-- What `RemoveFiles` does before it removes the files. -/
def CacheFileSystem.clearCacheFiles (w : World) (hash : PolicyHash) (filenames : List String)
    (fs : CacheFileSystem) :
    Except Fault CacheFileSystem :=
  filenames.foldlM (fun fs filename => fs.clearCacheFile w hash filename) fs

structure OpenState where
  reads : ProfileState
  clearCacheOnWrite : Bool := false

inductive OpenAct
  | openFile (flags : OpenFlags) (path : String) (hash : PolicyHash)
  /-- `cache_httpfs_clear_cache_on_write`. -/
  | setClearCacheOnWrite (value : Bool)
  /-- `RemoveFile`, `TryRemoveFile`, `RemoveFiles`. -/
  | removeFiles (filenames : List String) (hash : PolicyHash)
  /-- A step of a read, or anything else. -/
  | other (act : ProfileAct)

namespace OpenState

abbrev fs (s : OpenState) : CacheFileSystem := s.reads.fs

def withFs (s : OpenState) (fs : CacheFileSystem) : OpenState := { s with reads := { s.reads with fs } }

/-- The reads of a connection that have not returned. -/
abbrev active (k : Nat) (s : OpenState) : List ActiveRead := (s.reads.connections k).active

end OpenState

/-- An open, or a read all at once. -/
def ProfileAct.opensOrReads : ProfileAct → Bool
  | .session (.openFile _) | .session (.read ..) | .session (.readAt ..) => true
  | _ => false

open CacheFileSystem OpenState in
def openStep (w : World) (s : OpenState) : OpenAct → Option OpenState
  | .openFile flags path hash =>
    (s.fs.openFileExtended w s.clearCacheOnWrite flags path hash).toOption.map s.withFs
  | .setClearCacheOnWrite value => some { s with clearCacheOnWrite := value }
  | .removeFiles filenames hash => (s.fs.clearCacheFiles w hash filenames).toOption.map s.withFs
  -- Opens are the above, and reads go task by task.
  | .other act => if act.opensOrReads then none else (profileStep w s.reads act).map fun reads => { s with reads }

variable {w : World} {fs fs' : CacheFileSystem}

/-! ## The storages -/

/-- The in-memory layer is in order, and there is none before the first read. -/
structure DiskCacheReader.LayerOK (reader : DiskCacheReader) : Prop where
  storage : reader.StorageOK
  unbuilt : reader.initialized = false → reader.inMemStorage = none

namespace DiskCacheReader

variable {reader reader' : DiskCacheReader}

theorem LayerOK.files (h : reader.LayerOK) (files : LocalFiles) :
    LayerOK { reader with files } := ⟨h.storage, h.unbuilt⟩

theorem LayerOK.map (h : reader.LayerOK) {f : DataCacheStorage → DataCacheStorage}
    (hf : ∀ s : DataCacheStorage, s.OK → (f s).OK) (files : LocalFiles) (accessMaps : AccessMaps) :
    LayerOK { reader with files, inMemStorage := reader.inMemStorage.map f, accessMaps } :=
  ⟨h.storage.map hf, fun hinit => by simp [h.unbuilt hinit]⟩

theorem LayerOK.set (h : reader.LayerOK) {s s' : DataCacheStorage} (hs : reader.inMemStorage = some s)
    (hok : s'.OK) (files : LocalFiles) : LayerOK { reader with files, inMemStorage := some s' } := by
  refine ⟨fun _ he => Option.some.inj he ▸ hok, fun hinit => ?_⟩
  rw [h.unbuilt hinit] at hs
  cases hs

theorem LayerOK.init (h : reader.LayerOK) (config : InstanceConfig) : (reader.init config).LayerOK := by
  refine ⟨h.storage.init config, fun hinit => ?_⟩
  unfold DiskCacheReader.init at hinit
  split at hinit
  next hdone =>
    rw [hdone] at hinit
    cases hinit
  · cases hinit

theorem LayerOK.memPut (h : reader.LayerOK) {env : TaskEnv} {key : InMemCacheBlock}
    {content : PageAlignedDataChunk} {tag : String} (hp : reader.memPut env key content tag = .ok reader') :
    reader'.LayerOK := by
  refine ⟨h.storage.memPut hp, fun hinit => ?_⟩
  unfold DiskCacheReader.memPut at hp
  split at hp
  next hs =>
    cases hp
    exact hs
  next hs =>
    obtain ⟨_, _, hp⟩ := except_map_eq_ok.mp hp
    cases hp
    rw [h.unbuilt hinit] at hs
    cases hs

theorem LayerOK.storeFetched (h : reader.LayerOK) (config : InstanceConfig) (env : TaskEnv) (dest : String)
    (key : InMemCacheBlock) (content : PageAlignedDataChunk) (tag : String) :
    (reader.storeFetched config env dest key content tag).LayerOK := by
  obtain ⟨files, accessMaps, _, hleft | hput, _⟩ := storeFetched_spec config reader env dest key content tag
  · rw [hleft]
    exact ⟨h.storage, h.unbuilt⟩
  · have hfiles : LayerOK { reader with files, accessMaps } := ⟨h.storage, h.unbuilt⟩
    exact hfiles.memPut hput

theorem LayerOK.remap (h : reader.LayerOK) {env : RemapEnv} {newBlockSize : Nat}
    (hr : reader.remapInMemoryDataBlocksForNewBlockSize env newBlockSize = .ok reader') : reader'.LayerOK := by
  refine ⟨h.storage.remap hr, fun hinit => ?_⟩
  unfold remapInMemoryDataBlocksForNewBlockSize at hr
  split at hr
  next hs =>
    cases hr
    exact hs
  next hs =>
    obtain ⟨_, _, hr⟩ := except_map_eq_ok.mp hr
    cases hr
    rw [h.unbuilt hinit] at hs
    cases hs

theorem LayerOK.taskStep (h : reader.LayerOK) {path versionTag : String} {config : InstanceConfig}
    {info : RemoteFileCachePathInfo} {env : TaskEnv} {c : CacheReadChunk} {pc pc' : TaskPc}
    (hs : taskStep w path versionTag config info env c pc reader = .ok (pc', reader')) : reader'.LayerOK := by
  cases pc with
  | start =>
    obtain ⟨_, _, hs⟩ := except_bind_eq_ok.mp hs
    split at hs
    · cases hs
      exact h.files _
    next storage hst =>
      have hget := (DataCacheStorage.get_spec (h.storage storage hst) env.getNow
        (c.blockKey path) versionTag).1.ok
      split at hs
      all_goals
        next hg =>
          rw [hg] at hget
          cases hs
          exact h.set hst hget _
  | localFile =>
    obtain ⟨_, _, hs⟩ := except_bind_eq_ok.mp hs
    dsimp only at hs
    split at hs
    all_goals
      obtain ⟨_, _, hs⟩ := except_bind_eq_ok.mp hs
      cases hs
      exact h.files _
  | lookedUp found =>
    cases hs
    exact h
  | recorded found =>
    cases found with
    | block pinned =>
      rw [DiskCacheReader.taskStep] at hs
      split at hs
      · cases hs
      next storage hst =>
        obtain ⟨_, _, hs⟩ := except_bind_eq_ok.mp hs
        cases hs
        exact h.set hst (DataCacheStorage.release_spec (h.storage storage hst) pinned).ok _
    | file content =>
      obtain ⟨dest, _, hs⟩ := except_bind_eq_ok.mp hs
      obtain ⟨_, _, hs⟩ := except_bind_eq_ok.mp hs
      obtain ⟨accessMaps, hmaps, _⟩ := recordAccess_spec config reader env dest.destLocalFilepath
      dsimp only at hs
      rw [hmaps] at hs
      obtain ⟨_, _, hs⟩ := except_bind_eq_ok.mp hs
      obtain ⟨_, hput, hs⟩ := except_bind_eq_ok.mp hs
      cases hs
      have hrecorded : LayerOK { reader with accessMaps } := ⟨h.storage, h.unbuilt⟩
      exact hrecorded.memPut hput
    | nothing =>
      obtain ⟨_, _, hs⟩ := except_bind_eq_ok.mp hs
      cases hs
      exact h
  | fetched content =>
    obtain ⟨_, _, hs⟩ := except_bind_eq_ok.mp hs
    obtain ⟨_, _, hs⟩ := except_bind_eq_ok.mp hs
    cases hs
    exact h.storeFetched _ _ _ _ _ _
  | done wrote => cases hs

end DiskCacheReader

theorem InMemoryCacheReader.taskStep_ok {path versionTag : String} {env : TaskEnv} {c : CacheReadChunk}
    {pc pc' : TaskPc} {storage storage' : DataCacheStorage} (h : storage.OK)
    (hs : taskStep w path versionTag env c pc storage = .ok (pc', storage')) : storage'.OK := by
  cases pc with
  | start =>
    have hget := (DataCacheStorage.get_spec h env.getNow (c.blockKey path) versionTag).1.ok
    rw [taskStep] at hs
    split at hs
    all_goals
      next hg =>
        rw [hg] at hget
        cases hs
        exact hget
  | localFile | done wrote => cases hs
  | lookedUp found =>
    cases hs
    exact h
  | recorded found =>
    cases found with
    | block pinned =>
      obtain ⟨_, _, hs⟩ := except_bind_eq_ok.mp hs
      cases hs
      exact (DataCacheStorage.release_spec h pinned).ok
    | file content => cases hs
    | nothing =>
      obtain ⟨_, _, hs⟩ := except_bind_eq_ok.mp hs
      cases hs
      exact h
  | fetched content =>
    obtain ⟨_, _, hs⟩ := except_bind_eq_ok.mp hs
    obtain ⟨_, hput, hs⟩ := except_bind_eq_ok.mp hs
    cases hs
    exact (DataCacheStorage.put_spec h hput).1

namespace CacheFileSystem

/-- What is cached under a key of the in-memory reader's storage. -/
def resident (k : InMemCacheBlock) (fs : CacheFileSystem) : Option HeldBlock :=
  fs.inMemStorage.bind (DataCacheStorage.resident k)

/-- The size cached for a file, and since when. -/
def metadataEntry (f : String) (fs : CacheFileSystem) : Option (Nat × Nat) := fs.metadataCache.bind (·.find? f)

structure StoragesOK (w : World) (fs : CacheFileSystem) : Prop where
  storage : ∀ s, fs.inMemStorage = some s → s.OK
  disk : fs.diskReader.LayerOK
  metadata : ∀ cache, fs.metadataCache = some cache → cache.MirrorsSizes w.remote

theorem StoragesOK.start (config : InstanceConfig) (metadataConfig : MetadataConfig) (files : LocalFiles) :
    StoragesOK w { config, metadataConfig, diskReader := { files } } where
  storage _ hs := by cases hs
  disk := ⟨nofun, fun _ => rfl⟩
  metadata _ hs := by cases hs

theorem StoragesOK.clearCacheFile (h : fs.StoragesOK w) {hash : PolicyHash} {filepath : String}
    (hs : fs.clearCacheFile w hash filepath = .ok fs') : fs'.StoragesOK w := by
  obtain ⟨diskReader, hdisk, rfl⟩ := except_map_eq_ok.mp hs
  refine ⟨fun s hs => ?_, ?_, fun cache hc => ?_⟩
  · obtain ⟨old, hold, rfl⟩ := Option.map_eq_some_iff.mp hs
    exact (DataCacheStorage.clearFile_spec (h.storage old hold) hash filepath).1.ok
  · split at hdisk
    · obtain ⟨accessMaps, rfl⟩ := DiskCacheReader.clearCacheFile_eq hdisk
      exact h.disk.map (fun s hs => (DataCacheStorage.clearFile_spec hs hash filepath).1.ok) _ _
    · cases hdisk
      exact h.disk
  · obtain ⟨old, hold, rfl⟩ := Option.map_eq_some_iff.mp hc
    exact (h.metadata old hold).clearFrom _ _

theorem handles_clearCacheFile {hash : PolicyHash} {filepath : String}
    (hs : fs.clearCacheFile w hash filepath = .ok fs') :
    fs'.handles = fs.handles := by
  obtain ⟨_, _, rfl⟩ := except_map_eq_ok.mp hs
  rfl

theorem StoragesOK.initializeGlobalConfig (h : fs.StoragesOK w) : fs.initializeGlobalConfig.StoragesOK w :=
  { h with metadata := initializeGlobalConfig_sizes h.metadata }

/-- The handles apart, an open is the clear of its file or just `InitializeGlobalConfig`. -/
theorem openFileExtended_cases {clearCacheOnWrite : Bool} {flags : OpenFlags} {path : String} {hash : PolicyHash}
    (hs : fs.openFileExtended w clearCacheOnWrite flags path hash = .ok fs') :
    ∃ new, (clearCacheOnWrite = true ∧ ∃ fs₁, fs.initializeGlobalConfig.clearCacheFile w hash path = .ok fs₁ ∧
        fs' = { fs₁ with handles := fs.handles ++ new }) ∨
      (clearCacheOnWrite = false ∧ fs' = { fs.initializeGlobalConfig with handles := fs.handles ++ new }) := by
  obtain ⟨fs₁, hclear, rfl⟩ := except_map_eq_ok.mp hs
  obtain ⟨new, hnew⟩ : ∃ new,
      (if flags.forReading then { fs₁ with handles := fs₁.handles ++ [{ path }] } else fs₁) =
      { fs₁ with handles := fs₁.handles ++ new } := by
    split
    · exact ⟨_, rfl⟩
    · exact ⟨[], by rw [List.append_nil]⟩
  refine ⟨new, ?_⟩
  rw [hnew]
  split at hclear
  next hon => exact .inl ⟨hon, fs₁, hclear, by rw [handles_clearCacheFile hclear]; rfl⟩
  next hoff =>
    cases hclear
    exact .inr ⟨by simpa using hoff, rfl⟩

/-- An open returns where its clear does, and leaves true what the clear leaves true. -/
theorem openFileExtended_returns {P : CacheFileSystem → Prop} {path : String} {hash : PolicyHash}
    (hinit : P fs.initializeGlobalConfig)
    (hclear : ∃ fs₁, fs.initializeGlobalConfig.clearCacheFile w hash path = .ok fs₁ ∧ P fs₁)
    (hhandles : ∀ fs₁ handles, P fs₁ → P { fs₁ with handles }) (clearCacheOnWrite : Bool) (flags : OpenFlags) :
    ∃ fs', fs.openFileExtended w clearCacheOnWrite flags path hash = .ok fs' ∧ P fs' := by
  obtain ⟨fs₁, hcleared, h₁⟩ : ∃ fs₁,
    (if clearCacheOnWrite then fs.initializeGlobalConfig.clearCacheFile w hash path
      else .ok fs.initializeGlobalConfig) = .ok fs₁ ∧ P fs₁ := by
    split
    · exact hclear
    · exact ⟨_, rfl, hinit⟩
  unfold openFileExtended
  dsimp only
  rw [hcleared]
  refine ⟨_, rfl, ?_⟩
  split
  · exact hhandles fs₁ _ h₁
  · exact h₁

theorem StoragesOK.openFileExtended (h : fs.StoragesOK w) {clearCacheOnWrite : Bool} {flags : OpenFlags}
    {path : String} {hash : PolicyHash}
    (hs : fs.openFileExtended w clearCacheOnWrite flags path hash = .ok fs') : fs'.StoragesOK w := by
  obtain ⟨new, ⟨_, fs₁, hclear, rfl⟩ | ⟨_, rfl⟩⟩ := openFileExtended_cases hs
  · exact { h.initializeGlobalConfig.clearCacheFile hclear with }
  · exact { h.initializeGlobalConfig with }

theorem clearCacheFiles_cons {hash : PolicyHash} {filename : String} {filenames : List String} :
    fs.clearCacheFiles w hash (filename :: filenames) = .ok fs' ↔
      ∃ fs₁, fs.clearCacheFile w hash filename = .ok fs₁ ∧ fs₁.clearCacheFiles w hash filenames = .ok fs' := by
  rw [clearCacheFiles, List.foldlM_cons, except_bind_eq_ok]
  rfl

theorem StoragesOK.clearCacheFiles (h : fs.StoragesOK w) {hash : PolicyHash} {filenames : List String}
    (hs : fs.clearCacheFiles w hash filenames = .ok fs') : fs'.StoragesOK w := by
  induction filenames generalizing fs with
  | nil =>
    cases hs
    exact h
  | cons filename filenames ih =>
    obtain ⟨fs₁, hfirst, hrest⟩ := clearCacheFiles_cons.mp hs
    exact ih (h.clearCacheFile hfirst) hrest

theorem StoragesOK.remap (h : fs.StoragesOK w) {newBlockSize : Nat} {inMemEnv diskEnv : RemapEnv}
    (hs : fs.remapInMemoryDataCaches newBlockSize inMemEnv diskEnv = .ok fs') : fs'.StoragesOK w := by
  unfold remapInMemoryDataCaches at hs
  dsimp only at hs
  split at hs
  · obtain ⟨_, hmem, hs⟩ := except_bind_eq_ok.mp hs
    obtain ⟨reader, hdisk, hs⟩ := except_bind_eq_ok.mp hs
    cases hmem
    cases hs
    exact { h with storage := nofun, disk := h.disk.remap hdisk }
  next storage hst =>
    obtain ⟨_, hmem, hs⟩ := except_bind_eq_ok.mp hs
    obtain ⟨reader, hdisk, hs⟩ := except_bind_eq_ok.mp hs
    obtain ⟨storage', hremap, rfl⟩ := except_map_eq_ok.mp hmem
    cases hs
    refine { h with storage := fun s hs => ?_, disk := h.disk.remap hdisk }
    cases hs
    exact DataCacheStorage.remapForNewBlockSize_ok (h.storage storage hst) hremap

theorem StoragesOK.setCacheBlockSize (h : fs.StoragesOK w) {newBlockSize : Nat} {inMemEnv diskEnv : RemapEnv}
    (hs : fs.setCacheBlockSize newBlockSize inMemEnv diskEnv = .ok fs') : fs'.StoragesOK w := by
  unfold CacheFileSystem.setCacheBlockSize at hs
  split at hs
  · cases hs
    exact h
  · split at hs
    · obtain ⟨fs₁, hremap, hs⟩ := except_bind_eq_ok.mp hs
      cases hs
      exact { h.remap hremap with }
    · cases hs
      exact { h with }

/-- A step of a session, its opens and reads apart. -/
theorem StoragesOK.session (h : fs.StoragesOK w) {act : FsAct}
    (hact : (ProfileAct.session act).opensOrReads = false) (hs : fsStep w fs act = .ok fs') :
    fs'.StoragesOK w := by
  cases act with
  | openFile | read | readAt => cases hact
  | seek | configure | registerLayout | clearLayouts | clearLayout =>
    cases hs
    exact { h with }
  | setCacheBlockSize newBlockSize inMemEnv diskEnv => exact h.setCacheBlockSize hs
  | clearCache =>
    cases hs
    refine ⟨fun s hs => ?_, ?_, fun cache hc => ?_⟩
    · obtain ⟨old, hold, rfl⟩ := Option.map_eq_some_iff.mp hs
      exact (DataCacheStorage.clear_spec (h.storage old hold)).1.ok
    · dsimp only [CacheFileSystem.clearCache]
      split
      · exact h.disk.map (fun s hs => (DataCacheStorage.clear_spec hs).1.ok) _ _
      · exact h.disk
    · obtain ⟨old, _, rfl⟩ := Option.map_eq_some_iff.mp hc
      exact .clear _ _
  | clearCacheFile hash filepath => exact h.clearCacheFile hs
  | removeFiles filepaths =>
    cases hs
    exact { h with disk := h.disk.files _ }
  | evict objCacheKey =>
    cases hs
    refine { h with storage := fun s hs => ?_, disk := h.disk.map (fun s hs => (DataCacheStorage.evict_spec hs objCacheKey).ok) _ _ }
    obtain ⟨old, hold, rfl⟩ := Option.map_eq_some_iff.mp hs
    exact (DataCacheStorage.evict_spec (h.storage old hold) objCacheKey).ok

theorem StoragesOK.getFileSize (h : fs.StoragesOK w) (env : ReadEnv) (path : String) :
    (fs.getFileSize w env path).1 = (w.remote path).length ∧ (fs.getFileSize w env path).2.StoragesOK w := by
  obtain ⟨cache, hstat, hcache⟩ := getFileSize_spec h.metadata env path
  rw [hstat]
  exact ⟨rfl, { h with metadata := hcache }⟩

theorem StoragesOK.beginRead (h : fs.StoragesOK w) {env : ReadEnv} {handle : Nat} {path : String}
    {location n fileSize : Nat} {read : Option ActiveRead}
    (hb : fs.beginRead w env handle path location n fileSize = .ok (read, fs')) :
    fs'.StoragesOK w := by
  unfold CacheFileSystem.beginRead at hb
  dsimp only at hb
  split at hb
  · obtain ⟨_, _, hb⟩ := except_map_eq_ok.mp hb
    cases hb
    exact h
  · split at hb
    · cases hb
      exact h
    · obtain ⟨storage, hinit, hb⟩ := except_bind_eq_ok.mp hb
      obtain ⟨_, _, hb⟩ := except_bind_eq_ok.mp hb
      cases hb
      refine { h with storage := fun s hs => ?_ }
      cases hs
      unfold InMemoryCacheReader.initStorage at hinit
      split at hinit
      next hst =>
        cases hinit
        exact h.storage _ hst
      · exact (DataCacheStorage.build_spec hinit).1
  · split at hb
    · cases hb
      exact h
    · obtain ⟨_, _, hb⟩ := except_bind_eq_ok.mp hb
      obtain ⟨_, _, hb⟩ := except_bind_eq_ok.mp hb
      cases hb
      exact { h with disk := h.disk.init _ }

theorem StoragesOK.taskStep (h : fs.StoragesOK w) {r : ActiveRead} {env : TaskEnv} {c : CacheReadChunk}
    {pc pc' : TaskPc} (hs : r.taskStep w env c pc fs = .ok (pc', fs')) : fs'.StoragesOK w := by
  unfold ActiveRead.taskStep at hs
  split at hs
  · split at hs
    · cases hs
    next storage hst =>
      obtain ⟨⟨_, _⟩, hstep, hs⟩ := except_map_eq_ok.mp hs
      cases hs
      refine { h with storage := fun s hs => ?_ }
      cases hs
      exact InMemoryCacheReader.taskStep_ok (h.storage storage hst) hstep
  · obtain ⟨⟨_, _⟩, hstep, hs⟩ := except_map_eq_ok.mp hs
    cases hs
    exact { h with disk := h.disk.taskStep hstep }

/-! ## Handles -/

theorem handles_clearCacheFiles {hash : PolicyHash} {filenames : List String}
    (hs : fs.clearCacheFiles w hash filenames = .ok fs') : fs'.handles = fs.handles := by
  induction filenames generalizing fs with
  | nil =>
    cases hs
    rfl
  | cons filename filenames ih =>
    obtain ⟨fs₁, hfirst, hrest⟩ := clearCacheFiles_cons.mp hs
    exact (ih hrest).trans (handles_clearCacheFile hfirst)

theorem handles_setCacheBlockSize {newBlockSize : Nat} {inMemEnv diskEnv : RemapEnv}
    (hs : fs.setCacheBlockSize newBlockSize inMemEnv diskEnv = .ok fs') : fs'.handles = fs.handles := by
  unfold CacheFileSystem.setCacheBlockSize at hs
  split at hs
  · cases hs
    rfl
  · split at hs
    · obtain ⟨fs₁, hremap, hs⟩ := except_bind_eq_ok.mp hs
      cases hs
      unfold remapInMemoryDataCaches at hremap
      dsimp only at hremap
      split at hremap <;>
        (obtain ⟨_, _, hremap⟩ := except_bind_eq_ok.mp hremap
         obtain ⟨_, _, hremap⟩ := except_bind_eq_ok.mp hremap
         cases hremap
         rfl)
    · cases hs
      rfl

theorem handles_session {act : FsAct} (hact : (ProfileAct.session act).opensOrReads = false)
    (hs : fsStep w fs act = .ok fs') :
    fs'.handles.length = fs.handles.length := by
  cases act with
  | openFile | read | readAt => cases hact
  | seek handle position =>
    cases hs
    exact List.length_modify _ _ _
  | setCacheBlockSize => rw [handles_setCacheBlockSize hs]
  | clearCacheFile => rw [handles_clearCacheFile hs]
  | configure | registerLayout | clearLayouts | clearLayout | clearCache | removeFiles | evict =>
    cases hs
    rfl

theorem handles_taskStep {r : ActiveRead} {env : TaskEnv} {c : CacheReadChunk} {pc pc' : TaskPc}
    (hs : r.taskStep w env c pc fs = .ok (pc', fs')) : fs'.handles = fs.handles := by
  unfold ActiveRead.taskStep at hs
  split at hs
  · split at hs
    · cases hs
    · obtain ⟨⟨_, _⟩, _, hs⟩ := except_map_eq_ok.mp hs
      cases hs
      rfl
  · obtain ⟨⟨_, _⟩, _, hs⟩ := except_map_eq_ok.mp hs
    cases hs
    rfl

/-! ## What opens and clears keep -/

/-- The data of a file that is cached in memory and on disk stays as it is. -/
structure KeepsBlocks (w : World) (f : String) (fs fs' : CacheFileSystem) : Prop where
  storage : ∀ k, k.fname = f → fs'.resident k = fs.resident k
  memLayer : ∀ k, k.fname = f → fs'.diskReader.memResident k = fs.diskReader.memResident k
  files : ∀ dirs uuid off n d, localCacheDestination w.platform dirs uuid f off n = .ok d →
    fs'.diskReader.files d.destLocalFilepath = fs.diskReader.files d.destLocalFilepath

variable {f path : String} {fs'' : CacheFileSystem}

theorem KeepsBlocks.of_eq (hmem : fs'.inMemStorage = fs.inMemStorage) (hdisk : fs'.diskReader = fs.diskReader) :
    KeepsBlocks w f fs fs' :=
  ⟨fun _ _ => by rw [resident, resident, hmem], fun _ _ => by rw [hdisk], fun _ _ _ _ _ _ => by rw [hdisk]⟩

theorem KeepsBlocks.trans (h : KeepsBlocks w f fs fs') (h' : KeepsBlocks w f fs' fs'') :
    KeepsBlocks w f fs fs'' :=
  ⟨fun k hk => (h'.storage k hk).trans (h.storage k hk), fun k hk => (h'.memLayer k hk).trans (h.memLayer k hk),
    fun dirs uuid off n d hd => (h'.files dirs uuid off n d hd).trans (h.files dirs uuid off n d hd)⟩

/-- The clear of another file. -/
theorem keepsBlocks_clearCacheFile (h : fs.StoragesOK w) (hp : w.platform.OK) {hash : PolicyHash} (hne : path ≠ f)
    (hs : fs.clearCacheFile w hash path = .ok fs') : KeepsBlocks w f fs fs' := by
  obtain ⟨diskReader, hdisk, rfl⟩ := except_map_eq_ok.mp hs
  have hstorage : ∀ k : InMemCacheBlock, k.fname = f →
      (fs.inMemStorage.map (DataCacheStorage.clearFile hash path)).bind (DataCacheStorage.resident k) =
        fs.resident k := by
    intro k hk
    unfold resident
    cases hmem : fs.inMemStorage with
    | none => rfl
    | some s => exact DataCacheStorage.clearFile_keeps (h.storage s hmem) hash (hk ▸ hne.symm)
  split at hdisk
  · obtain ⟨accessMaps, rfl⟩ := DiskCacheReader.clearCacheFile_eq hdisk
    have hlayer : ∀ k : InMemCacheBlock, k.fname = f →
        (fs.diskReader.forgetFile w fs.config hash path).memResident k = fs.diskReader.memResident k :=
      fun k hk => forgetFile_otherBlocks h.disk.storage hash (hk ▸ hne.symm)
    refine ⟨hstorage, hlayer, fun dirs uuid off n d hd => ?_⟩
    exact (forgetFile_files hash path d.destLocalFilepath).trans (if_neg fun hc => hne (hc.file_eq hp hd))
  · cases hdisk
    exact ⟨hstorage, fun _ _ => rfl, fun _ _ _ _ _ _ => rfl⟩

theorem keepsBlocks_clearCacheFiles (h : fs.StoragesOK w) (hp : w.platform.OK) {hash : PolicyHash}
    {filenames : List String} (hne : f ∉ filenames) (hs : fs.clearCacheFiles w hash filenames = .ok fs') :
    KeepsBlocks w f fs fs' := by
  induction filenames generalizing fs with
  | nil =>
    cases hs
    exact .of_eq rfl rfl
  | cons filename filenames ih =>
    obtain ⟨fs₁, hfirst, hrest⟩ := clearCacheFiles_cons.mp hs
    have hkeep := keepsBlocks_clearCacheFile h hp (List.ne_of_not_mem_cons hne).symm hfirst
    exact hkeep.trans (ih (h.clearCacheFile hfirst) (List.not_mem_of_not_mem_cons hne) hrest)

/-- An open keeps the data of every file but the one it clears. -/
theorem keepsBlocks_openFileExtended (h : fs.StoragesOK w) (hp : w.platform.OK) {clearCacheOnWrite : Bool}
    (hne : path = f → clearCacheOnWrite = false) {flags : OpenFlags} {hash : PolicyHash}
    (hs : fs.openFileExtended w clearCacheOnWrite flags path hash = .ok fs') : KeepsBlocks w f fs fs' := by
  have hinit : KeepsBlocks w f fs fs.initializeGlobalConfig := .of_eq rfl rfl
  obtain ⟨new, ⟨hon, fs₁, hclear, rfl⟩ | ⟨_, rfl⟩⟩ := openFileExtended_cases hs
  · have hother : path ≠ f := fun hf => Bool.false_ne_true ((hne hf).symm.trans hon)
    exact hinit.trans ((keepsBlocks_clearCacheFile h.initializeGlobalConfig hp hother hclear).trans
      (.of_eq rfl rfl))
  · exact .of_eq rfl rfl

theorem metadataEntry_initializeGlobalConfig (fs : CacheFileSystem) (f : String) :
    fs.initializeGlobalConfig.metadataEntry f =
      if fs.metadataConfig.enableMetadataCache then fs.metadataEntry f else none := by
  unfold metadataEntry initializeGlobalConfig
  cases henabled : fs.metadataConfig.enableMetadataCache
  · simp
  · cases hcache : fs.metadataCache with
    | none => simp [SharedValueLruCache.find?]
    | some cache => simp

theorem metadataEntry_clearCacheFile (h : fs.StoragesOK w) {hash : PolicyHash} (hne : path ≠ f)
    (hs : fs.clearCacheFile w hash path = .ok fs') : fs'.metadataEntry f = fs.metadataEntry f := by
  obtain ⟨_, _, rfl⟩ := except_map_eq_ok.mp hs
  dsimp only [metadataEntry]
  cases hcache : fs.metadataCache with
  | none => rfl
  | some cache =>
    refine ((SharedValueLruCache.clearFrom_spec (h.metadata cache hcache).ok path
      (· == path)).2 f).2 fun hmem => ?_
    have hf : (f == path) = true := @filter_of_mem_keysInRange _ _ _ _ _ (· == path) hmem
    exact hne (beq_iff_eq.mp hf).symm

/-- An open keeps the sizes cached of every file but the one it clears, unless the cache of them is turned off. -/
theorem openFileExtended_entry (h : fs.StoragesOK w) {clearCacheOnWrite : Bool}
    (hne : path = f → clearCacheOnWrite = false) {flags : OpenFlags} {hash : PolicyHash}
    (hs : fs.openFileExtended w clearCacheOnWrite flags path hash = .ok fs') :
    fs'.metadataEntry f = if fs.metadataConfig.enableMetadataCache then fs.metadataEntry f else none := by
  rw [← metadataEntry_initializeGlobalConfig]
  obtain ⟨new, ⟨hon, fs₁, hclear, rfl⟩ | ⟨_, rfl⟩⟩ := openFileExtended_cases hs
  · have hother : path ≠ f := fun hf => Bool.false_ne_true ((hne hf).symm.trans hon)
    rw [← metadataEntry_clearCacheFile h.initializeGlobalConfig hother hclear]
    rfl
  · rfl

end CacheFileSystem

end ReadCacheFs
