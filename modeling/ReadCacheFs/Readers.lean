/-
The readers a read may go through: `NoopCacheReader`, `InMemoryCacheReader`
and `DiskCacheReader`.

A caching reader cuts the request into chunks and runs a task for each: the
task finds the chunk's entry in a cache or reads it from the remote file,
and copies its part of it to the caller's buffer. The tasks of a read run
one after another in any order. What a task does not decide itself is in
its `TaskEnv`, and so is how the local filesystem fares.

Under `lru_sp` the reader on disk records each access to a cache file in
its access maps, and where there is no space it removes the file they give.
An assertion on the maps that fails is thrown out of the read on a hit and
out of a clear; on a miss it is caught. Under the other policy the maps stay
as they are, and any files may go.

The two readers' storages of mode `object` are in one `ObjectCache`, under
one key for each block; here each has one of its own.
-/
import Mathlib.Logic.Function.Basic
import ReadCacheFs.AccessTimestamps
import ReadCacheFs.CachePaths
import ReadCacheFs.DataCacheStorage
import ReadCacheFs.DiskFiles
import ReadCacheFs.Planner

namespace ReadCacheFs

open Lib

inductive CacheType
  | noop
  | onDisk
  | inMem
  deriving DecidableEq, Repr

inductive Chunking
  | fixed
  | columnChunk
  deriving DecidableEq, Repr

inductive OnDiskEvictionPolicy
  | creationTimestamp
  /-- `lru_sp`. -/
  | lruSingleProc
  deriving DecidableEq, Repr

/-- What the readers use of `InstanceConfig`. -/
structure InstanceConfig where
  cacheBlockSize : Nat
  cacheType : CacheType
  onDiskCacheDirectories : List String
  enableDiskReaderMemCache : Bool
  diskReaderMaxMemCacheBlockCount : Nat
  diskReaderMaxMemCacheTimeoutMillisec : Nat
  maxInMemCacheBlockCount : Nat
  inMemCacheBlockTimeoutMillisec : Nat
  inMemCacheStorage : StorageMode
  policyOptions : PolicyStorageOptions
  chunking : Chunking
  enableCacheValidation : Bool
  onDiskEvictionPolicy : OnDiskEvictionPolicy := .creationTimestamp
  deriving DecidableEq, Repr

/-- Where the readers run. -/
structure World where
  remote : Remote
  platform : Platform
  page : Nat

/-- How a `StoreLocalCacheFile` call goes. -/
inductive StoreOutcome
  /-- There is no space: `EvictCacheFiles` removes these files instead, but
  under `lru_sp` the one the access maps give. -/
  | noSpace (evicted : List String)
  /-- The local filesystem throws before the file is in place. -/
  | throws
  /-- An attribute is refused, and the call returns. -/
  | refused
  | moved
  deriving DecidableEq, Repr

structure TaskEnv where
  getNow : Nat := 0
  putNow : Nat := 0
  /-- What the object cache drops. -/
  evicted : List String := []
  canAccessFile : Bool := true
  uuid : String := ""
  store : StoreOutcome := .moved
  /-- The cache files others remove before the task. -/
  removed : List String := []
  /-- `GetCurrentTimestamp` when the access is recorded. -/
  accessNow : Int := 0
  /-- What an eviction that fills the access maps finds in each directory. -/
  listings : List Listing := []
  deriving DecidableEq, Repr

/-- What a read meets. -/
structure ReadEnv where
  order : HashOrder CacheReadChunk := .inserted
  task : Nat → TaskEnv := fun _ => {}
  /-- `GetVersionTag` of the handle. -/
  versionTag : String := ""
  matchAnyExclusion : Bool := false
  statNow : Nat := 0
  statPutNow : Nat := 0

/-! ## Tasks -/

/-- The tasks of a read, one after another, each writing to the buffer. -/
def runTasks {σ : Type} (task : TaskEnv → CacheReadChunk → σ → Except Fault ((Nat × Bytes) × σ))
    (env : ReadEnv) (chunks : List CacheReadChunk) (buffer : Bytes) (s : σ) : Except Fault (Bytes × σ) :=
  (env.order.order chunks).zipIdx.foldlM (fun (buf, s) (c, i) => do
    let (w, s) ← task (env.task i) c s
    return (writeAt buf w.1 w.2, s)) (buffer, s)

def CacheReadChunk.blockKey (c : CacheReadChunk) (path : String) : InMemCacheBlock :=
  ⟨path, c.alignedStartOffset, c.chunkSize⟩

def InstanceConfig.expectedTag (config : InstanceConfig) (env : ReadEnv) : String :=
  if config.enableCacheValidation then env.versionTag else ""

section Readers

variable (w : World) (config : InstanceConfig) (path : String)

/-- The remote read of a miss. -/
def World.fetch (c : CacheReadChunk) : Except Fault PageAlignedDataChunk :=
  (w.remote.read path c.chunkSize c.alignedStartOffset).map (filledChunk w.page c.chunkSize)

/-! ## `InMemoryCacheReader` -/

namespace InMemoryCacheReader

def processCacheReadChunk (versionTag : String) (env : TaskEnv) (c : CacheReadChunk)
    (storage : DataCacheStorage) :
    Except Fault ((Nat × Bytes) × DataCacheStorage) :=
  let blockKey := c.blockKey path
  match storage.get env.getNow blockKey versionTag with
  | (some pinned, storage) => do
    let copied ← c.copyBufferToRequestedMemory (storage.pinnedData pinned)
    return (copied, storage.release pinned)
  | (none, storage) => do
    let content ← w.fetch path c
    let copied ← c.copyBufferToRequestedMemory content
    let storage ← storage.put env.putNow env.evicted blockKey content versionTag
    return (copied, storage)

def initStorage : Option DataCacheStorage → Except Fault DataCacheStorage
  | some storage => .ok storage
  | none => buildInMemoryDataCacheStorage config.inMemCacheStorage config.maxInMemCacheBlockCount
      config.inMemCacheBlockTimeoutMillisec config.policyOptions

/-- The chunks of a read: by column chunks where the file's layout is registered. -/
def cutRequest (layouts : Layouts) (requestedStartOffset requestedBytesToRead fileSize : Nat) :
    Except Fault (List CacheReadChunk) :=
  let request := ⟨requestedStartOffset, requestedBytesToRead, fileSize, config.cacheBlockSize⟩
  schedule request
    (if config.chunking = .columnChunk ∧ layouts.hasLayout path then planColumnChunks layouts request path else [])

def readAndCache (layouts : Layouts) (env : ReadEnv) (buffer : Bytes)
    (requestedStartOffset requestedBytesToRead fileSize : Nat) (storage : Option DataCacheStorage) :
    Except Fault (Bytes × Option DataCacheStorage) :=
  if requestedBytesToRead = 0 then .ok (buffer, storage)
  else do
    let storage ← initStorage config storage
    let chunks ← cutRequest config path layouts requestedStartOffset requestedBytesToRead fileSize
    let (buffer, storage) ← runTasks (processCacheReadChunk w path (config.expectedTag env)) env chunks buffer storage
    return (buffer, some storage)

end InMemoryCacheReader

/-! ## Local cache files -/

abbrev LocalFiles := String → Option CacheFile

namespace LocalFiles

def remove (files : LocalFiles) (filepaths : List String) : LocalFiles :=
  fun f => if f ∈ filepaths then none else files f

/-- `ReadLocalCacheFile`: the content on a hit. -/
def readLocalCacheFile (files : LocalFiles) (cacheFilepath : String) (chunkSize : Nat) (versionTag : String) :
    Except Fault (Option PageAlignedDataChunk × LocalFiles) :=
  match files cacheFilepath with
  | none => .ok (none, files)
  | some file =>
    if !validateCacheFile file.version versionTag then .ok (none, files.remove [cacheFilepath])
    else if file.content.length < chunkSize then .error .io
    else .ok (some (filledChunk w.page chunkSize (file.content.take chunkSize)), files)

/-- `StoreLocalCacheFile`: whether it returns, and the files. -/
def storeLocalCacheFile (files : LocalFiles) (outcome : StoreOutcome) (dest : String)
    (content : PageAlignedDataChunk) (versionTag : String) : Bool × LocalFiles :=
  match outcome with
  | .noSpace evicted => (true, files.remove evicted)
  | .throws => (false, files)
  | .refused => (true, files)
  | .moved => (true, Function.update files dest (some { content := content.bytes, version := versionTag }))

end LocalFiles

/-- The rest of a path below a directory. -/
def nameUnder (dir filepath : String) : Option (List Char) :=
  let dirPath := (dir ++ "/").toList
  if dirPath.isPrefixOf filepath.toList then some (filepath.toList.drop dirPath.length) else none

/-! ## `DiskCacheReader` -/

structure DiskCacheReader where
  /-- `cache_init_flag`. -/
  initialized : Bool := false
  inMemStorage : Option DataCacheStorage := none
  files : LocalFiles := fun _ => none
  accessMaps : AccessMaps := {}

namespace DiskCacheReader

def init (reader : DiskCacheReader) : DiskCacheReader :=
  if reader.initialized then reader
  else
    { reader with
      initialized := true
      inMemStorage :=
        if config.enableDiskReaderMemCache then
          some (buildPlainStorage config.inMemCacheStorage config.diskReaderMaxMemCacheBlockCount
            config.diskReaderMaxMemCacheTimeoutMillisec)
        else none }

/-- The in-memory layer first: a hit with its pin, or a miss. -/
def memGet (reader : DiskCacheReader) (now : Nat) (blockKey : InMemCacheBlock) (versionTag : String) :
    Option (Nat × DataCacheStorage) × DiskCacheReader :=
  match reader.inMemStorage with
  | none => (none, reader)
  | some storage => match storage.get now blockKey versionTag with
    | (some pinned, storage) => (some (pinned, storage), { reader with inMemStorage := some (storage.release pinned) })
    | (none, storage) => (none, { reader with inMemStorage := some storage })

def memPut (reader : DiskCacheReader) (env : TaskEnv) (blockKey : InMemCacheBlock)
    (content : PageAlignedDataChunk) (versionTag : String) : Except Fault DiskCacheReader :=
  match reader.inMemStorage with
  | none => .ok reader
  | some storage => (storage.put env.putNow env.evicted blockKey content versionTag).map fun storage =>
      { reader with inMemStorage := some storage }

/-- A call on the access maps, with what it returns or throws. -/
def callMaps {α : Type} (reader : DiskCacheReader) (call : MapsCall α) : Except Fault α × DiskCacheReader :=
  match call.run reader.accessMaps with
  | .ok a accessMaps => (.ok a, { reader with accessMaps })
  | .error e accessMaps => (.error e, { reader with accessMaps })

/-- `UpsertCacheFileAccessTimestamp`, where the policy is `lru_sp`. -/
def recordAccess (reader : DiskCacheReader) (env : TaskEnv) (filepath : String) :
    Except Fault Unit × DiskCacheReader :=
  match config.onDiskEvictionPolicy with
  | .creationTimestamp => (.ok (), reader)
  | .lruSingleProc => reader.callMaps (upsertCacheFileAccessTimestamp env.accessNow filepath)

/-- How the `StoreLocalCacheFile` call goes once `EvictCacheFiles` has asked
`EvictCacheBlockLru` where it does. -/
def storeOutcome (reader : DiskCacheReader) (env : TaskEnv) : StoreOutcome × DiskCacheReader :=
  match env.store, config.onDiskEvictionPolicy with
  | .noSpace _, .lruSingleProc =>
    match reader.callMaps (evictCacheBlockLru
        (getOnDiskFilesUnder config.onDiskCacheDirectories fun i => env.listings.getD i .empty)) with
    | (.ok filepathToEvict, reader) => (.noSpace filepathToEvict.toList, reader)
    | (.error _, reader) => (.throws, reader)
  | outcome, _ => (outcome, reader)

/-- The end of a task that read from the remote file. Whatever is thrown
here is caught. -/
def storeFetched (reader : DiskCacheReader) (env : TaskEnv) (dest : String) (blockKey : InMemCacheBlock)
    (content : PageAlignedDataChunk) (versionTag : String) : DiskCacheReader :=
  if !env.canAccessFile then reader
  else
    let (outcome, reader) := reader.storeOutcome config env
    let (returned, files) := reader.files.storeLocalCacheFile outcome dest content versionTag
    let reader := { reader with files }
    if !returned then reader
    else
      let (recorded, reader) := if (files dest).isSome then reader.recordAccess config env dest else (.ok (), reader)
      match recorded with
      | .error _ => reader
      | .ok () => match reader.memPut env blockKey content versionTag with
        | .ok reader => reader
        | .error _ => reader

def processCacheReadChunk (versionTag : String) (info : RemoteFileCachePathInfo) (env : TaskEnv)
    (c : CacheReadChunk)
    (reader : DiskCacheReader) : Except Fault ((Nat × Bytes) × DiskCacheReader) := do
  let reader := { reader with files := reader.files.remove env.removed }
  let cacheFile := getLocalCacheFile info c.alignedStartOffset c.chunkSize
  let cacheDest ← resolveLocalCacheDestination w.platform env.uuid info.cacheDirectory cacheFile path
  let blockKey := c.blockKey path
  match reader.memGet env.getNow blockKey versionTag with
  | (some (pinned, storage), reader) =>
    let copied ← c.copyBufferToRequestedMemory (storage.pinnedData pinned)
    return (copied, reader)
  | (none, reader) =>
    let (found, files) ← if env.canAccessFile then
        reader.files.readLocalCacheFile w cacheDest.destLocalFilepath c.chunkSize versionTag
      else .ok (none, reader.files)
    let reader := { reader with files }
    match found with
    | some content =>
      let copied ← c.copyBufferToRequestedMemory content
      let (recorded, reader) := reader.recordAccess config env cacheDest.destLocalFilepath
      recorded
      let reader ← reader.memPut env blockKey content versionTag
      return (copied, reader)
    | none =>
      let content ← w.fetch path c
      let copied ← c.copyBufferToRequestedMemory content
      return (copied, reader.storeFetched config env cacheDest.destLocalFilepath blockKey content versionTag)

def readAndCache (env : ReadEnv) (buffer : Bytes) (requestedStartOffset requestedBytesToRead fileSize : Nat)
    (reader : DiskCacheReader) : Except Fault (Bytes × DiskCacheReader) :=
  if requestedBytesToRead = 0 then .ok (buffer, reader)
  else do
    let reader := reader.init config
    let info ← buildRemoteFileCachePathInfo w.platform config.onDiskCacheDirectories path
    let grid ← fixedGridChunks requestedStartOffset requestedBytesToRead config.cacheBlockSize fileSize
    runTasks (processCacheReadChunk w config path (config.expectedTag env) info) env grid.chunks buffer reader

def clearCache (reader : DiskCacheReader) : DiskCacheReader :=
  { reader with
    files := fun f => if config.onDiskCacheDirectories.any fun dir => (nameUnder dir f).isSome then none else reader.files f
    inMemStorage := reader.inMemStorage.map DataCacheStorage.clear
    accessMaps := {} }

/-- A scan of the cache directories gives the path, with the prefix of the
file's cache files. -/
def scansFor (fname filepath : String) : Bool :=
  config.onDiskCacheDirectories.any fun dir => (nameUnder dir filepath).any fun name =>
    (getLocalCacheFilePrefix w.platform fname).toList.isPrefixOf name && !name.contains '/'

/-- The files found go, and the file's blocks. -/
def forgetFile (hash : PolicyHash) (fname : String) (reader : DiskCacheReader) : DiskCacheReader :=
  { reader with
    files := fun f => if scansFor w config fname f then none else reader.files f
    inMemStorage := reader.inMemStorage.map (DataCacheStorage.clearFile hash fname) }

/-- `ClearCache(fname)`. Of the files found the access maps have some, and
in which order these are taken out of them makes no difference. -/
def clearCacheFile (hash : PolicyHash) (fname : String) (reader : DiskCacheReader) :
    Except Fault DiskCacheReader := do
  let recorded := reader.accessMaps.cacheFilepathToAccessTimestamp.keys.filter fun f =>
    (reader.files f).isSome && scansFor w config fname f
  let (removed, reader) := reader.callMaps (clearCacheFileTimestamps recorded)
  removed
  return reader.forgetFile w config hash fname

def remapInMemoryDataBlocksForNewBlockSize (env : RemapEnv) (newBlockSize : Nat) (reader : DiskCacheReader) :
    Except Fault DiskCacheReader :=
  match reader.inMemStorage with
  | none => .ok reader
  | some storage => (storage.remapForNewBlockSize env newBlockSize).map fun storage =>
      { reader with inMemStorage := some storage }

end DiskCacheReader

/-! ## `NoopCacheReader` -/

def NoopCacheReader.readAndCache (buffer : Bytes) (requestedStartOffset requestedBytesToRead : Nat) :
    Except Fault Bytes :=
  (w.remote.read path requestedBytesToRead requestedStartOffset).map (writeAt buffer 0)

end Readers

/-! ## What a call does to the access maps -/

/-- Under `lru_sp` no directory is configured twice. -/
def InstanceConfig.DistinctDirectories (config : InstanceConfig) : Prop :=
  config.onDiskEvictionPolicy = .lruSingleProc → config.onDiskCacheDirectories.Nodup

namespace DiskCacheReader

variable {w : World} {config : InstanceConfig} {reader reader' : DiskCacheReader}

theorem callMaps_eq {α : Type} (reader : DiskCacheReader) (call : MapsCall α) :
    ∃ accessMaps, (reader.callMaps call).2 = { reader with accessMaps } := by
  unfold callMaps
  split
  · exact ⟨_, rfl⟩
  · exact ⟨_, rfl⟩

theorem callMaps_keeps {α : Type} {call : MapsCall α} (h : KeepsInverse call reader.accessMaps) :
    ∃ a accessMaps, reader.callMaps call = (.ok a, { reader with accessMaps }) ∧ accessMaps.Inverse := by
  obtain ⟨a, accessMaps, hrun, hinv⟩ := h
  exact ⟨a, accessMaps, by rw [callMaps, hrun], hinv⟩

/-- Recording an access fails only on maps that are not inverse. -/
theorem recordAccess_spec (config : InstanceConfig) (reader : DiskCacheReader) (env : TaskEnv)
    (filepath : String) :
    ∃ accessMaps, (reader.recordAccess config env filepath).2 = { reader with accessMaps } ∧
      (reader.accessMaps.Inverse → (reader.recordAccess config env filepath).1 = .ok () ∧
        accessMaps.Inverse) := by
  unfold recordAccess
  split
  · exact ⟨_, rfl, fun h => ⟨rfl, h⟩⟩
  · obtain ⟨accessMaps, hmaps⟩ := reader.callMaps_eq (upsertCacheFileAccessTimestamp env.accessNow filepath)
    refine ⟨accessMaps, hmaps, fun h => ?_⟩
    obtain ⟨_, _, hcall, hinv⟩ := callMaps_keeps (upsert_keeps h env.accessNow filepath)
    rw [hcall] at hmaps ⊢
    cases hmaps
    exact ⟨rfl, hinv⟩

theorem storeOutcome_spec (config : InstanceConfig) (reader : DiskCacheReader) (env : TaskEnv) :
    ∃ accessMaps, (reader.storeOutcome config env).2 = { reader with accessMaps } ∧
      (config.DistinctDirectories → reader.accessMaps.Inverse → accessMaps.Inverse) := by
  unfold storeOutcome
  split
  next evicted _ hpolicy =>
    generalize hcall : reader.callMaps (evictCacheBlockLru (getOnDiskFilesUnder config.onDiskCacheDirectories
      fun i => env.listings.getD i .empty)) = called
    obtain ⟨accessMaps, hmaps⟩ := reader.callMaps_eq
      (evictCacheBlockLru (getOnDiskFilesUnder config.onDiskCacheDirectories fun i => env.listings.getD i .empty))
    refine ⟨accessMaps, ?_, fun hdirs h => ?_⟩
    · rw [hcall] at hmaps
      split
      · exact hmaps
      · exact hmaps
    · obtain ⟨_, _, hkeeps, hinv⟩ := callMaps_keeps (evict_keeps h fun _ => noFileTwice_of_nodup (hdirs hpolicy)
        fun i => env.listings.getD i .empty)
      rw [hkeeps] at hmaps
      cases hmaps
      exact hinv
  · exact ⟨_, rfl, fun _ h => h⟩

/-- What is left of a store: the files as they were, or as one outcome of
`StoreLocalCacheFile` left them, and the block put or not. -/
theorem storeFetched_spec (config : InstanceConfig) (reader : DiskCacheReader) (env : TaskEnv) (dest : String)
    (key : InMemCacheBlock) (content : PageAlignedDataChunk) (tag : String) :
    ∃ files accessMaps, (files = reader.files ∨
        ∃ outcome, files = (reader.files.storeLocalCacheFile outcome dest content tag).2) ∧
      (reader.storeFetched config env dest key content tag = { reader with files, accessMaps } ∨
        DiskCacheReader.memPut { reader with files, accessMaps } env key content tag =
          .ok (reader.storeFetched config env dest key content tag)) ∧
      (config.DistinctDirectories → reader.accessMaps.Inverse → accessMaps.Inverse) := by
  unfold storeFetched
  split
  · exact ⟨reader.files, reader.accessMaps, .inl rfl, .inl rfl, fun _ h => h⟩
  · obtain ⟨accessMaps, hreader, hkeeps⟩ := reader.storeOutcome_spec config env
    generalize reader.storeOutcome config env = stored at hreader ⊢
    obtain ⟨outcome, reader₁⟩ := stored
    dsimp only at hreader ⊢
    subst hreader
    generalize hfiles : reader.files.storeLocalCacheFile outcome dest content tag = storedFiles
    obtain ⟨returned, files⟩ := storedFiles
    dsimp only
    have houtcome : ∃ outcome, files = (reader.files.storeLocalCacheFile outcome dest content tag).2 :=
      ⟨outcome, by rw [hfiles]⟩
    split
    · exact ⟨files, accessMaps, .inr houtcome, .inl rfl, hkeeps⟩
    · obtain ⟨accessMaps', hrecorded, hkeeps'⟩ :
          ∃ accessMaps', (if (files dest).isSome then recordAccess config { reader with files, accessMaps } env dest
            else (.ok (), { reader with files, accessMaps })).2 =
              { reader with files, accessMaps := accessMaps' } ∧
          (accessMaps.Inverse → accessMaps'.Inverse) := by
        split
        · obtain ⟨accessMaps', hrecorded, hkeeps'⟩ :=
            recordAccess_spec config { reader with files, accessMaps } env dest
          exact ⟨accessMaps', hrecorded, fun h => (hkeeps' h).2⟩
        · exact ⟨accessMaps, rfl, id⟩
      refine ⟨files, accessMaps', .inr houtcome, ?_, fun hdirs h => hkeeps' (hkeeps hdirs h)⟩
      generalize (if (files dest).isSome then recordAccess config { reader with files, accessMaps } env dest
        else (.ok (), { reader with files, accessMaps })) = recorded at hrecorded ⊢
      obtain ⟨result, reader₂⟩ := recorded
      dsimp only at hrecorded ⊢
      subst hrecorded
      split
      · exact .inl rfl
      · split
        next hput => exact .inr hput
        · exact .inl rfl

/-- A file that goes into its place, under the other policy. -/
theorem storeFetched_moved {env : TaskEnv} {dest : String} {key : InMemCacheBlock}
    {content : PageAlignedDataChunk} {tag : String} (hpolicy : config.onDiskEvictionPolicy = .creationTimestamp)
    (hcan : env.canAccessFile = true) (hstore : env.store = .moved)
    (hput : memPut
      { reader with files := Function.update reader.files dest (some { content := content.bytes, version := tag }) }
      env key content tag = .ok reader') :
    reader.storeFetched config env dest key content tag = reader' := by
  have houtcome : reader.storeOutcome config env = (.moved, reader) := by rw [storeOutcome, hstore]
  simp [storeFetched, hcan, houtcome, LocalFiles.storeLocalCacheFile, recordAccess, hpolicy, hput]

theorem init_accessMaps (config : InstanceConfig) (reader : DiskCacheReader) :
    (reader.init config).accessMaps = reader.accessMaps := by
  unfold init
  split
  · rfl
  · rfl

theorem memGet_accessMaps (reader : DiskCacheReader) (now : Nat) (key : InMemCacheBlock) (tag : String) :
    (reader.memGet now key tag).2.accessMaps = reader.accessMaps := by
  unfold memGet
  split
  · rfl
  · split
    · rfl
    · rfl

/-- A lookup does not see the access maps. -/
theorem memGet_withMaps (reader : DiskCacheReader) (accessMaps : AccessMaps) (now : Nat) (key : InMemCacheBlock)
    (tag : String) : (memGet { reader with accessMaps } now key tag).1 = (reader.memGet now key tag).1 := by
  unfold memGet
  cases reader.inMemStorage with
  | none => rfl
  | some storage =>
    dsimp only
    split
    · rfl
    · rfl

theorem memPut_accessMaps {env : TaskEnv} {key : InMemCacheBlock} {content : PageAlignedDataChunk} {tag : String}
    (h : reader.memPut env key content tag = .ok reader') : reader'.accessMaps = reader.accessMaps := by
  unfold memPut at h
  split at h
  · cases h
    rfl
  · obtain ⟨_, _, rfl⟩ := except_map_eq_ok.mp h
    rfl

theorem remap_accessMaps {env : RemapEnv} {newBlockSize : Nat}
    (h : reader.remapInMemoryDataBlocksForNewBlockSize env newBlockSize = .ok reader') :
    reader'.accessMaps = reader.accessMaps := by
  unfold remapInMemoryDataBlocksForNewBlockSize at h
  split at h
  · cases h
    rfl
  · obtain ⟨_, _, rfl⟩ := except_map_eq_ok.mp h
    rfl

theorem storeFetched_inverse (hdirs : config.DistinctDirectories) (h : reader.accessMaps.Inverse) (env : TaskEnv)
    (dest : String) (key : InMemCacheBlock) (content : PageAlignedDataChunk) (tag : String) :
    (reader.storeFetched config env dest key content tag).accessMaps.Inverse := by
  obtain ⟨files, accessMaps, _, hleft | hput, hkeeps⟩ := storeFetched_spec config reader env dest key content tag
  · rw [hleft]
    exact hkeeps hdirs h
  · rw [memPut_accessMaps hput]
    exact hkeeps hdirs h

/-- A task that returns has hit in memory, or hit on disk and put the block in
memory, or stored what it has read. -/
theorem processCacheReadChunk_cases {path tag : String} {info : RemoteFileCachePathInfo} {env : TaskEnv}
    {c : CacheReadChunk} {wrote : Nat × Bytes}
    (ht : processCacheReadChunk w config path tag info env c reader = .ok (wrote, reader')) :
    ∃ found r, memGet { reader with files := reader.files.remove env.removed } env.getNow
      (c.blockKey path) tag = (found, r) ∧
      (reader' = r ∨
        (∃ dest content files accessMaps, r.files.readLocalCacheFile w dest c.chunkSize tag =
          .ok (some content, files) ∧
          (r.accessMaps.Inverse → accessMaps.Inverse) ∧
          memPut { r with files, accessMaps } env (c.blockKey path) content tag = .ok reader') ∨
        ∃ dest content files, w.fetch path c = .ok content ∧
          reader' = storeFetched config { r with files } env dest (c.blockKey path) content tag) := by
  rw [processCacheReadChunk] at ht
  obtain ⟨dest, _, ht⟩ := except_bind_eq_ok.mp ht
  dsimp only at ht
  generalize memGet { reader with files := reader.files.remove env.removed } env.getNow
    (c.blockKey path) tag = got at ht
  obtain ⟨_ | pinned, r⟩ := got
  · refine ⟨none, r, rfl, .inr ?_⟩
    have hmiss : ∀ files, (do
        let content ← w.fetch path c
        let copied ← c.copyBufferToRequestedMemory content
        return (copied, storeFetched config { r with files } env dest.destLocalFilepath
          (c.blockKey path) content tag)) =
          Except.ok (wrote, reader') → ∃ dest content files, w.fetch path c = .ok content ∧
            reader' = storeFetched config { r with files } env dest (c.blockKey path) content tag := by
      intro files ht
      obtain ⟨content, hfetch, ht⟩ := except_bind_eq_ok.mp ht
      obtain ⟨copied, _, ht⟩ := except_bind_eq_ok.mp ht
      cases ht
      exact ⟨_, content, files, hfetch, rfl⟩
    dsimp only at ht
    split at ht
    · obtain ⟨⟨found, files⟩, hread, ht⟩ := except_bind_eq_ok.mp ht
      cases found with
      | some content =>
        obtain ⟨copied, _, ht⟩ := except_bind_eq_ok.mp ht
        obtain ⟨accessMaps, hmaps, hkeeps⟩ := recordAccess_spec config { r with files } env dest.destLocalFilepath
        dsimp only at ht
        rw [hmaps] at ht
        obtain ⟨_, _, ht⟩ := except_bind_eq_ok.mp ht
        obtain ⟨_, hput, ht⟩ := except_bind_eq_ok.mp ht
        cases ht
        exact .inl ⟨_, content, files, accessMaps, hread, fun h => (hkeeps h).2, hput⟩
      | none => exact .inr (hmiss files ht)
    · exact .inr (hmiss r.files ht)
  · obtain ⟨copied, _, ht⟩ := except_bind_eq_ok.mp ht
    cases ht
    exact ⟨some pinned, _, rfl, .inl rfl⟩

theorem processCacheReadChunk_inverse {path tag : String} {info : RemoteFileCachePathInfo} {env : TaskEnv}
    {c : CacheReadChunk} {wrote : Nat × Bytes} (hdirs : config.DistinctDirectories)
    (h : reader.accessMaps.Inverse)
    (ht : processCacheReadChunk w config path tag info env c reader = .ok (wrote, reader')) :
    reader'.accessMaps.Inverse := by
  obtain ⟨found, r, hget, hcases⟩ := processCacheReadChunk_cases ht
  have hr : r.accessMaps.Inverse := by
    have hsame := memGet_accessMaps { reader with files := reader.files.remove env.removed } env.getNow
      (c.blockKey path) tag
    rw [hget] at hsame
    exact hsame ▸ h
  obtain rfl | ⟨_, _, files, accessMaps, _, hkeeps, hput⟩ | ⟨_, _, files, _, rfl⟩ := hcases
  · exact hr
  · rw [memPut_accessMaps hput]
    exact hkeeps hr
  · have hfiles : ({ r with files } : DiskCacheReader).accessMaps.Inverse := hr
    exact storeFetched_inverse hdirs hfiles env _ _ _ _

theorem clearCacheFile_eq {hash : PolicyHash} {fname : String}
    (h : reader.clearCacheFile w config hash fname = .ok reader') :
    ∃ accessMaps, reader' = { reader.forgetFile w config hash fname with accessMaps } := by
  unfold clearCacheFile at h
  dsimp only at h
  obtain ⟨accessMaps, hmaps⟩ := reader.callMaps_eq (clearCacheFileTimestamps
    (reader.accessMaps.cacheFilepathToAccessTimestamp.keys.filter fun f =>
      (reader.files f).isSome && scansFor w config fname f))
  rw [hmaps] at h
  obtain ⟨_, _, h⟩ := except_bind_eq_ok.mp h
  cases h
  exact ⟨accessMaps, rfl⟩

theorem clearCacheFile_returns (h : reader.accessMaps.Inverse) (w : World) (config : InstanceConfig)
    (hash : PolicyHash) (fname : String) : ∃ accessMaps, reader.clearCacheFile w config hash fname =
      .ok { reader.forgetFile w config hash fname with accessMaps } ∧ accessMaps.Inverse := by
  obtain ⟨_, accessMaps, hcall, hinv⟩ := callMaps_keeps (clearCacheFile_keeps h
    (reader.accessMaps.cacheFilepathToAccessTimestamp.keys.filter fun f =>
      (reader.files f).isSome && scansFor w config fname f))
  exact ⟨accessMaps, by rw [clearCacheFile, hcall]; rfl, hinv⟩

end DiskCacheReader

end ReadCacheFs
