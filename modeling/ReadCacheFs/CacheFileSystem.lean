/-
`CacheFileSystem`: open handles, the metadata cache, `ReadImpl`, and what a
session does to it: reads, settings, layouts, clears and evictions.

`fsStep` takes one such operation at a time. A setting that is refused
throws in its own statement and changes nothing; a fault in any other
operation ends the run.
-/
import ReadCacheFs.Readers
import ReadCacheFs.SharedValueLru

namespace ReadCacheFs

open Lib

structure FileHandle where
  path : String
  position : Nat := 0
  deriving DecidableEq, Repr

/-- A read that has returned: what it was asked, and the buffer it got and left. -/
structure ReadRecord where
  path : String
  nrBytes : Nat
  location : Nat
  buffer : Bytes
  returned : Nat
  filled : Bytes
  deriving DecidableEq, Repr

structure MetadataConfig where
  enableMetadataCache : Bool := true
  maxMetadataCacheEntry : Nat := 0
  metadataCacheEntryTimeoutMillisec : Nat := 0
  deriving DecidableEq, Repr

structure CacheFileSystem where
  config : InstanceConfig
  metadataConfig : MetadataConfig := {}
  layouts : Layouts := ∅
  /-- The file size by path; `none` while the cache is off. -/
  metadataCache : Option (SharedValueLruCache String Nat) := none
  inMemStorage : Option DataCacheStorage := none
  hasDiskReader : Bool := false
  diskReader : DiskCacheReader := {}
  handles : List FileHandle := []
  reads : List ReadRecord := []

inductive FsAct
  | openFile (path : String)
  | seek (handle position : Nat)
  /-- `Read` at the handle's position. -/
  | read (handle : Nat) (buffer : Bytes) (nrBytes : Nat) (env : ReadEnv)
  | readAt (handle : Nat) (buffer : Bytes) (nrBytes location : Nat) (env : ReadEnv)
  | setCacheBlockSize (newBlockSize : Nat) (inMemEnv diskEnv : RemapEnv)
  /-- Every other setting. -/
  | configure (config : InstanceConfig) (metadataConfig : MetadataConfig)
  /-- `Register`, with the order `std::sort` leaves the extents in. -/
  | registerLayout (path : String) (extents sorted : List FileExtent)
  | clearLayouts
  | clearLayout (path : String)
  | clearCache
  | clearCacheFile (hash : PolicyHash) (filepath : String)
  /-- Cache files go, by an eviction or otherwise. -/
  | removeFiles (filepaths : List String)
  | evict (objCacheKey : String)

def isPowerOfTwo (n : Nat) : Bool := n &&& (n - 1) == 0

namespace CacheFileSystem

variable (w : World)

def getFileSize (env : ReadEnv) (path : String) (fs : CacheFileSystem) : Nat × CacheFileSystem :=
  match fs.metadataCache with
  | none => ((w.remote path).length, fs)
  | some cache => match cache.get (steadyMillis env.statNow) path with
    | (some fileSize, cache) => (fileSize, { fs with metadataCache := some cache })
    | (none, cache) =>
      let fileSize := (w.remote path).length
      (fileSize, { fs with metadataCache := some (cache.put (steadyMillis env.statPutNow) path fileSize) })

def readAndCache (env : ReadEnv) (path : String) (buffer : Bytes) (location bytesToRead fileSize : Nat)
    (fs : CacheFileSystem) : Except Fault (Bytes × CacheFileSystem) :=
  match fs.config.cacheType with
  | .noop => (NoopCacheReader.readAndCache w path buffer location bytesToRead).map (·, fs)
  | .inMem =>
    (InMemoryCacheReader.readAndCache w fs.config path fs.layouts env buffer location bytesToRead fileSize
      fs.inMemStorage).map fun (buffer, inMemStorage) => (buffer, { fs with inMemStorage })
  | .onDisk =>
    (DiskCacheReader.readAndCache w fs.config path env buffer location bytesToRead fileSize fs.diskReader).map
      fun (buffer, diskReader) => (buffer, { fs with diskReader })

/-- The bytes read, and the buffer. -/
def readImpl (env : ReadEnv) (path : String) (buffer : Bytes) (nrBytes location : Nat) (fs : CacheFileSystem) :
    Except Fault ((Nat × Bytes) × CacheFileSystem) :=
  let (fileSize, fs) := fs.getFileSize w env path
  if fileSize ≤ location then .ok ((0, buffer), fs)
  else
    let bytesToRead := min nrBytes (fileSize - location)
    if env.matchAnyExclusion then
      (w.remote.read path bytesToRead location).map fun bs => ((bytesToRead, writeAt buffer 0 bs), fs)
    else
      (fs.readAndCache w env path buffer location bytesToRead fileSize).map fun (buffer, fs) =>
        ((bytesToRead, buffer), fs)

def readHandle (env : ReadEnv) (path : String) (buffer : Bytes) (nrBytes location : Nat) (fs : CacheFileSystem) :
    Except Fault (Nat × CacheFileSystem) :=
  (fs.readImpl w env path buffer nrBytes location).map fun ((returned, filled), fs) =>
    (returned, { fs with reads := fs.reads ++ [{ path, nrBytes, location, buffer, returned, filled }] })

/-- `SetCacheReader` and `SetMetadataCache`, which every open calls. -/
def initializeGlobalConfig (fs : CacheFileSystem) : CacheFileSystem :=
  { fs with
    hasDiskReader := fs.hasDiskReader || fs.config.cacheType = .onDisk
    metadataCache :=
      if !fs.metadataConfig.enableMetadataCache then none
      else some (fs.metadataCache.getD
        { maxEntries := fs.metadataConfig.maxMetadataCacheEntry
          timeoutMillisec := fs.metadataConfig.metadataCacheEntryTimeoutMillisec }) }

/-- `RemapInMemoryDataCachesAfterBlockSizeChange`. -/
def remapInMemoryDataCaches (newBlockSize : Nat) (inMemEnv diskEnv : RemapEnv) (fs : CacheFileSystem) :
    Except Fault CacheFileSystem := do
  let inMemStorage ← match fs.inMemStorage with
    | none => .ok none
    | some storage => (storage.remapForNewBlockSize inMemEnv newBlockSize).map some
  let diskReader ← fs.diskReader.remapInMemoryDataBlocksForNewBlockSize diskEnv newBlockSize
  return { fs with inMemStorage, diskReader }

/-- `UpdateCacheBlockSize`. -/
def setCacheBlockSize (newBlockSize : Nat) (inMemEnv diskEnv : RemapEnv) (fs : CacheFileSystem) :
    Except Fault CacheFileSystem :=
  if newBlockSize = 0 ∨ ¬ isPowerOfTwo newBlockSize then .ok fs
  else do
    let fs ← if fs.config.cacheBlockSize ≠ newBlockSize then
        fs.remapInMemoryDataCaches newBlockSize inMemEnv diskEnv
      else .ok fs
    return { fs with config := { fs.config with cacheBlockSize := newBlockSize } }

def clearCache (fs : CacheFileSystem) : CacheFileSystem :=
  { fs with
    metadataCache := fs.metadataCache.map SharedValueLruCache.clear
    inMemStorage := fs.inMemStorage.map DataCacheStorage.clear
    diskReader := if fs.hasDiskReader then fs.diskReader.clearCache fs.config else fs.diskReader }

def clearCacheFile (hash : PolicyHash) (filepath : String) (fs : CacheFileSystem) :
    Except Fault CacheFileSystem :=
  (if fs.hasDiskReader then fs.diskReader.clearCacheFile w fs.config hash filepath else .ok fs.diskReader).map
    fun diskReader =>
      { fs with
        metadataCache := fs.metadataCache.map fun cache => cache.clearFrom filepath (· == filepath)
        inMemStorage := fs.inMemStorage.map (DataCacheStorage.clearFile hash filepath)
        diskReader }

end CacheFileSystem

open CacheFileSystem in
def fsStep (w : World) (fs : CacheFileSystem) : FsAct → Except Fault CacheFileSystem
  | .openFile path =>
    let fs := fs.initializeGlobalConfig
    .ok { fs with handles := fs.handles ++ [{ path }] }
  | .seek h position => .ok { fs with handles := fs.handles.modify h ({ · with position }) }
  | .read h buffer nrBytes env => match fs.handles[h]? with
    | none => .ok fs
    | some handle => do
      let (bytesRead, fs) ← fs.readHandle w env handle.path buffer nrBytes handle.position
      return { fs with handles := fs.handles.modify h ({ · with position := u64 (handle.position + bytesRead) }) }
  | .readAt h buffer nrBytes location env => match fs.handles[h]? with
    | none => .ok fs
    | some handle => (fs.readHandle w env handle.path buffer nrBytes location).map (·.2)
  | .setCacheBlockSize newBlockSize inMemEnv diskEnv => fs.setCacheBlockSize newBlockSize inMemEnv diskEnv
  | .configure config metadataConfig =>
    .ok { fs with config := { config with cacheBlockSize := fs.config.cacheBlockSize }, metadataConfig
                  hasDiskReader := fs.hasDiskReader || config.cacheType = .onDisk }
  | .registerLayout path _ sorted => .ok { fs with layouts := fs.layouts.register path sorted }
  | .clearLayouts => .ok { fs with layouts := ∅ }
  | .clearLayout path => .ok { fs with layouts := fs.layouts.clearPath path }
  | .clearCache => .ok fs.clearCache
  | .clearCacheFile hash filepath => fs.clearCacheFile w hash filepath
  | .removeFiles filepaths =>
    .ok { fs with diskReader := { fs.diskReader with files := fs.diskReader.files.remove filepaths } }
  | .evict objCacheKey =>
    .ok { fs with
      inMemStorage := fs.inMemStorage.map (DataCacheStorage.evict objCacheKey)
      diskReader := { fs.diskReader with
        inMemStorage := fs.diskReader.inMemStorage.map (DataCacheStorage.evict objCacheKey) } }

end ReadCacheFs
