/-
Reads that throw.

A read throws where the remote read of one of its tasks does: the range asked
for is not there any more, or the connection breaks. (Upset access maps throw
too, in a task that found its cache file.) The other tasks may have
run, may run yet, or are dropped, as the executor has it; each leaves in the
caches what it had done to them, and the one that threw what its lookup did.
So what a read that throws leaves behind depends on the fate of each task.
-/
import ReadCacheFs.CacheFileSystem

namespace ReadCacheFs

open Lib

/-- How far a task of a read that throws got. -/
inductive TaskFate
  | dropped
  | threw
  | ran
  deriving DecidableEq, Repr

def TaskFate.leave {σ β : Type} (fate : TaskFate) (task : σ → Except Fault (β × σ)) (lookUp : σ → σ) (s : σ) :
    σ :=
  match fate with
  | .dropped => s
  | .threw => lookUp s
  | .ran => match task s with
    | .ok (_, s) => s
    | .error _ => lookUp s

/-- What the tasks of a read leave behind, in the order they run. -/
def leftByTasks {σ : Type} (task : TaskEnv → CacheReadChunk → σ → Except Fault ((Nat × Bytes) × σ))
    (lookUp : TaskEnv → CacheReadChunk → σ → σ) (env : ReadEnv) (fates : Nat → TaskFate)
    (chunks : List CacheReadChunk) (s : σ) : σ :=
  (env.order.order chunks).zipIdx.foldl
    (fun s ci => (fates ci.2).leave (task (env.task ci.2) ci.1) (lookUp (env.task ci.2) ci.1) s) s

section Readers

variable (w : World) (config : InstanceConfig) (path : String)

namespace InMemoryCacheReader

/-- What a task has done before its remote read. -/
def lookUp (versionTag : String) (env : TaskEnv) (c : CacheReadChunk) (storage : DataCacheStorage) :
    DataCacheStorage :=
  match storage.get env.getNow (c.blockKey path) versionTag with
  | (some pinned, storage) => storage.release pinned
  | (none, storage) => storage

/-- After a `ReadAndCache` that threw. -/
def afterThrow (layouts : Layouts) (env : ReadEnv) (fates : Nat → TaskFate)
    (requestedStartOffset requestedBytesToRead fileSize : Nat) (storage : Option DataCacheStorage) :
    Option DataCacheStorage :=
  if requestedBytesToRead = 0 then storage
  else match initStorage config storage with
    | .error _ => storage
    | .ok storage => match cutRequest config path layouts requestedStartOffset requestedBytesToRead fileSize with
      | .error _ => some storage
      | .ok chunks =>
        let tag := config.expectedTag env
        some (leftByTasks (processCacheReadChunk w path tag) (lookUp path tag) env fates chunks storage)

end InMemoryCacheReader

namespace DiskCacheReader

def lookUp (versionTag : String) (info : RemoteFileCachePathInfo) (env : TaskEnv) (c : CacheReadChunk)
    (reader : DiskCacheReader) : DiskCacheReader :=
  let reader := { reader with files := reader.files.remove env.removed }
  match resolveLocalCacheDestination w.platform env.uuid info.cacheDirectory
      (getLocalCacheFile info c.alignedStartOffset c.chunkSize) path with
  | .error _ => reader
  | .ok cacheDest => match reader.memGet env.getNow (c.blockKey path) versionTag with
    | (some _, reader) => reader
    | (none, reader) =>
      if !env.canAccessFile then reader
      else match reader.files.readLocalCacheFile w cacheDest.destLocalFilepath c.chunkSize versionTag with
        | .error _ => reader
        | .ok (none, files) => { reader with files }
        | .ok (some _, files) => (recordAccess config { reader with files } env cacheDest.destLocalFilepath).2

def afterThrow (env : ReadEnv) (fates : Nat → TaskFate) (requestedStartOffset requestedBytesToRead fileSize : Nat)
    (reader : DiskCacheReader) : DiskCacheReader :=
  if requestedBytesToRead = 0 then reader
  else
    let reader := reader.init config
    match buildRemoteFileCachePathInfo w.platform config.onDiskCacheDirectories path with
    | .error _ => reader
    | .ok info => match fixedGridChunks requestedStartOffset requestedBytesToRead config.cacheBlockSize fileSize with
      | .error _ => reader
      | .ok grid =>
        let tag := config.expectedTag env
        leftByTasks (processCacheReadChunk w config path tag info) (lookUp w config path tag info) env fates grid.chunks
          reader

end DiskCacheReader

end Readers

namespace CacheFileSystem

variable (w : World)

/-- After a `ReadImpl` that threw in its size query. -/
def afterFailedStat (env : ReadEnv) (path : String) (fs : CacheFileSystem) : CacheFileSystem :=
  { fs with metadataCache := fs.metadataCache.map fun cache => (cache.get (steadyMillis env.statNow) path).2 }

/-- After a `ReadImpl` that threw past it. A position is not moved. -/
def afterFailedRead (env : ReadEnv) (fates : Nat → TaskFate) (path : String) (nrBytes location : Nat)
    (fs : CacheFileSystem) : CacheFileSystem :=
  let (fileSize, fs) := fs.getFileSize w env path
  if fileSize ≤ location ∨ env.matchAnyExclusion then fs
  else
    let bytesToRead := min nrBytes (fileSize - location)
    match fs.config.cacheType with
    | .noop => fs
    | .inMem =>
      { fs with
        inMemStorage := InMemoryCacheReader.afterThrow w fs.config path fs.layouts env fates location bytesToRead fileSize
          fs.inMemStorage }
    | .onDisk =>
      { fs with
        diskReader := DiskCacheReader.afterThrow w fs.config path env fates location bytesToRead fileSize fs.diskReader }

end CacheFileSystem

end ReadCacheFs
