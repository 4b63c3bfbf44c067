/-
Reads through the cache are reads of the remote files: over a whole session
of reads, settings, layouts, clears and evictions, with either caching
reader or none, in any order of the tasks of a read.

What a session keeps is `MirrorsRemote`: every cache holds what the remote
files have, the metadata cache their sizes, and the settings are ones a read
can work under.
-/
import Mathlib.Algebra.Order.Group.Nat
import ReadCacheFs.CacheFileSystem
import ReadCacheFs.DiskTransparency
import ReadCacheFs.RemapOverlap

namespace ReadCacheFs

open Lib

variable {w : World} {path : String}

/-! ## The metadata cache -/

namespace SharedValueLruCache

/-- The sizes cached are those of the remote files. -/
structure MirrorsSizes (remote : Remote) (cache : SharedValueLruCache String Nat) : Prop where
  ok : cache.OK
  sizes : ∀ p n ts, cache.find? p = some (n, ts) → n = (remote p).length

variable {remote : Remote} {cache : SharedValueLruCache String Nat}

theorem MirrorsSizes.new (remote : Remote) (maxEntries timeoutMillisec : Nat) :
    MirrorsSizes remote { maxEntries, timeoutMillisec } := by
  refine ⟨Indexes.nil fun k => ?_, fun p n ts h => ?_⟩
  · simp
  · simp [find?] at h

theorem MirrorsSizes.get (h : cache.MirrorsSizes remote) (now : Nat) (p : String) :
    (cache.get now p).2.MirrorsSizes remote ∧ ∀ n, (cache.get now p).1 = some n → n = (remote p).length := by
  obtain ⟨hok, hget⟩ := get_spec h.ok now p
  cases hp : (cache.get now p).1 with
  | some v =>
    rw [hp] at hget
    obtain ⟨⟨ts, hts, _⟩, hsame⟩ := hget
    refine ⟨⟨hok, fun q n ts' hq => h.sizes q n ts' (hsame q ▸ hq)⟩, fun n hn => ?_⟩
    cases hn
    exact h.sizes p v ts hts
  | none =>
    rw [hp] at hget
    obtain ⟨hgone, hsame⟩ := hget
    refine ⟨⟨hok, fun q n ts' hq => ?_⟩, fun n hn => by cases hn⟩
    by_cases hqp : q = p
    · rw [hqp, hgone] at hq
      cases hq
    · exact h.sizes q n ts' (hsame q hqp ▸ hq)

theorem MirrorsSizes.put (h : cache.MirrorsSizes remote) (now : Nat) (p : String) :
    (cache.put now p (remote p).length).MirrorsSizes remote := by
  refine ⟨put_ok h.ok _ _ _, fun q n ts hq => ?_⟩
  rcases put_find? h.ok hq with ⟨rfl, hx⟩ | ⟨_, hold⟩
  · cases hx
    rfl
  · exact h.sizes q n ts hold

theorem MirrorsSizes.clear (remote : Remote) (cache : SharedValueLruCache String Nat) :
    cache.clear.MirrorsSizes remote := by
  refine ⟨clear_spec.1, fun p n ts h => ?_⟩
  rw [clear_spec.2 p] at h
  cases h

theorem MirrorsSizes.clearFrom (h : cache.MirrorsSizes remote) (startKey : String) (filter : String → Bool) :
    (cache.clearFrom startKey filter).MirrorsSizes remote := by
  obtain ⟨hok, hkeys⟩ := clearFrom_spec h.ok startKey filter
  refine ⟨hok, fun p n ts hp => ?_⟩
  by_cases hm : p ∈ cache.keysFrom startKey filter
  · rw [(hkeys p).1 hm] at hp
    cases hp
  · exact h.sizes p n ts ((hkeys p).2 hm ▸ hp)

end SharedValueLruCache

/-! ## What a read must do -/

/-- The read returned the number of bytes there are from its location on, as
far as it asked for them, and the buffer has just these: what the reader
without a cache delivers. -/
structure ReadRecord.Transparent (w : World) (r : ReadRecord) : Prop where
  returned : r.returned = min r.nrBytes ((w.remote r.path).length - r.location)
  filled : r.filled = writeAt r.buffer 0 (slice (w.remote r.path) r.location r.returned)
  noop : r.location < (w.remote r.path).length →
    NoopCacheReader.readAndCache w r.path r.buffer r.location r.returned = .ok r.filled

theorem noop_readAndCache (path : String) {buffer : Bytes} {location n : Nat}
    (hin : location + n ≤ (w.remote path).length) :
    NoopCacheReader.readAndCache w path buffer location n =
      .ok (writeAt buffer 0 (slice (w.remote path) location n)) := by
  rw [NoopCacheReader.readAndCache, Remote.read, if_pos hin]
  rfl

/-- A read inside the file. -/
theorem ReadRecord.Transparent.inside {buffer : Bytes} {nrBytes location n : Nat}
    (hn : n = min nrBytes ((w.remote path).length - location)) (hloc : location < (w.remote path).length) :
    Transparent w ⟨path, nrBytes, location, buffer, n, writeAt buffer 0 (slice (w.remote path) location n)⟩ :=
  ⟨hn, rfl, fun _ => noop_readAndCache path (by dsimp only; omega)⟩

/-- A read at the end of the file or past it. -/
theorem ReadRecord.Transparent.atEnd {buffer : Bytes} {nrBytes location : Nat}
    (hloc : (w.remote path).length ≤ location) :
    Transparent w ⟨path, nrBytes, location, buffer, 0, buffer⟩ := by
  refine ⟨?_, by simp [writeAt, slice], fun hlt => ?_⟩
  · dsimp only
    omega
  · dsimp only at hlt
    omega

/-! ## What a session keeps -/

namespace CacheFileSystem

variable {fs : CacheFileSystem}

/-- A stat gives the size of the remote file and touches the metadata cache alone. -/
theorem getFileSize_spec (h : ∀ cache, fs.metadataCache = some cache → cache.MirrorsSizes w.remote)
    (env : ReadEnv) (path : String) :
    ∃ metadataCache, fs.getFileSize w env path = ((w.remote path).length, { fs with metadataCache }) ∧
      ∀ cache, metadataCache = some cache → cache.MirrorsSizes w.remote := by
  unfold CacheFileSystem.getFileSize
  split
  · exact ⟨_, rfl, h⟩
  next cache hcache =>
    obtain ⟨hget, hhit⟩ := (h cache hcache).get (steadyMillis env.statNow) path
    split
    next n cache' hg =>
      rw [hg] at hget hhit
      exact ⟨some cache', by rw [hhit n rfl], fun _ hc => Option.some.inj hc ▸ hget⟩
    next cache' hg =>
      rw [hg] at hget
      exact ⟨_, rfl, fun _ hc => Option.some.inj hc ▸ hget.put _ path⟩

theorem initializeGlobalConfig_sizes (h : ∀ cache, fs.metadataCache = some cache → cache.MirrorsSizes w.remote)
    (cache : SharedValueLruCache String Nat) (hc : fs.initializeGlobalConfig.metadataCache = some cache) :
    cache.MirrorsSizes w.remote := by
  simp only [CacheFileSystem.initializeGlobalConfig] at hc
  split at hc
  · cases hc
  · cases hc
    cases hm : fs.metadataCache with
    | none => exact .new _ _ _
    | some cache => exact h cache hm

structure MirrorsRemote (w : World) (fs : CacheFileSystem) : Prop where
  config : fs.config.OK
  blockSize : BlockSizeOK fs.config.cacheBlockSize
  layouts : LayoutsOK fs.layouts
  metadata : ∀ cache, fs.metadataCache = some cache → cache.MirrorsSizes w.remote
  storage : HeldMirrors w.remote fs.inMemStorage
  disk : fs.diskReader.MirrorsRemote w
  reads : ∀ r ∈ fs.reads, r.Transparent w

theorem MirrorsRemote.getFileSize (h : fs.MirrorsRemote w) (env : ReadEnv) (path : String) :
    (fs.getFileSize w env path).1 = (w.remote path).length ∧ (fs.getFileSize w env path).2.MirrorsRemote w := by
  obtain ⟨cache, hstat, hcache⟩ := getFileSize_spec h.metadata env path
  rw [hstat]
  exact ⟨rfl, { h with metadata := hcache }⟩

theorem MirrorsRemote.readAndCache (h : fs.MirrorsRemote w) (hsized : w.remote.Sized) (hp : w.platform.OK)
    (env : ReadEnv) {buffer : Bytes} {location n : Nat} (hbuf : n ≤ buffer.length)
    (hin : location + n ≤ (w.remote path).length) :
    ∃ fs', fs.readAndCache w env path buffer location n (w.remote path).length =
        .ok (writeAt buffer 0 (slice (w.remote path) location n), fs') ∧ fs'.MirrorsRemote w := by
  unfold CacheFileSystem.readAndCache
  split
  · rw [noop_readAndCache path hin]
    exact ⟨fs, rfl, h⟩
  next hinMem =>
    obtain ⟨storage, hread, hs⟩ :=
      InMemoryCacheReader.readAndCache_spec hsized h.config hinMem h.blockSize h.layouts env hbuf hin h.storage
    rw [hread]
    exact ⟨_, rfl, { h with storage := hs }⟩
  next honDisk =>
    obtain ⟨reader, hread, hr⟩ :=
      DiskCacheReader.readAndCache_spec hsized hp h.config honDisk h.blockSize env hbuf hin h.disk
    rw [hread]
    exact ⟨_, rfl, { h with disk := hr }⟩

theorem MirrorsRemote.readImpl (h : fs.MirrorsRemote w) (hsized : w.remote.Sized) (hp : w.platform.OK)
    (env : ReadEnv) (path : String) {buffer : Bytes} {nrBytes : Nat} (hbuf : nrBytes ≤ buffer.length)
    (location : Nat) :
    ∃ n filled fs', fs.readImpl w env path buffer nrBytes location = .ok ((n, filled), fs') ∧
      fs'.MirrorsRemote w ∧
      ReadRecord.Transparent w ⟨path, nrBytes, location, buffer, n, filled⟩ := by
  obtain ⟨hsize, h₁⟩ := h.getFileSize env path
  unfold CacheFileSystem.readImpl
  generalize fs.getFileSize w env path = stat at hsize h₁ ⊢
  obtain ⟨fileSize, fs₁⟩ := stat
  dsimp only at hsize h₁ ⊢
  subst hsize
  split
  next hend => exact ⟨0, buffer, fs₁, rfl, h₁, .atEnd hend⟩
  next hloc =>
    obtain ⟨n, hn⟩ : ∃ n, n = min nrBytes ((w.remote path).length - location) := ⟨_, rfl⟩
    have hin : location + n ≤ (w.remote path).length := by omega
    have hr : ReadRecord.Transparent w
      ⟨path, nrBytes, location, buffer, n, writeAt buffer 0 (slice (w.remote path) location n)⟩ :=
        .inside hn (by omega)
    refine ⟨n, writeAt buffer 0 (slice (w.remote path) location n), ?_⟩
    rw [← hn]
    split
    · refine ⟨fs₁, ?_, h₁, hr⟩
      rw [Remote.read, if_pos hin]
      rfl
    · obtain ⟨fs', hread, h'⟩ := h₁.readAndCache hsized hp env (by omega : n ≤ buffer.length) hin
      refine ⟨fs', ?_, h', hr⟩
      rw [hread]
      rfl

theorem MirrorsRemote.readHandle (h : fs.MirrorsRemote w) (hsized : w.remote.Sized) (hp : w.platform.OK)
    (env : ReadEnv) (path : String) {buffer : Bytes} {nrBytes : Nat} (hbuf : nrBytes ≤ buffer.length)
    (location : Nat) :
    ∃ n fs', fs.readHandle w env path buffer nrBytes location = .ok (n, fs') ∧ fs'.MirrorsRemote w := by
  obtain ⟨n, filled, fs₁, hread, h₁, hr⟩ := h.readImpl hsized hp env path hbuf location
  refine ⟨n, { fs₁ with reads := fs₁.reads ++ [⟨path, nrBytes, location, buffer, n, filled⟩] }, ?_,
    { h₁ with reads := ?_ }⟩
  · rw [CacheFileSystem.readHandle, hread]
    rfl
  · intro r hmem
    rcases List.mem_append.mp hmem with hmem | hmem
    · exact h₁.reads r hmem
    · rw [List.mem_singleton.mp hmem]
      exact hr

theorem MirrorsRemote.initializeGlobalConfig (h : fs.MirrorsRemote w) :
    fs.initializeGlobalConfig.MirrorsRemote w :=
  { h with metadata := initializeGlobalConfig_sizes h.metadata }

/-- A power of two of 64 bits. -/
theorem BlockSizeOK.of_accepted {newBlockSize : Nat} (hpow : ¬(newBlockSize = 0 ∨ ¬isPowerOfTwo newBlockSize))
    (hwide : newBlockSize < 2 ^ 64) : BlockSizeOK newBlockSize := by
  obtain ⟨hpos, hpow⟩ := not_or.mp hpow
  have hzero : newBlockSize &&& (newBlockSize - 1) = 0 := by simpa [isPowerOfTwo] using not_not.mp hpow
  obtain ⟨k, rfl⟩ := (Nat.and_sub_one_eq_zero_iff_isPowerOfTwo hpos).mp hzero
  have hk : k < 64 := (Nat.pow_lt_pow_iff_right (by decide)).mp hwide
  exact ⟨Nat.pos_of_ne_zero hpos, Nat.pow_le_pow_right (by decide) (by omega)⟩

theorem MirrorsRemote.setCacheBlockSize (h : fs.MirrorsRemote w) (hsized : w.remote.Sized) {newBlockSize : Nat}
    (hwide : newBlockSize < 2 ^ 64) (inMemEnv diskEnv : RemapEnv) :
    ∃ fs', fs.setCacheBlockSize newBlockSize inMemEnv diskEnv = .ok fs' ∧ fs'.MirrorsRemote w := by
  unfold CacheFileSystem.setCacheBlockSize
  split
  · exact ⟨fs, rfl, h⟩
  next haccepted =>
    have hb := BlockSizeOK.of_accepted haccepted hwide
    have hremap : ∃ fs', fs.remapInMemoryDataCaches newBlockSize inMemEnv diskEnv = .ok fs' ∧
        fs'.MirrorsRemote w := by
      obtain ⟨reader, hreader, hr⟩ := h.disk.remap hsized diskEnv hb
      unfold CacheFileSystem.remapInMemoryDataCaches
      cases hs : fs.inMemStorage with
      | none =>
        rw [hreader]
        exact ⟨_, rfl, { h with storage := .none, disk := hr }⟩
      | some storage =>
        obtain ⟨storage', hstorage, h'⟩ := (h.storage storage hs).remap hsized inMemEnv hb.pos hb.le
        dsimp only
        rw [hstorage, hreader]
        exact ⟨_, rfl, { h with storage := .some h', disk := hr }⟩
    have hset : ∀ fs' : CacheFileSystem, fs'.MirrorsRemote w →
        MirrorsRemote w { fs' with config := { fs'.config with cacheBlockSize := newBlockSize } } :=
      fun fs' h' => { h' with config := { h'.config with }, blockSize := hb }
    split
    · obtain ⟨fs', hfs', h'⟩ := hremap
      rw [hfs']
      exact ⟨_, rfl, hset fs' h'⟩
    · exact ⟨_, rfl, hset fs h⟩

theorem MirrorsRemote.clearCache (h : fs.MirrorsRemote w) : fs.clearCache.MirrorsRemote w := by
  refine { h with metadata := fun cache hc => ?_, storage := ?_, disk := ?_ }
  · obtain ⟨old, _, rfl⟩ := Option.map_eq_some_iff.mp hc
    exact .clear _ _
  · exact h.storage.map fun s hs => (DataCacheStorage.clear_spec hs).1
  · dsimp only [CacheFileSystem.clearCache]
    split
    · exact h.disk.clearCache _
    · exact h.disk

theorem MirrorsRemote.clearCacheFile (h : fs.MirrorsRemote w) (hash : PolicyHash) (filepath : String) :
    ∃ fs', fs.clearCacheFile w hash filepath = .ok fs' ∧ fs'.MirrorsRemote w := by
  obtain ⟨diskReader, hclear, hdisk⟩ : ∃ reader, (if fs.hasDiskReader then
      fs.diskReader.clearCacheFile w fs.config hash filepath else .ok fs.diskReader) = .ok reader ∧
      reader.MirrorsRemote w := by
    split
    · exact h.disk.clearCacheFile fs.config hash filepath
    · exact ⟨_, rfl, h.disk⟩
  rw [CacheFileSystem.clearCacheFile, hclear]
  refine ⟨_, rfl, { h with metadata := fun cache hc => ?_, storage := ?_, disk := hdisk }⟩
  · obtain ⟨old, hold, rfl⟩ := Option.map_eq_some_iff.mp hc
    exact (h.metadata old hold).clearFrom _ _
  · exact h.storage.map fun s hs => (DataCacheStorage.clearFile_spec hs hash filepath).1

end CacheFileSystem

/-! ## Sessions -/

/-- What the callers keep to: a buffer has room for what is read into it, a
block size has 64 bits, the extents of a layout do not wrap. -/
def FsAct.OK : FsAct → Prop
  | .read _ buffer nrBytes _ => nrBytes ≤ buffer.length
  | .readAt _ buffer nrBytes _ _ => nrBytes ≤ buffer.length
  | .setCacheBlockSize newBlockSize _ _ => newBlockSize < 2 ^ 64
  | .configure config _ => config.OK
  | .registerLayout _ extents sorted => SortsTo extents sorted ∧ ∀ e ∈ extents, e.NoWrap
  | _ => True

/-- No operation of a session fails, and each keeps the invariant. -/
theorem fsStep_spec (hsized : w.remote.Sized) (hp : w.platform.OK) {fs : CacheFileSystem} {a : FsAct} (ha : a.OK)
    (h : fs.MirrorsRemote w) : ∃ fs', fsStep w fs a = .ok fs' ∧ fs'.MirrorsRemote w := by
  cases a with
  | openFile path => exact ⟨_, rfl, { h.initializeGlobalConfig with }⟩
  | seek handle position => exact ⟨_, rfl, { h with }⟩
  | read handle buffer nrBytes env =>
    unfold fsStep
    dsimp only
    split
    · exact ⟨fs, rfl, h⟩
    next hd _ =>
      obtain ⟨n, fs', hread, h'⟩ := h.readHandle hsized hp env hd.path ha hd.position
      rw [hread]
      exact ⟨_, rfl, { h' with }⟩
  | readAt handle buffer nrBytes location env =>
    unfold fsStep
    dsimp only
    split
    · exact ⟨fs, rfl, h⟩
    next hd _ =>
      obtain ⟨n, fs', hread, h'⟩ := h.readHandle hsized hp env hd.path ha location
      rw [hread]
      exact ⟨_, rfl, h'⟩
  | setCacheBlockSize newBlockSize inMemEnv diskEnv => exact h.setCacheBlockSize hsized ha inMemEnv diskEnv
  | configure config metadataConfig =>
    exact ⟨_, rfl, { h with config := { ha with }, blockSize := h.blockSize }⟩
  | registerLayout path extents sorted => exact ⟨_, rfl, { h with layouts := h.layouts.register ha.1 ha.2 }⟩
  | clearLayouts => exact ⟨_, rfl, { h with layouts := .empty }⟩
  | clearLayout path => exact ⟨_, rfl, { h with layouts := h.layouts.clearPath }⟩
  | clearCache => exact ⟨_, rfl, h.clearCache⟩
  | clearCacheFile hash filepath => exact h.clearCacheFile hash filepath
  | removeFiles filepaths =>
    exact ⟨_, rfl, { h with disk := { h.disk with files := h.disk.files.remove filepaths } }⟩
  | evict objCacheKey =>
    have hlose := fun s hs => DataCacheStorage.evict_spec (s := s) hs objCacheKey
    exact ⟨_, rfl, { h with storage := h.storage.map hlose, disk := { h.disk with mem := h.disk.mem.map hlose } }⟩

/-- A session that starts, with what earlier sessions left on disk. -/
theorem CacheFileSystem.MirrorsRemote.start {config : InstanceConfig} (hc : config.OK)
    (hb : BlockSizeOK config.cacheBlockSize) (metadataConfig : MetadataConfig) {files : LocalFiles}
    (hf : files.MirrorsRemote w) :
    MirrorsRemote w { config, metadataConfig, diskReader := { files } } where
  config := hc
  blockSize := hb
  layouts := .empty
  metadata _ hn := by cases hn
  storage := .none
  disk := ⟨.none, hf, .empty⟩
  reads r hr := by cases hr

/-- **Reads are transparent.** A session runs to its end, and each of its
reads returned and left in the buffer what the remote file has. What it
leaves on disk will serve the next session. -/
theorem reads_transparent (w : World) (hsized : w.remote.Sized) (hp : w.platform.OK)
    (config : InstanceConfig) (hc : config.OK) (hb : BlockSizeOK config.cacheBlockSize)
    (metadataConfig : MetadataConfig) (files : LocalFiles) (hf : files.MirrorsRemote w) (as : List FsAct)
    (has : ∀ a ∈ as, a.OK) :
    ∃ fs, as.foldlM (fsStep w) { config, metadataConfig, diskReader := { files } } = .ok fs ∧
      (∀ r ∈ fs.reads, r.Transparent w) ∧ fs.diskReader.files.MirrorsRemote w := by
  obtain ⟨fs, hrun, h⟩ := foldlM_total (I := CacheFileSystem.MirrorsRemote w)
    (fun fs a ha h => fsStep_spec hsized hp (has a ha) h) (.start hc hb metadataConfig hf)
  exact ⟨fs, hrun, h.reads, h.disk.files⟩

theorem invalidationConfig_ok : invalidationConfig.OK where
  storage hinMem := by cases hinMem
  directories _ := by simp [invalidationConfig]
  noSlash _ := by decide +kernel
  distinct hpolicy := by cases hpolicy

def lruConfig : InstanceConfig := { invalidationConfig with onDiskEvictionPolicy := .lruSingleProc }

theorem lruConfig_ok : lruConfig.OK where
  storage hinMem := by cases hinMem
  directories _ := by simp [lruConfig, invalidationConfig]
  noSlash _ := by decide +kernel
  distinct _ := by simp [lruConfig, invalidationConfig]

/-- Through the disk and its in-memory layer, across an eviction, a
block-size change, a file removed, a clear, and past the end. -/
def mixedSession : List FsAct :=
  [ .openFile "s3://b/x", .readAt 0 [0, 0, 0] 3 1 { task := fun _ => { store := .noSpace [], listings := [oneFile] } }
  , .readAt 0 [0, 0, 0] 3 1 {}, .setCacheBlockSize 2 plainRemapEnv plainRemapEnv, .readAt 0 [0, 0, 0] 3 1 {}, .removeFiles ["/c/x"], .clearCacheFile .inserted "s3://b/x"
  , .registerLayout "s3://b/x" [⟨0, 3⟩] [⟨0, 3⟩], .seek 0 2, .read 0 [0, 0, 0, 0] 4 {}, .readAt 0 [0] 1 9 {} ]

theorem reads_transparent_onDisk :
    ∃ fs, mixedSession.foldlM (fsStep invalidationWorld)
        { config := lruConfig, metadataConfig := {}, diskReader := { files := fun _ => none } } = .ok fs ∧
      (∀ r ∈ fs.reads, r.Transparent invalidationWorld) ∧
        fs.diskReader.files.MirrorsRemote invalidationWorld := by
  refine reads_transparent invalidationWorld (fun _ => by simp [invalidationWorld]) knownSha256_ok lruConfig
    lruConfig_ok ⟨by decide, by decide⟩ {} _ (.empty _) mixedSession ?_
  intro a ha
  simp only [mixedSession, List.mem_cons, List.not_mem_nil, or_false] at ha
  rcases ha with rfl | rfl | rfl | rfl | rfl | rfl | rfl | rfl | rfl | rfl | rfl
  all_goals simp [FsAct.OK, SortsTo, FileExtent.NoWrap]

/-! ## Settings no read works under -/

/-- File policies that ask for more bytes than there are. -/
def oversoldConfig : InstanceConfig :=
  { invalidationConfig with
    cacheType := .inMem, inMemCacheStorage := .policy, policyOptions := ⟨2, .lru, [⟨"a", .lru, 3⟩]⟩ }

def slashConfig : InstanceConfig := { invalidationConfig with onDiskCacheDirectories := ["/tmp/"] }

def twiceConfig : InstanceConfig :=
  { lruConfig with onDiskCacheDirectories := ["/a", "/a"], enableDiskReaderMemCache := false }

/-- Reads of the four bytes of a file, each with how its task fares: what they leave. -/
def fourByteReads (config : InstanceConfig) (envs : List TaskEnv) : Except Fault (List Bytes) :=
  ((.openFile "s3://b/x" :: envs.map fun env => .readAt 0 [0, 0, 0, 0] 4 0 { task := fun _ => env }).foldlM
    (fsStep invalidationWorld) { config, metadataConfig := {} }).map fun fs => fs.reads.map (·.filled)

/-- A storage that cannot be built throws at its first read, and so does a
slash left at the end of a directory. A directory given twice lets two reads
return that find the access maps upset; the third has its file and throws. -/
theorem reads_not_transparent :
    fourByteReads oversoldConfig [{}] =
        .error (.invalidInput "File policy budgets total 3 bytes, which exceeds the cache budget of 2 bytes") ∧
      updateCacheDirectoriesImpl ["/tmp//"] = .ok slashConfig.onDiskCacheDirectories ∧
      fourByteReads slashConfig [{}] = .error (.internal "Cache directory /tmp/ cannot ends with '/'") ∧
      updateCacheDirectoriesImpl ["/a", "/a/"] = .ok twiceConfig.onDiskCacheDirectories ∧
      fourByteReads twiceConfig [{ store := .noSpace [], listings := [oneFile, oneFile] }, {}] =
        .ok [[1, 2, 3, 4], [1, 2, 3, 4]] ∧
      fourByteReads twiceConfig [{ store := .noSpace [], listings := [oneFile, oneFile] }, {}, {}] =
        .error .assertFailed := by
  refine ⟨?_, ?_, ?_, ?_, ?_, ?_⟩
  all_goals decide +kernel

end ReadCacheFs
