/-
Sessions over remote files that change: others replace remote files in
between the operations of the filesystem, reads may throw and leave behind
what their tasks had done, and opens may clear the file they open.

Whatever claims a session's reads meet, its caches hold to
(`remoteRun_holds`). From one choice of claims, that of what a version tag
stands for, reads with cache validation never return another version
(`validated_reads_current`); from another, that excluded files claim
nothing, they are never cached (`excluded_never_cached`).
-/
import ReadCacheFs.CachedReads
import ReadCacheFs.ReadOpens

namespace ReadCacheFs

open Lib

variable {B B' : FileClaims} {w : World} {path : String}

/-! ## The metadata cache -/

namespace SharedValueLruCache

/-- The sizes cached meet their claims. -/
structure SizesHold (B : FileClaims) (cache : SharedValueLruCache String Nat) : Prop where
  ok : cache.OK
  sizes : ∀ p n ts, cache.find? p = some (n, ts) → n < 2 ^ 63 ∧ B.size p n

variable {cache : SharedValueLruCache String Nat}

theorem SizesHold.new (B : FileClaims) (maxEntries timeoutMillisec : Nat) :
    SizesHold B { maxEntries, timeoutMillisec } := by
  refine ⟨Indexes.nil fun k => ?_, fun p n ts h => ?_⟩
  · simp
  · simp [find?] at h

theorem SizesHold.get (h : cache.SizesHold B) (now : Nat) (p : String) :
    (cache.get now p).2.SizesHold B ∧ ∀ n, (cache.get now p).1 = some n → n < 2 ^ 63 ∧ B.size p n := by
  obtain ⟨hok, hget⟩ := get_spec h.ok now p
  cases hp : (cache.get now p).1 with
  | some v =>
    rw [hp] at hget
    obtain ⟨⟨ts, hts, _⟩, hsame⟩ := hget
    refine ⟨⟨hok, fun q n ts' hq => h.sizes q n ts' (hsame q ▸ hq)⟩, fun n hn => ?_⟩
    cases hn
    exact h.sizes p v ts hts
  | none =>
    rw [hp] at hget
    obtain ⟨hgone, hsame⟩ := hget
    refine ⟨⟨hok, fun q n ts' hq => ?_⟩, fun n hn => by cases hn⟩
    by_cases hqp : q = p
    · rw [hqp, hgone] at hq
      cases hq
    · exact h.sizes q n ts' (hsame q hqp ▸ hq)

theorem SizesHold.put (h : cache.SizesHold B) (now : Nat) {p : String} {n : Nat} (hn : n < 2 ^ 63)
    (hb : B.size p n) :
    (cache.put now p n).SizesHold B := by
  refine ⟨put_ok h.ok _ _ _, fun q m ts hq => ?_⟩
  rcases put_find? h.ok hq with ⟨rfl, hx⟩ | ⟨_, hold⟩
  · cases hx
    exact ⟨hn, hb⟩
  · exact h.sizes q m ts hold

theorem SizesHold.lose {cache' : SharedValueLruCache String Nat} (h : cache.SizesHold B) (hok : cache'.OK)
    (hsub : ∀ p x, cache'.find? p = some x → cache.find? p = some x) : cache'.SizesHold B :=
  ⟨hok, fun p n ts hp => h.sizes p n ts (hsub p _ hp)⟩

theorem clearFrom_find? (h : cache.OK) {startKey : String} {filter : String → Bool} {p : String} {x : Nat × Nat}
    (hp : (cache.clearFrom startKey filter).find? p = some x) : cache.find? p = some x := by
  obtain ⟨_, hkeys⟩ := clearFrom_spec h startKey filter
  by_cases hm : p ∈ cache.keysFrom startKey filter
  · rw [(hkeys p).1 hm] at hp
    cases hp
  · rw [← (hkeys p).2 hm]
    exact hp

end SharedValueLruCache

/-! ## The filesystem -/

/-- What a read meets to keep the caches to the claims. -/
structure ReadAdmitted (B : FileClaims) (remote : Remote) (config : InstanceConfig) (path : String)
    (env : ReadEnv) :
    Prop where
  size : B.size path (remote path).length
  bytes : env.matchAnyExclusion = false → B.Admits remote path (config.expectedTag env)
  sought : ∀ i, B.sought config.onDiskCacheDirectories (env.task i).uuid

namespace CacheFileSystem

variable {fs fs' : CacheFileSystem}

structure HoldsTo (p : Platform) (B : FileClaims) (fs : CacheFileSystem) : Prop where
  config : fs.config.OK
  blockSize : BlockSizeOK fs.config.cacheBlockSize
  layouts : LayoutsOK fs.layouts
  metadata : ∀ cache, fs.metadataCache = some cache → cache.SizesHold B
  storage : StorageHolds B fs.inMemStorage
  disk : fs.diskReader.HoldsTo p B

theorem HoldsTo.getFileSize (h : fs.HoldsTo w.platform B) (hsized : w.remote.Sized) (env : ReadEnv)
    (hb : B.size path (w.remote path).length) :
    ∃ fileSize metadataCache, fs.getFileSize w env path = (fileSize, { fs with metadataCache }) ∧
      fileSize < 2 ^ 63 ∧
      B.size path fileSize ∧ ∀ cache, metadataCache = some cache → cache.SizesHold B := by
  unfold CacheFileSystem.getFileSize
  split
  · exact ⟨_, _, rfl, hsized path, hb, h.metadata⟩
  next cache hcache =>
    obtain ⟨hget, hhit⟩ := (h.metadata cache hcache).get (steadyMillis env.statNow) path
    split
    next n cache' hg =>
      rw [hg] at hget hhit
      obtain ⟨hn, hbn⟩ := hhit n rfl
      exact ⟨n, some cache', rfl, hn, hbn, fun _ hc => Option.some.inj hc ▸ hget⟩
    next cache' hg =>
      rw [hg] at hget
      exact ⟨_, _, rfl, hsized path, hb, fun _ hc => Option.some.inj hc ▸ hget.put _ (hsized path) hb⟩

/-- A read of a part of the file as its size was last known, without the size query. -/
theorem HoldsTo.readAndCache (h : fs.HoldsTo w.platform B) (hsized : w.remote.Sized) (hp : w.platform.OK)
    {env : ReadEnv} (ha : B.Admits w.remote path (fs.config.expectedTag env))
    (henv : ∀ i, B.sought fs.config.onDiskCacheDirectories (env.task i).uuid) {buffer : Bytes}
    {start n fileSize : Nat} (hbuf : n ≤ buffer.length) (hin : start + n ≤ fileSize)
    (hsize : fileSize < 2 ^ 63) :
    (∃ buffer' fs', fs.readAndCache w env path buffer start n fileSize = .ok (buffer', fs') ∧
      fs'.HoldsTo w.platform B ∧
      (B.Current w.remote path (fs.config.expectedTag env) → (0 < n → start + n ≤ (w.remote path).length) ∧
        buffer' = writeAt buffer 0 (slice (w.remote path) start n))) ∨
    ∃ fault, fs.readAndCache w env path buffer start n fileSize = .error fault ∧
      (w.remote path).length < fileSize := by
  have hnothing : ∀ buffer : Bytes, writeAt buffer 0 (slice (w.remote path) start 0) = buffer := fun buffer => by
    simp [writeAt, slice]
  unfold CacheFileSystem.readAndCache
  split
  · by_cases hle : start + n ≤ (w.remote path).length
    · refine .inl ⟨_, fs, by rw [noop_readAndCache path hle]; rfl, h, fun _ => ⟨fun _ => hle, rfl⟩⟩
    · refine .inr ⟨.io, ?_, by omega⟩
      rw [NoopCacheReader.readAndCache, Remote.read, if_neg hle]
      rfl
  next hinMem =>
    by_cases hn : n = 0
    · subst hn
      refine .inl ⟨buffer, fs, ?_, h, fun _ => ⟨fun hpos => absurd hpos (by omega), (hnothing buffer).symm⟩⟩
      rw [InMemoryCacheReader.readAndCache, if_pos rfl]
      rfl
    · have hpos : 0 < n := Nat.pos_of_ne_zero hn
      rcases InMemoryCacheReader.readAndCache_returns hsized h.config hinMem h.blockSize h.layouts ha hpos hbuf hin hsize
        h.storage with ⟨buffer', storage, hread, hs, hcur⟩ | ⟨fault, hread, hpast⟩
      · exact .inl ⟨buffer', { fs with inMemStorage := storage }, by rw [hread]; rfl, { h with storage := hs },
          fun hB => ⟨fun _ => (hcur hB).1, (hcur hB).2⟩⟩
      · exact .inr ⟨fault, by rw [hread]; rfl, hpast⟩
  next honDisk =>
    by_cases hn : n = 0
    · subst hn
      refine .inl ⟨buffer, fs, ?_, h, fun _ => ⟨fun hpos => absurd hpos (by omega), (hnothing buffer).symm⟩⟩
      rw [DiskCacheReader.readAndCache, if_pos rfl]
      rfl
    · have hpos : 0 < n := Nat.pos_of_ne_zero hn
      rcases DiskCacheReader.readAndCache_returns hsized hp h.config honDisk h.blockSize ha henv hpos hbuf hin hsize h.disk
        with ⟨buffer', reader, hread, hr, hcur⟩ | ⟨fault, hread, hpast⟩
      · exact .inl ⟨buffer', { fs with diskReader := reader }, by rw [hread]; rfl, { h with disk := hr },
          fun hB => ⟨fun _ => (hcur hB).1, (hcur hB).2⟩⟩
      · exact .inr ⟨fault, by rw [hread]; rfl, hpast⟩

/-- A read returns, or the remote file is shorter than its size was last known. -/
theorem HoldsTo.readImpl (h : fs.HoldsTo w.platform B) (hsized : w.remote.Sized) (hp : w.platform.OK)
    {env : ReadEnv} (hr : ReadAdmitted B w.remote fs.config path env) {buffer : Bytes} {nrBytes : Nat}
    (hbuf : nrBytes ≤ buffer.length) (location : Nat) :
    ∃ fileSize, (fs.getFileSize w env path).1 = fileSize ∧ B.size path fileSize ∧
      ((∃ n filled fs', fs.readImpl w env path buffer nrBytes location = .ok ((n, filled), fs') ∧
        fs'.HoldsTo w.platform B ∧
          n = min nrBytes (fileSize - location) ∧
          ((env.matchAnyExclusion = false → B.Current w.remote path (fs.config.expectedTag env)) →
            (0 < n → location + n ≤ (w.remote path).length) ∧
              filled = writeAt buffer 0 (slice (w.remote path) location n))) ∨
        ∃ fault, fs.readImpl w env path buffer nrBytes location = .error fault ∧
          (w.remote path).length < fileSize) := by
  obtain ⟨fileSize, metadataCache, hstat, hsize, hb, hcache⟩ := h.getFileSize hsized env hr.size
  have h₁ : HoldsTo w.platform B { fs with metadataCache } := { h with metadata := hcache }
  refine ⟨fileSize, by rw [hstat], hb, ?_⟩
  rw [CacheFileSystem.readImpl, hstat]
  dsimp only
  split
  next hend =>
    refine .inl ⟨0, buffer, _, rfl, h₁, by omega, fun _ => ⟨fun hpos => absurd hpos (by omega), ?_⟩⟩
    simp [writeAt, slice]
  next hloc =>
    obtain ⟨n, hn⟩ : ∃ n, n = min nrBytes (fileSize - location) := ⟨_, rfl⟩
    rw [← hn]
    split
    next hex =>
      by_cases hle : location + n ≤ (w.remote path).length
      · refine .inl ⟨n, writeAt buffer 0 (slice (w.remote path) location n), _, ?_, h₁, rfl,
          fun _ => ⟨fun _ => hle, rfl⟩⟩
        rw [Remote.read, if_pos hle]
        rfl
      · refine .inr ⟨.io, ?_, by omega⟩
        rw [Remote.read, if_neg hle]
        rfl
    next hex =>
      have hex : env.matchAnyExclusion = false := by simpa using hex
      have hin : location + n ≤ fileSize := by omega
      rcases h₁.readAndCache hsized hp (hr.bytes hex) hr.sought (by omega : n ≤ buffer.length) hin hsize with
        ⟨filled, fs', hread, h', hcur⟩ | ⟨fault, hread, hpast⟩
      · exact .inl ⟨n, filled, fs', by rw [hread]; rfl, h', rfl, fun hB => hcur (hB hex)⟩
      · exact .inr ⟨fault, by rw [hread]; rfl, hpast⟩

theorem HoldsTo.readHandle (h : fs.HoldsTo w.platform B) (hsized : w.remote.Sized) (hp : w.platform.OK)
    {env : ReadEnv} (hr : ReadAdmitted B w.remote fs.config path env) {buffer : Bytes}
    {nrBytes location n : Nat} (hbuf : nrBytes ≤ buffer.length)
    (hread : fs.readHandle w env path buffer nrBytes location = .ok (n, fs')) :
    fs'.HoldsTo w.platform B := by
  obtain ⟨_, _, _, ⟨m, filled, fs₁, hok, h₁, _⟩ | ⟨fault, herr, _⟩⟩ := h.readImpl hsized hp hr hbuf location
  · rw [CacheFileSystem.readHandle, hok] at hread
    cases hread
    exact { h₁ with }
  · rw [CacheFileSystem.readHandle, herr] at hread
    cases hread

theorem HoldsTo.afterFailedStat (h : fs.HoldsTo w.platform B) (env : ReadEnv) (path : String) :
    (fs.afterFailedStat env path).HoldsTo w.platform B := by
  refine { h with metadata := fun cache hc => ?_ }
  obtain ⟨old, hold, rfl⟩ := Option.map_eq_some_iff.mp hc
  exact ((h.metadata old hold).get _ path).1

theorem HoldsTo.afterFailedRead (h : fs.HoldsTo w.platform B) (hsized : w.remote.Sized) (hp : w.platform.OK)
    {env : ReadEnv} (hr : ReadAdmitted B w.remote fs.config path env) (fates : Nat → TaskFate)
    (nrBytes location : Nat) :
    (fs.afterFailedRead w env fates path nrBytes location).HoldsTo w.platform B := by
  obtain ⟨fileSize, metadataCache, hstat, hsize, _, hcache⟩ := h.getFileSize hsized env hr.size
  have h₁ : HoldsTo w.platform B { fs with metadataCache } := { h with metadata := hcache }
  rw [CacheFileSystem.afterFailedRead, hstat]
  dsimp only
  split
  · exact h₁
  next hgo =>
    simp only [not_or, Bool.not_eq_true] at hgo
    have hin : location + min nrBytes (fileSize - location) ≤ fileSize := by omega
    split
    · exact h₁
    next hinMem =>
      exact { h₁ with
        storage := InMemoryCacheReader.afterThrow_holds hsized h.config hinMem h.blockSize h.layouts
          (hr.bytes hgo.2) fates
          hin hsize h.storage }
    next honDisk =>
      exact { h₁ with
        disk := DiskCacheReader.afterThrow_holds hsized hp h.config honDisk h.blockSize
          (hr.bytes hgo.2) hr.sought fates hin
          hsize h.disk }

theorem HoldsTo.initializeGlobalConfig (h : fs.HoldsTo w.platform B) :
    fs.initializeGlobalConfig.HoldsTo w.platform B := by
  refine { h with metadata := fun cache hc => ?_ }
  simp only [CacheFileSystem.initializeGlobalConfig] at hc
  split at hc
  · cases hc
  · cases hc
    cases hm : fs.metadataCache with
    | none => exact .new _ _ _
    | some cache => exact h.metadata cache hm

theorem HoldsTo.setCacheBlockSize (h : fs.HoldsTo w.platform B) (newBlockSize : Nat)
    (hwide : newBlockSize < 2 ^ 64) (inMemEnv diskEnv : RemapEnv) :
    ∃ fs', fs.setCacheBlockSize newBlockSize inMemEnv diskEnv = .ok fs' ∧ fs'.HoldsTo w.platform B := by
  unfold CacheFileSystem.setCacheBlockSize
  split
  · exact ⟨fs, rfl, h⟩
  next haccepted =>
    have hb := BlockSizeOK.of_accepted haccepted hwide
    have hremap : ∃ fs', fs.remapInMemoryDataCaches newBlockSize inMemEnv diskEnv = .ok fs' ∧
        fs'.HoldsTo w.platform B := by
      obtain ⟨reader, hreader, hr⟩ := h.disk.remap diskEnv hb
      unfold CacheFileSystem.remapInMemoryDataCaches
      cases hs : fs.inMemStorage with
      | none =>
        rw [hreader]
        exact ⟨_, rfl, { h with storage := .none, disk := hr }⟩
      | some storage =>
        obtain ⟨storage', hstorage, h'⟩ := (h.storage storage hs).remap inMemEnv hb
        dsimp only
        rw [hstorage, hreader]
        exact ⟨_, rfl, { h with storage := .some h', disk := hr }⟩
    have hset : ∀ fs' : CacheFileSystem, fs'.HoldsTo w.platform B →
        HoldsTo w.platform B { fs' with config := { fs'.config with cacheBlockSize := newBlockSize } } :=
      fun fs' h' => { h' with config := { h'.config with }, blockSize := hb }
    split
    · obtain ⟨fs', hfs', h'⟩ := hremap
      rw [hfs']
      exact ⟨_, rfl, hset fs' h'⟩
    · exact ⟨_, rfl, hset fs h⟩

theorem HoldsTo.clearCache (h : fs.HoldsTo w.platform B) : fs.clearCache.HoldsTo w.platform B := by
  refine { h with metadata := fun cache hc => ?_, storage := ?_, disk := ?_ }
  · obtain ⟨old, hold, rfl⟩ := Option.map_eq_some_iff.mp hc
    refine (h.metadata old hold).lose SharedValueLruCache.clear_spec.1 fun p x hx => ?_
    rw [SharedValueLruCache.clear_spec.2 p] at hx
    cases hx
  · exact h.storage.map fun s hs => (DataCacheStorage.clear_spec hs).1
  · dsimp only [CacheFileSystem.clearCache]
    split
    · exact h.disk.clearCache _
    · exact h.disk

theorem HoldsTo.clearCacheFile (h : fs.HoldsTo w.platform B) (hash : PolicyHash) (filepath : String) :
    ∃ fs', fs.clearCacheFile w hash filepath = .ok fs' ∧ fs'.HoldsTo w.platform B := by
  obtain ⟨diskReader, hclear, hdisk⟩ : ∃ reader, (if fs.hasDiskReader then
      fs.diskReader.clearCacheFile w fs.config hash filepath else .ok fs.diskReader) = .ok reader ∧
      reader.HoldsTo w.platform B := by
    split
    · exact h.disk.clearCacheFile fs.config hash filepath
    · exact ⟨_, rfl, h.disk⟩
  rw [CacheFileSystem.clearCacheFile, hclear]
  refine ⟨_, rfl, { h with metadata := fun cache hc => ?_, storage := ?_, disk := hdisk }⟩
  · obtain ⟨old, hold, rfl⟩ := Option.map_eq_some_iff.mp hc
    have hok := (h.metadata old hold).ok
    exact (h.metadata old hold).lose (SharedValueLruCache.clearFrom_spec hok _ _).1 fun _ _ =>
      SharedValueLruCache.clearFrom_find? hok
  · exact h.storage.map fun s hs => (DataCacheStorage.clearFile_spec hs hash filepath).1

theorem HoldsTo.openFileExtended (h : fs.HoldsTo w.platform B) (clearCacheOnWrite : Bool)
    (flags : OpenFlags) (path : String) (hash : PolicyHash) :
    ∃ fs', fs.openFileExtended w clearCacheOnWrite flags path hash = .ok fs' ∧ fs'.HoldsTo w.platform B :=
  openFileExtended_returns h.initializeGlobalConfig (h.initializeGlobalConfig.clearCacheFile hash path)
    (fun _ _ h₁ => { h₁ with }) clearCacheOnWrite flags

theorem HoldsTo.start {p : Platform} {config : InstanceConfig} (hc : config.OK)
    (hb : BlockSizeOK config.cacheBlockSize) (metadataConfig : MetadataConfig) (hasDiskReader : Bool)
    {files : LocalFiles} (hf : files.HoldsTo p B) :
    HoldsTo p B { config, metadataConfig, hasDiskReader, diskReader := { files } } where
  config := hc
  blockSize := hb
  layouts := .empty
  metadata _ hn := by cases hn
  storage := .none
  disk := ⟨.none, hf, .empty⟩

end CacheFileSystem

/-! ## Sessions -/

structure RemoteState where
  remote : Remote
  fs : CacheFileSystem

inductive RemoteAct
  /-- Someone replaces a remote file. -/
  | replaceFile (path : String) (contents : Bytes)
  /-- `OpenFile`, with `cache_httpfs_clear_cache_on_write`. -/
  | openFile (clearCacheOnWrite : Bool) (flags : OpenFlags) (path : String) (hash : PolicyHash)
  /-- A read that throws in its size query. -/
  | failStat (path : String) (env : ReadEnv)
  /-- A read that throws past it. -/
  | failRead (path : String) (nrBytes location : Nat) (env : ReadEnv) (fates : Nat → TaskFate)
  | session (act : FsAct)

def World.over (w : World) (remote : Remote) : World := { w with remote }

@[simp] theorem World.over_remote (w : World) (remote : Remote) : (w.over remote).remote = remote := rfl

@[simp] theorem World.over_platform (w : World) (remote : Remote) : (w.over remote).platform = w.platform := rfl

open CacheFileSystem in
def remoteStep (w : World) (s : RemoteState) : RemoteAct → Option RemoteState
  | .replaceFile path contents => some { s with remote := Function.update s.remote path contents }
  | .openFile clearCacheOnWrite flags path hash =>
    ((s.fs.openFileExtended (w.over s.remote) clearCacheOnWrite flags path hash).map fun fs => { s with fs }).toOption
  | .failStat path env => some { s with fs := s.fs.afterFailedStat env path }
  | .failRead path nrBytes location env fates =>
    some { s with fs := s.fs.afterFailedRead (w.over s.remote) env fates path nrBytes location }
  | .session act => ((fsStep (w.over s.remote) s.fs act).map fun fs => { s with fs }).toOption

/-- The file read and what the read meets, where the act is a read. -/
def RemoteState.readOf (s : RemoteState) : RemoteAct → Option (String × ReadEnv)
  | .failRead path _ _ env _ => some (path, env)
  | .session (.read h _ _ env) | .session (.readAt h _ _ _ env) => (s.fs.handles[h]?).map fun handle => (handle.path, env)
  | _ => none

/-- A file size is an `int64_t`, also of a file that replaces another. -/
def RemoteAct.OK : RemoteAct → Prop
  | .replaceFile _ contents => contents.length < 2 ^ 63
  | .session act => act.OK
  | _ => True

/-- Each read is admitted in the state it is made in. -/
def ReadsAdmitted (B : FileClaims) (s : RemoteState) (a : RemoteAct) : Prop :=
  ∀ path env, s.readOf a = some (path, env) → ReadAdmitted B s.remote s.fs.config path env

theorem fsStep_holds (hsized : w.remote.Sized) (hp : w.platform.OK) {fs fs' : CacheFileSystem} {act : FsAct}
    (ha : act.OK) (hr : ReadsAdmitted B ⟨w.remote, fs⟩ (.session act)) (h : fs.HoldsTo w.platform B)
    (hs : fsStep w fs act = .ok fs') :
    fs'.HoldsTo w.platform B := by
  cases act with
  | openFile path =>
    cases hs
    exact { h.initializeGlobalConfig with }
  | seek handle position =>
    cases hs
    exact { h with }
  | read handle buffer nrBytes env =>
    unfold fsStep at hs
    dsimp only at hs
    split at hs
    · cases hs
      exact h
    next hd hhd =>
      obtain ⟨r, hread, hs⟩ := except_bind_eq_ok.mp hs
      cases hs
      have h' := h.readHandle hsized hp (hr hd.path env (by rw [RemoteState.readOf, hhd]; rfl)) ha hread
      exact { h' with }
  | readAt handle buffer nrBytes location env =>
    unfold fsStep at hs
    dsimp only at hs
    split at hs
    · cases hs
      exact h
    next hd hhd =>
      obtain ⟨r, hread, rfl⟩ := except_map_eq_ok.mp hs
      exact h.readHandle hsized hp (hr hd.path env (by rw [RemoteState.readOf, hhd]; rfl)) ha hread
  | setCacheBlockSize newBlockSize inMemEnv diskEnv =>
    obtain ⟨fs₁, hset, h'⟩ := h.setCacheBlockSize newBlockSize ha inMemEnv diskEnv
    obtain rfl := Except.ok.inj (hset.symm.trans hs)
    exact h'
  | configure config metadataConfig =>
    cases hs
    exact { h with config := { ha with }, blockSize := h.blockSize }
  | registerLayout path extents sorted =>
    cases hs
    exact { h with layouts := h.layouts.register ha.1 ha.2 }
  | clearLayouts =>
    cases hs
    exact { h with layouts := .empty }
  | clearLayout path =>
    cases hs
    exact { h with layouts := h.layouts.clearPath }
  | clearCache =>
    cases hs
    exact h.clearCache
  | clearCacheFile hash filepath =>
    obtain ⟨fs₁, hclear, h'⟩ := h.clearCacheFile hash filepath
    obtain rfl := Except.ok.inj (hclear.symm.trans hs)
    exact h'
  | removeFiles filepaths =>
    cases hs
    exact { h with disk := { h.disk with files := h.disk.files.remove filepaths } }
  | evict objCacheKey =>
    cases hs
    have hlose := fun s hs => DataCacheStorage.evict_spec (s := s) hs objCacheKey
    exact { h with storage := h.storage.map hlose, disk := { h.disk with mem := h.disk.mem.map hlose } }

theorem Remote.Sized.update {remote : Remote} (h : remote.Sized) {path : String} {contents : Bytes}
    (hlen : contents.length < 2 ^ 63) : Remote.Sized (Function.update remote path contents) := by
  intro f
  by_cases hf : f = path
  · rw [hf, Function.update_self]
    exact hlen
  · rw [Function.update_of_ne hf]
    exact h f

/-- What a session keeps: sizes in range, and the claims. -/
structure RemoteState.HoldsTo (w : World) (B : FileClaims) (s : RemoteState) : Prop where
  sized : s.remote.Sized
  fs : s.fs.HoldsTo w.platform B

theorem remoteStep_holds (hp : w.platform.OK) {s s' : RemoteState} {a : RemoteAct} (ha : a.OK)
    (hr : ReadsAdmitted B s a) (h : s.HoldsTo w B) (hs : remoteStep w s a = some s') : s'.HoldsTo w B := by
  cases a with
  | replaceFile path contents =>
    cases hs
    exact ⟨h.sized.update ha, h.fs⟩
  | openFile clearCacheOnWrite flags path hash =>
    obtain ⟨fs', hopen, h'⟩ :=
      CacheFileSystem.HoldsTo.openFileExtended (w := w.over s.remote) h.fs clearCacheOnWrite flags path hash
    rw [remoteStep, hopen] at hs
    cases hs
    exact ⟨h.sized, h'⟩
  | failStat path env =>
    cases hs
    exact ⟨h.sized, CacheFileSystem.HoldsTo.afterFailedStat (w := w.over s.remote) h.fs _ _⟩
  | failRead path nrBytes location env fates =>
    cases hs
    exact ⟨h.sized, CacheFileSystem.HoldsTo.afterFailedRead (w := w.over s.remote) h.fs h.sized hp
      (hr path env rfl) _ _ _⟩
  | session act =>
    obtain ⟨fs', hstep, rfl⟩ := except_map_eq_ok.mp (toOption_eq_some.mp hs)
    exact ⟨h.sized, fsStep_holds (w := w.over s.remote) h.sized hp ha hr h.fs hstep⟩

/-- **What a session caches.** Over any run whose reads meet the claims, the caches hold to them. -/
theorem remoteRun_holds (hp : w.platform.OK) {as : List RemoteAct} (has : ∀ a ∈ as, a.OK)
    {s s' : RemoteState} (hr : Guarded (remoteStep w) (ReadsAdmitted B) s as) (h : s.HoldsTo w B)
    (hrun : exec (remoteStep w) s as = some s') :
    s'.HoldsTo w B := by
  have hboth : Guarded (remoteStep w) (fun s a => a.OK ∧ ReadsAdmitted B s a) s as :=
    Guarded.imp (fun s a ha hr => ⟨has a ha, hr⟩) hr
  exact exec_guarded_invariant (fun s a s' h hg hs => remoteStep_holds hp hg.1 hg.2 h hs) hboth hrun h

/-- A read at which all claims are of the current contents: what it returns is
what the file has now, and where the size is right too, it returns all that
it was asked for. -/
theorem RemoteState.HoldsTo.read_current (hp : w.platform.OK) {s : RemoteState} (h : s.HoldsTo w B)
    {env : ReadEnv} (hr : ReadAdmitted B s.remote s.fs.config path env)
    (hcur : env.matchAnyExclusion = false → B.Current s.remote path (s.fs.config.expectedTag env))
    {buffer : Bytes} {nrBytes : Nat} (hbuf : nrBytes ≤ buffer.length) (location : Nat) :
    (∀ n filled fs', s.fs.readImpl (w.over s.remote) env path buffer nrBytes location = .ok ((n, filled), fs') →
      filled = writeAt buffer 0 (slice (s.remote path) location n)) ∧
    ((s.fs.getFileSize (w.over s.remote) env path).1 = (s.remote path).length →
      ∃ n filled fs', s.fs.readImpl (w.over s.remote) env path buffer nrBytes location = .ok ((n, filled), fs') ∧
        ReadRecord.Transparent (w.over s.remote) ⟨path, nrBytes, location, buffer, n, filled⟩) := by
  obtain ⟨fileSize, hstat, _, ⟨n, filled, fs', hread, _, hn, hexact⟩ | ⟨fault, hread, hpast⟩⟩ :=
    CacheFileSystem.HoldsTo.readImpl (w := w.over s.remote) h.fs h.sized hp hr hbuf location
  · obtain ⟨hin, hfilled⟩ := hexact hcur
    refine ⟨fun n' filled' fs'' hread' => ?_, fun hsize => ⟨n, filled, fs', hread, ?_⟩⟩
    · rw [hread] at hread'
      cases hread'
      exact hfilled
    · rw [hstat] at hsize
      subst hsize
      refine ⟨hn, hfilled, fun hlt => ?_⟩
      have hlt : location < (s.remote path).length := hlt
      have hle : location + n ≤ (s.remote path).length := by omega
      dsimp only
      rw [noop_readAndCache (w := w.over s.remote) path hle]
      exact congrArg _ hfilled.symm
  · refine ⟨fun n filled fs' hok => ?_, fun hsize => ?_⟩
    · rw [hread] at hok
      cases hok
    · rw [hstat] at hsize
      rw [World.over_remote] at hpast
      omega

/-! ## Reads with cache validation -/

/-- `versions tag path` is what a version tag stands for. A byte cached under
a tag is one of that version; of what is cached without one nothing is known. -/
def versionClaims (versions : String → String → Bytes) : FileClaims where
  byte path versionTag offset x := versionTag ≠ "" → (versions versionTag path)[offset]? = some x
  size _ _ := True
  sought _ _ := True

/-- The reads that validate expect the version the file has at the time. -/
def TagsCurrent (versions : String → String → Bytes) (s : RemoteState) (a : RemoteAct) : Prop :=
  ∀ r ∈ s.readOf a, s.fs.config.expectedTag r.2 ≠ "" → versions r.2.versionTag r.1 = s.remote r.1

instance (versions : String → String → Bytes) (s : RemoteState) (a : RemoteAct) :
    Decidable (TagsCurrent versions s a) :=
  inferInstanceAs (Decidable (∀ r ∈ s.readOf a, _))

theorem InstanceConfig.expectedTag_eq {config : InstanceConfig} {env : ReadEnv}
    (h : config.expectedTag env ≠ "") :
    config.expectedTag env = env.versionTag := by
  unfold InstanceConfig.expectedTag at h ⊢
  split
  · rfl
  next hoff =>
    rw [if_neg hoff] at h
    exact absurd rfl h

theorem versionClaims_admits {versions : String → String → Bytes} {remote : Remote}
    {config : InstanceConfig} {env : ReadEnv}
    (h : config.expectedTag env ≠ "" → versions env.versionTag path = remote path) :
    ReadAdmitted (versionClaims versions) remote config path env where
  size := trivial
  bytes _ := {
    fetched := fun o x hx ht => by
      rw [InstanceConfig.expectedTag_eq ht, h ht]
      exact hx
    promoted := fun tag' o x htag hb ht => by
      obtain rfl := htag.resolve_left ht
      exact hb ht }
  sought _ := trivial

/-- **Validated reads are current.** However the remote files change, and
whatever the settings were before, a read with cache validation returns
bytes of the file as it is, if it returns; and if it finds the file's size
right it returns, with all that it was asked for. -/
theorem validated_reads_current (w : World) (hp : w.platform.OK) (versions : String → String → Bytes)
    (remote : Remote) (hsized : remote.Sized) (config : InstanceConfig) (hc : config.OK)
    (hb : BlockSizeOK config.cacheBlockSize) (metadataConfig : MetadataConfig) (files : LocalFiles)
    (hfiles : files.HoldsTo w.platform (versionClaims versions)) (as : List RemoteAct)
    (has : ∀ a ∈ as, a.OK)
    (htags : Guarded (remoteStep w) (TagsCurrent versions)
      ⟨remote, { config, metadataConfig, diskReader := { files } }⟩ as)
    (s : RemoteState)
    (hrun : exec (remoteStep w) ⟨remote, { config, metadataConfig, diskReader := { files } }⟩ as = some s)
    (path : String) (env : ReadEnv) (hvalidates : s.fs.config.enableCacheValidation = true)
    (htag : env.versionTag ≠ "") (hcurrent : versions env.versionTag path = s.remote path) (buffer : Bytes)
    (nrBytes location : Nat) (hbuf : nrBytes ≤ buffer.length) :
    (∀ n filled fs', s.fs.readImpl (w.over s.remote) env path buffer nrBytes location = .ok ((n, filled), fs') →
      filled = writeAt buffer 0 (slice (s.remote path) location n)) ∧
    ((s.fs.getFileSize (w.over s.remote) env path).1 = (s.remote path).length →
      ∃ n filled fs', s.fs.readImpl (w.over s.remote) env path buffer nrBytes location = .ok ((n, filled), fs') ∧
        ReadRecord.Transparent (w.over s.remote) ⟨path, nrBytes, location, buffer, n, filled⟩) := by
  have hholds : s.HoldsTo w (versionClaims versions) :=
    remoteRun_holds hp has (Guarded.imp (fun s a _ h path env hr => versionClaims_admits
      (h (path, env) hr)) htags)
      ⟨hsized, .start hc hb metadataConfig false hfiles⟩ hrun
  have hexpected : s.fs.config.expectedTag env = env.versionTag := if_pos hvalidates
  refine hholds.read_current hp (versionClaims_admits fun _ => hcurrent)
    (fun _ tag' o x ht hbyte => ?_) hbuf location
  rw [hexpected] at ht
  obtain rfl := ht.resolve_left htag
  rw [← hcurrent]
  exact hbyte htag

/-- The first version of every file, and the second. -/
def numberedVersions (tag : String) (_ : String) : Bytes := if tag = "v1" then [1, 2, 3, 4] else [5, 6, 7, 8]

def validatingConfig : InstanceConfig :=
  { invalidationConfig with cacheType := .inMem, enableCacheValidation := true }

theorem validatingConfig_ok : validatingConfig.OK where
  storage _ := ⟨_, rfl⟩
  directories honDisk := by cases honDisk
  noSlash honDisk := by cases honDisk
  distinct hpolicy := by cases hpolicy

/-- The first version is read, and replaced. -/
def replacedSession : List RemoteAct :=
  [ .openFile false { forReading := true } "s3://b/x" .inserted, .session (.readAt 0 [0, 0, 0, 0] 4 0 { versionTag := "v1" })
  , .replaceFile "s3://b/x" [5, 6, 7, 8] ]

theorem validated_reads_current_replaced :
    ∃ s, exec (remoteStep invalidationWorld) ⟨invalidationWorld.remote,
      { config := validatingConfig }⟩ replacedSession =
        some s ∧
      ∃ n filled fs', s.fs.readImpl (invalidationWorld.over s.remote) { versionTag := "v2" } "s3://b/x"
        [0, 0, 0] 3 1 =
          .ok ((n, filled), fs') ∧
        ReadRecord.Transparent (invalidationWorld.over s.remote) ⟨"s3://b/x", 3, 1, [0, 0, 0], n, filled⟩ := by
  have hrun : (exec (remoteStep invalidationWorld) ⟨invalidationWorld.remote, { config := validatingConfig }⟩
      replacedSession).map (fun s => (s.remote "s3://b/x", s.fs.config.enableCacheValidation,
        (s.fs.getFileSize (invalidationWorld.over s.remote) { versionTag := "v2" } "s3://b/x").1)) =
      some ([5, 6, 7, 8], true, 4) := by decide +kernel
  have htags : Guarded (remoteStep invalidationWorld) (TagsCurrent numberedVersions)
      ⟨invalidationWorld.remote, { config := validatingConfig }⟩ replacedSession := by decide +kernel
  obtain ⟨s, hs, hfacts⟩ := Option.map_eq_some_iff.mp hrun
  simp only [Prod.mk.injEq] at hfacts
  refine ⟨s, hs,
    (validated_reads_current invalidationWorld knownSha256_ok numberedVersions invalidationWorld.remote
    (fun _ => by simp [invalidationWorld]) validatingConfig validatingConfig_ok ⟨by decide, by decide⟩
      {} _ .empty replacedSession ?_
    htags s hs "s3://b/x" { versionTag := "v2" } hfacts.2.1 (by decide) ?_ [0, 0, 0] 3 1 (by decide)).2 ?_⟩
  · simp [replacedSession, RemoteAct.OK, FsAct.OK]
  · rw [hfacts.1]
    decide
  · rw [hfacts.2.2, hfacts.1]
    rfl

/-! ## Excluded files -/

/-- Excluded files claim nothing. -/
def exclusionClaims (excluded : String → Bool) : FileClaims where
  byte path _ _ _ := excluded path = false
  size _ _ := True
  sought _ _ := True

/-- The reads of excluded files match an exclusion. -/
def ReadsExcluded (excluded : String → Bool) (s : RemoteState) (a : RemoteAct) : Prop :=
  ∀ r ∈ s.readOf a, excluded r.1 = true → r.2.matchAnyExclusion = true

instance (excluded : String → Bool) (s : RemoteState) (a : RemoteAct) : Decidable (ReadsExcluded excluded s a) :=
  inferInstanceAs (Decidable (∀ r ∈ s.readOf a, _))

theorem Vouched.not_excluded {excluded : String → Bool} {key : InMemCacheBlock} {tag : String}
    {data : PageAlignedDataChunk} (h : Vouched (exclusionClaims excluded) key tag data) :
    excluded key.fname = false := by
  have hpos := h.pos
  have hlen : data.bytes.length = key.blkSize := h.filled.trans h.length
  exact h.bytes 0 _ (List.getElem?_eq_getElem (show 0 < data.bytes.length by omega))

/-- **Excluded files are never cached**: no layer ever holds a block of one,
and no cache file is made for one. -/
theorem excluded_never_cached (w : World) (hp : w.platform.OK) (excluded : String → Bool) (remote : Remote)
    (hsized : remote.Sized) (config : InstanceConfig) (hc : config.OK)
    (hb : BlockSizeOK config.cacheBlockSize) (metadataConfig : MetadataConfig) (as : List RemoteAct)
    (has : ∀ a ∈ as, a.OK)
    (hex : Guarded (remoteStep w) (ReadsExcluded excluded) ⟨remote, { config, metadataConfig }⟩ as)
    (s : RemoteState) (hrun : exec (remoteStep w) ⟨remote, { config, metadataConfig }⟩ as = some s)
    (path : String) (hpath : excluded path = true) :
    (∀ off n, s.fs.resident ⟨path, off, n⟩ = none ∧ s.fs.diskReader.memResident ⟨path, off, n⟩ = none) ∧
    ∀ dirs uuid off n d, 0 < n → off + n < 2 ^ 63 →
      localCacheDestination w.platform dirs uuid path off n = .ok d →
      s.fs.diskReader.files d.destLocalFilepath = none := by
  have hadmits : Guarded (remoteStep w) (ReadsAdmitted (exclusionClaims excluded))
      ⟨remote, { config, metadataConfig }⟩ as := by
    refine Guarded.imp (fun s a _ h path env hr => ⟨trivial, fun hno => ?_, fun _ => trivial⟩) hex
    have hin : excluded path = false := by
      cases he : excluded path with
      | false => rfl
      | true => exact absurd (h (path, env) hr he) (by simp [hno])
    exact ⟨fun _ _ _ => hin, fun _ _ _ _ _ => hin⟩
  have hholds : s.HoldsTo w (exclusionClaims excluded) :=
    remoteRun_holds hp has hadmits ⟨hsized, .start hc hb metadataConfig false .empty⟩ hrun
  have hnone : ∀ storage : Option DataCacheStorage, StorageHolds (exclusionClaims excluded) storage →
      ∀ off n, storage.bind (DataCacheStorage.resident ⟨path, off, n⟩) = none := by
    intro storage hs off n
    refine Option.eq_none_iff_forall_ne_some.mpr fun x hx => ?_
    obtain ⟨t, ht, hx⟩ := Option.bind_eq_some_iff.mp hx
    have hno := ((hs t ht).held _ x hx).not_excluded
    rw [hpath] at hno
    cases hno
  refine ⟨fun off n => ⟨hnone _ hholds.fs.storage off n, hnone _ hholds.fs.disk.mem off n⟩, ?_⟩
  intro dirs uuid off n d hn hbound hd
  refine Option.eq_none_iff_forall_ne_some.mpr fun file hf => ?_
  obtain ⟨hlen, hbytes⟩ := hholds.fs.disk.files dirs uuid ⟨path, off, n⟩ d file trivial hbound hd hf
  have hno : excluded path = false := hbytes 0 _ (List.getElem?_eq_getElem (by dsimp only at hlen; omega))
  rw [hpath] at hno
  cases hno

/-- Another file is cached. -/
def excludingSession : List RemoteAct :=
  [ .openFile false { forReading := true } "s3://b/x" .inserted, .openFile false { forReading := true } "s3://b/y" .inserted
  , .session (.readAt 0 [0, 0] 2 1 { matchAnyExclusion := true }), .session (.readAt 1 [0, 0] 2 1 {})
  , .replaceFile "s3://b/x" [5], .failRead "s3://b/x" 2 1 { matchAnyExclusion := true } fun _ => .ran ]

theorem excluded_never_cached_inMem :
    ∃ s, exec (remoteStep invalidationWorld) ⟨invalidationWorld.remote,
      { config := validatingConfig }⟩ excludingSession =
        some s ∧ s.fs.resident ⟨"s3://b/x", 0, 4⟩ = none := by
  have hrun : (exec (remoteStep invalidationWorld) ⟨invalidationWorld.remote, { config := validatingConfig }⟩
      excludingSession).isSome = true := by decide +kernel
  have hex : Guarded (remoteStep invalidationWorld) (ReadsExcluded (· == "s3://b/x"))
      ⟨invalidationWorld.remote, { config := validatingConfig }⟩ excludingSession := by decide +kernel
  obtain ⟨s, hs⟩ := Option.isSome_iff_exists.mp hrun
  refine ⟨s, hs, ((excluded_never_cached invalidationWorld knownSha256_ok
    (· == "s3://b/x") invalidationWorld.remote
    (fun _ => by simp [invalidationWorld]) validatingConfig validatingConfig_ok ⟨by decide, by decide⟩
      {} excludingSession ?_ hex s hs
    "s3://b/x" rfl).1 0 4).1⟩
  simp [excludingSession, RemoteAct.OK, FsAct.OK]

end ReadCacheFs
