/-
Reads after a clear.

A session without cache validation may return what a file had long ago. It
does not once the file's caches have been cleared, by `ClearCache`, by
`ClearCache(file)` or by an open under `clear_cache_on_write`, until
somebody replaces the file again (`cleared_reads_current`): opening a file
and reading it is reading the file as of the open.

The one exception is a cache file whose name is too long for the platform,
which a per-file clear does not find (`ShortNamed`).
-/
import ReadCacheFs.ChangingRemote
import ReadCacheFs.DiskInvalidation

namespace ReadCacheFs

open Lib

variable {B B' : FileClaims} {w : World} {path : String}

/-- What names a temporary file. -/
def UuidLike (uuid : String) : Prop := uuid.utf8ByteSize = 36 ∧ '/' ∉ uuid.toList

instance (uuid : String) : Decidable (UuidLike uuid) := inferInstanceAs (Decidable (_ ∧ _))

/-- No block of the file has a local name too long for the platform. -/
def ShortNamed (p : Platform) (dirs : List String) (path : String) : Prop :=
  ∀ uuid off n info, UuidLike uuid → off + n < 2 ^ 63 → buildRemoteFileCachePathInfo p dirs path = .ok info →
    ¬Oversized p uuid (getLocalCacheFile info off n)

namespace CacheFileSystem

variable {fs : CacheFileSystem}

/-- No layer has anything of the file. -/
structure Forgot (p : Platform) (B : FileClaims) (path : String) (fs : CacheFileSystem) : Prop where
  storage : ∀ s, fs.inMemStorage = some s → ∀ k, k.fname = path → s.resident k = none
  mem : ∀ s, fs.diskReader.inMemStorage = some s → ∀ k, k.fname = path → s.resident k = none
  files : ∀ dirs uuid off n d, B.sought dirs uuid → off + n < 2 ^ 63 → localCacheDestination p dirs uuid path off n = .ok d →
    fs.diskReader.files d.destLocalFilepath = none
  sizes : ∀ cache, fs.metadataCache = some cache → cache.find? path = none

/-- Of each file the first claims imply the others, or nothing is left. -/
def Carries (p : Platform) (B B' : FileClaims) (fs : CacheFileSystem) (path : String) : Prop :=
  ((∀ tag o x, B.byte path tag o x → B'.byte path tag o x) ∧ ∀ n, B.size path n → B'.size path n) ∨ fs.Forgot p B' path

theorem HoldsTo.carry {p : Platform} (h : fs.HoldsTo p B) (hc : ∀ path, fs.Carries p B B' path)
    (hsought : ∀ dirs uuid, B'.sought dirs uuid → B.sought dirs uuid) : fs.HoldsTo p B' where
  config := h.config
  blockSize := h.blockSize
  layouts := h.layouts
  metadata cache hcache := by
    refine ⟨(h.metadata cache hcache).ok, fun f n ts hf => ?_⟩
    rcases hc f with ⟨_, hsize⟩ | hforgot
    · exact ((h.metadata cache hcache).sizes f n ts hf).imp_right (hsize n)
    · rw [hforgot.sizes cache hcache] at hf
      cases hf
  storage s hs := by
    refine ⟨(h.storage s hs).ok, fun k x hx => ?_⟩
    rcases hc k.fname with ⟨hbyte, _⟩ | hforgot
    · exact ((h.storage s hs).held k x hx).mono fun o y => hbyte x.versionTag o y
    · rw [hforgot.storage s hs k rfl] at hx
      cases hx
  disk := by
    refine ⟨fun s hs => ⟨(h.disk.mem s hs).ok, fun k x hx => ?_⟩, fun dirs uuid key d file hs hk hd hf => ?_,
      h.disk.access⟩
    · rcases hc k.fname with ⟨hbyte, _⟩ | hforgot
      · exact ((h.disk.mem s hs).held k x hx).mono fun o y => hbyte x.versionTag o y
      · rw [hforgot.mem s hs k rfl] at hx
        cases hx
    · rcases hc key.fname with ⟨hbyte, _⟩ | hforgot
      · exact (h.disk.files dirs uuid key d file (hsought dirs uuid hs) hk hd hf).imp_right fun hb i x hx =>
          hbyte _ _ _ (hb i x hx)
      · rw [hforgot.files dirs uuid key.startOff key.blkSize d hs hk hd] at hf
        cases hf

end CacheFileSystem

theorem SharedValueLruCache.clearFrom_self {cache : SharedValueLruCache String Nat} (h : cache.OK)
    (path : String) :
    (cache.clearFrom path (· == path)).find? path = none := by
  obtain ⟨_, hkeys⟩ := clearFrom_spec h path (· == path)
  by_cases hm : path ∈ cache.keysFrom path (· == path)
  · exact (hkeys path).1 hm
  · rw [(hkeys path).2 hm]
    refine Option.eq_none_iff_forall_ne_some.mpr fun x hx => hm ?_
    refine mem_keysInRange_start Std.TreeMap.ordered_keys (mem_keys.mpr ?_) (beq_self_eq_true path)
    obtain ⟨e, he, _⟩ := Option.map_eq_some_iff.mp hx
    exact ⟨e, he⟩

namespace CacheFileSystem

variable {fs : CacheFileSystem} {dirs : List String}

theorem HoldsTo.clearCacheFile_forgot (h : fs.HoldsTo w.platform B) (hp : w.platform.OK)
    (hdisk : fs.hasDiskReader = true)
    (hsought : ∀ dirs uuid, B'.sought dirs uuid → dirs = fs.config.onDiskCacheDirectories ∧ UuidLike uuid)
    (hshort : ShortNamed w.platform fs.config.onDiskCacheDirectories path) {hash : PolicyHash}
    {fs' : CacheFileSystem} (hclear : fs.clearCacheFile w hash path = .ok fs') :
    fs'.Forgot w.platform B' path := by
  obtain ⟨diskReader, hreader, rfl⟩ := except_map_eq_ok.mp hclear
  rw [if_pos hdisk] at hreader
  obtain ⟨accessMaps, rfl⟩ := DiskCacheReader.clearCacheFile_eq hreader
  refine ⟨fun s hs k hk => ?_, fun s hs k hk => ?_, fun dirs uuid off n d hs hoff hd => ?_, fun cache hc => ?_⟩
  · obtain ⟨old, hold, rfl⟩ := Option.map_eq_some_iff.mp hs
    exact (DataCacheStorage.clearFile_spec (h.storage old hold).ok hash path).2 k hk
  · obtain ⟨old, hold, rfl⟩ := Option.map_eq_some_iff.mp hs
    exact (DataCacheStorage.clearFile_spec (h.disk.mem old hold).ok hash path).2 k hk
  · obtain ⟨rfl, huuid⟩ := hsought dirs uuid hs
    obtain ⟨info, hi, _⟩ := localCacheDestination_cases hd
    exact (forgetFile_files hash path d.destLocalFilepath).trans
      (if_pos ((clearsFile_destination_iff hp hi hd).mpr ⟨rfl, hshort uuid off n info huuid hoff hi⟩))
  · obtain ⟨old, hold, rfl⟩ := Option.map_eq_some_iff.mp hc
    exact SharedValueLruCache.clearFrom_self (h.metadata old hold).ok path

end CacheFileSystem

/-! ## Sessions -/

/-- What holds of a file once its caches have been cleared, until someone replaces it. -/
def freshClaims (remote : Remote) (fresh : String → Prop) (dirs : List String) : FileClaims where
  byte path _ offset x := fresh path → (remote path)[offset]? = some x
  size path n := fresh path → n = (remote path).length
  sought dirs' uuid := dirs' = dirs ∧ UuidLike uuid

def freshAfter (p : Platform) (dirs : List String) (fresh : String → Prop) : RemoteAct → String → Prop
  | .replaceFile path _ => fun f => f ≠ path ∧ fresh f
  | .openFile true _ path _ | .session (.clearCacheFile _ path) => fun f => (f = path ∧ ShortNamed p dirs path) ∨ fresh f
  | .session .clearCache => fun _ => True
  | _ => fresh

/-- What a session keeps of its fresh files. -/
structure RemoteState.Fresh (w : World) (dirs : List String) (fresh : String → Prop) (s : RemoteState) :
    Prop where
  holds : s.HoldsTo w (freshClaims s.remote fresh dirs)
  dirs : s.fs.config.onDiskCacheDirectories = dirs
  disk : s.fs.hasDiskReader = true

namespace CacheFileSystem

variable {fs fs' : CacheFileSystem}

structure SameConfig (fs fs' : CacheFileSystem) : Prop where
  config : fs'.config = fs.config
  hasDiskReader : fs'.hasDiskReader = fs.hasDiskReader

theorem getFileSize_same (w : World) (env : ReadEnv) (path : String) (fs : CacheFileSystem) :
    SameConfig fs (fs.getFileSize w env path).2 := by
  unfold CacheFileSystem.getFileSize
  split
  · exact ⟨rfl, rfl⟩
  · split
    · exact ⟨rfl, rfl⟩
    · exact ⟨rfl, rfl⟩

theorem readAndCache_same {env : ReadEnv} {buffer buffer' : Bytes} {location n fileSize : Nat}
    (h : fs.readAndCache w env path buffer location n fileSize = .ok (buffer', fs')) : SameConfig fs fs' := by
  unfold CacheFileSystem.readAndCache at h
  split at h
  all_goals
    obtain ⟨_, _, he⟩ := except_map_eq_ok.mp h
    cases he
    exact ⟨rfl, rfl⟩

theorem readHandle_same {env : ReadEnv} {buffer : Bytes} {nrBytes location n : Nat}
    (h : fs.readHandle w env path buffer nrBytes location = .ok (n, fs')) : SameConfig fs fs' := by
  obtain ⟨⟨r, fs₁⟩, hread, he⟩ := except_map_eq_ok.mp h
  cases he
  have hstat := getFileSize_same w env path fs
  have hsame : SameConfig fs fs₁ := by
    unfold CacheFileSystem.readImpl at hread
    generalize fs.getFileSize w env path = stat at hstat hread
    dsimp only at hread
    split at hread
    · cases hread
      exact hstat
    · split at hread
      · obtain ⟨_, _, he⟩ := except_map_eq_ok.mp hread
        cases he
        exact hstat
      · obtain ⟨_, hcached, he⟩ := except_map_eq_ok.mp hread
        cases he
        have hsame := readAndCache_same hcached
        exact ⟨hsame.config.trans hstat.config, hsame.hasDiskReader.trans hstat.hasDiskReader⟩
  exact ⟨hsame.config, hsame.hasDiskReader⟩

theorem afterFailedRead_same (w : World) (env : ReadEnv) (fates : Nat → TaskFate) (path : String)
    (nrBytes location : Nat) (fs : CacheFileSystem) :
    SameConfig fs (fs.afterFailedRead w env fates path nrBytes location) := by
  have hstat := getFileSize_same w env path fs
  unfold CacheFileSystem.afterFailedRead
  generalize fs.getFileSize w env path = stat at hstat ⊢
  dsimp only
  split
  · exact hstat
  · split
    · exact hstat
    · exact ⟨hstat.config, hstat.hasDiskReader⟩
    · exact ⟨hstat.config, hstat.hasDiskReader⟩

end CacheFileSystem

def FsAct.configAfter (config : InstanceConfig) : FsAct → InstanceConfig
  | .configure config' _ => { config' with cacheBlockSize := config.cacheBlockSize }
  | .setCacheBlockSize newBlockSize _ _ =>
    if newBlockSize = 0 ∨ ¬isPowerOfTwo newBlockSize then config else { config with cacheBlockSize := newBlockSize }
  | _ => config

theorem fsStep_config {fs fs' : CacheFileSystem} {act : FsAct} (hs : fsStep w fs act = .ok fs') :
    fs'.config = act.configAfter fs.config ∧ (fs.hasDiskReader = true → fs'.hasDiskReader = true) := by
  have hsame : ∀ fs' : CacheFileSystem, fs.SameConfig fs' →
      fs'.config = fs.config ∧ (fs.hasDiskReader = true → fs'.hasDiskReader = true) :=
    fun fs' h => ⟨h.config, fun hdisk => by rw [h.hasDiskReader, hdisk]⟩
  cases act with
  | configure config metadataConfig =>
    cases hs
    exact ⟨rfl, fun hdisk => by simp [hdisk]⟩
  | openFile path =>
    cases hs
    exact ⟨rfl, fun hdisk => by simp [CacheFileSystem.initializeGlobalConfig, hdisk]⟩
  | setCacheBlockSize newBlockSize inMemEnv diskEnv =>
    have hs : fs.setCacheBlockSize newBlockSize inMemEnv diskEnv = .ok fs' := hs
    unfold CacheFileSystem.setCacheBlockSize at hs
    split at hs
    next hrefused =>
      cases hs
      exact ⟨(if_pos hrefused).symm, id⟩
    next haccepted =>
      rw [FsAct.configAfter, if_neg haccepted]
      split at hs
      · obtain ⟨fs₁, hremap, hs⟩ := except_bind_eq_ok.mp hs
        cases hs
        unfold CacheFileSystem.remapInMemoryDataCaches at hremap
        dsimp only at hremap
        split at hremap
        all_goals
          obtain ⟨_, _, hremap⟩ := except_bind_eq_ok.mp hremap
          obtain ⟨_, _, hremap⟩ := except_bind_eq_ok.mp hremap
          cases hremap
          exact ⟨rfl, id⟩
      · cases hs
        exact ⟨rfl, id⟩
  | read handle buffer nrBytes env =>
    unfold fsStep at hs
    dsimp only at hs
    split at hs
    · cases hs
      exact ⟨rfl, id⟩
    · obtain ⟨r, hread, hs⟩ := except_bind_eq_ok.mp hs
      cases hs
      exact hsame r.2 (CacheFileSystem.readHandle_same hread)
  | readAt handle buffer nrBytes location env =>
    unfold fsStep at hs
    dsimp only at hs
    split at hs
    · cases hs
      exact ⟨rfl, id⟩
    · obtain ⟨r, hread, rfl⟩ := except_map_eq_ok.mp hs
      exact hsame r.2 (CacheFileSystem.readHandle_same hread)
  | clearCacheFile =>
    obtain ⟨_, _, rfl⟩ := except_map_eq_ok.mp hs
    exact ⟨rfl, id⟩
  | seek | registerLayout | clearLayouts | clearLayout | clearCache | removeFiles | evict =>
    cases hs
    exact ⟨rfl, id⟩

variable {dirs : List String} {fresh : String → Prop}

/-- Claims about no more files than before, of the same contents. -/
theorem freshClaims_carries {p : Platform} {fs : CacheFileSystem} {remote remote' : Remote}
    {fresh' : String → Prop}
    (h : ∀ f, fresh' f → (fresh f ∧ remote' f = remote f) ∨ fs.Forgot p (freshClaims remote' fresh' dirs) f)
    (path : String) :
    fs.Carries p (freshClaims remote fresh dirs) (freshClaims remote' fresh' dirs) path := by
  by_cases hf : fresh' path
  · rcases h path hf with ⟨hold, hsame⟩ | hforgot
    · refine .inl ⟨fun tag o x hb _ => ?_, fun n hb _ => ?_⟩
      · rw [hsame]
        exact hb hold
      · rw [hsame]
        exact hb hold
    · exact .inr hforgot
  · exact .inl ⟨fun tag o x _ hfresh => absurd hfresh hf, fun n _ hfresh => absurd hfresh hf⟩

theorem RemoteState.Fresh.clearCacheFile {s : RemoteState} (h : s.Fresh w dirs fresh) (hp : w.platform.OK)
    {hash : PolicyHash} {path : String} {fs' : CacheFileSystem}
    (hclear : s.fs.clearCacheFile (w.over s.remote) hash path = .ok fs') :
    CacheFileSystem.HoldsTo w.platform
      (freshClaims s.remote (fun f => (f = path ∧ ShortNamed w.platform dirs path) ∨ fresh f) dirs) fs' := by
  obtain ⟨fs₁, hreturns, hheld⟩ :=
    CacheFileSystem.HoldsTo.clearCacheFile (w := w.over s.remote) h.holds.fs hash path
  obtain rfl := Except.ok.inj (hreturns.symm.trans hclear)
  refine hheld.carry (freshClaims_carries fun f hf => ?_) fun _ _ hs => hs
  rcases hf with ⟨rfl, hshort⟩ | hf
  · refine .inr (CacheFileSystem.HoldsTo.clearCacheFile_forgot (w := w.over s.remote) h.holds.fs hp h.disk
      (fun dirs' uuid hs => ?_) (h.dirs ▸ hshort) hclear)
    exact ⟨hs.1.trans h.dirs.symm, hs.2⟩
  · exact .inl ⟨hf, rfl⟩

theorem RemoteState.Fresh.openFile {s : RemoteState} (h : s.Fresh w dirs fresh) (hp : w.platform.OK)
    {clearCacheOnWrite : Bool} {flags : OpenFlags} {path : String} {hash : PolicyHash} {fs' : CacheFileSystem}
    (hopen : s.fs.openFileExtended (w.over s.remote) clearCacheOnWrite flags path hash = .ok fs') :
    RemoteState.Fresh w dirs (freshAfter w.platform dirs fresh (.openFile clearCacheOnWrite flags path hash))
      { s with fs := fs' } := by
  have hinit : RemoteState.Fresh w dirs fresh { s with fs := s.fs.initializeGlobalConfig } :=
    ⟨⟨h.holds.sized, CacheFileSystem.HoldsTo.initializeGlobalConfig (w := w.over s.remote) h.holds.fs⟩, h.dirs,
      by simp [CacheFileSystem.initializeGlobalConfig, h.disk]⟩
  obtain ⟨new, ⟨rfl, fs₁, hclear, rfl⟩ | ⟨rfl, rfl⟩⟩ := CacheFileSystem.openFileExtended_cases hopen
  · have hcleared := hinit.clearCacheFile hp hclear
    obtain ⟨_, _, rfl⟩ := except_map_eq_ok.mp hclear
    exact ⟨⟨h.holds.sized, { hcleared with }⟩, hinit.dirs, hinit.disk⟩
  · exact ⟨⟨h.holds.sized, { hinit.holds.fs with }⟩, hinit.dirs, hinit.disk⟩

end ReadCacheFs
