/-
What `ClearCache(fname)` of the on-disk reader leaves behind.

It removes the files whose names start with the hash and the basename of
the remote path. A local name too long for the platform is stored as a hash
of its own instead (`ResolveLocalCacheDestination`), which starts with
neither: such a file stays, and is read again. Files of other paths stay
too, and the in-memory layer forgets the path whatever its names are.
-/
import ReadCacheFs.Lib.Runs
import ReadCacheFs.Readers

namespace ReadCacheFs

open Lib

/-! ## Which files go -/

section Names

variable {p : Platform} {dirs : List String} {f g : String}

theorem nameUnder_eq_some {dir filepath : String} {name : List Char} :
    nameUnder dir filepath = some name ↔ filepath.toList = dir.toList ++ '/' :: name := by
  have hdir : (dir ++ "/").toList = dir.toList ++ ['/'] := by simp
  simp only [nameUnder, hdir]
  constructor
  · intro h
    split at h
    · rename_i hp
      obtain ⟨rest, hrest⟩ := List.isPrefixOf_iff_prefix.mp hp
      rw [← hrest, List.drop_left] at h
      rw [← hrest, Option.some.inj h]
      simp
    · cases h
  · intro h
    have hp : (dir.toList ++ ['/']).isPrefixOf filepath.toList = true := by
      rw [List.isPrefixOf_iff_prefix]
      exact ⟨name, by simp [h]⟩
    rw [if_pos hp, h]
    simp

/-- `ClearCache(fname)` removes the file. -/
def ClearsFile (p : Platform) (dirs : List String) (fname filepath : String) : Prop :=
  (dirs.any fun dir => (nameUnder dir filepath).any fun name =>
    (getLocalCacheFilePrefix p fname).toList.isPrefixOf name && !name.contains '/') = true

instance (p : Platform) (dirs : List String) (fname filepath : String) :
    Decidable (ClearsFile p dirs fname filepath) :=
  inferInstanceAs (Decidable (_ = true))

/-- A file that goes has the prefix in its name. -/
theorem ClearsFile.isPrefix {dir name : String} (hname : '/' ∉ name.toList)
    (h : ClearsFile p dirs f (dir ++ "/" ++ name)) :
    (getLocalCacheFilePrefix p f).toList <+: name.toList := by
  have hpath : (dir ++ "/" ++ name).toList = dir.toList ++ '/' :: name.toList := by simp
  simp only [ClearsFile, List.any_eq_true, Option.any_eq_true, Bool.and_eq_true, Bool.not_eq_true',
    List.isPrefixOf_iff_prefix] at h
  obtain ⟨dir', _, name', hname', hpre, hslash⟩ := h
  rw [nameUnder_eq_some, hpath] at hname'
  have hn : '/' ∉ name' := by simpa using hslash
  rw [(append_last_inj hname hn hname').2]
  exact hpre

/-- Of a file of one of the directories the name decides. -/
theorem clearsFile_iff {dir name : String} (hdir : dir ∈ dirs) (hname : '/' ∉ name.toList) :
    ClearsFile p dirs f (dir ++ "/" ++ name) ↔ (getLocalCacheFilePrefix p f).toList <+: name.toList := by
  refine ⟨fun h => h.isPrefix hname, fun hpre => ?_⟩
  simp only [ClearsFile, List.any_eq_true, Option.any_eq_true, Bool.and_eq_true, Bool.not_eq_true',
    List.isPrefixOf_iff_prefix]
  have hpath : (dir ++ "/" ++ name).toList = dir.toList ++ '/' :: name.toList := by simp
  refine ⟨dir, hdir, name.toList, nameUnder_eq_some.mpr hpath, hpre, ?_⟩
  simpa using hname

theorem prefix_fileName_iff (hp : p.OK) {info : RemoteFileCachePathInfo}
    (hi : buildRemoteFileCachePathInfo p dirs g = .ok info) (off n : Nat) :
    (getLocalCacheFilePrefix p f).toList <+: (info.fileName off n).toList ↔ f = g := by
  have hdash : ("-" : String).toList = ['-'] := rfl
  have hhex : ∀ x, '-' ∉ (sha256ToHexString x).toList := fun x => notMem_sha256ToHexString (by decide) x
  have hn := buildRemoteFileCachePathInfo_names hi
  simp only [getLocalCacheFilePrefix, RemoteFileCachePathInfo.fileName, hn.hex, hn.basename,
    String.toList_append, hdash,
    List.append_assoc, List.singleton_append]
  constructor
  · rintro ⟨rest, hrest⟩
    simp only [List.append_assoc, List.cons_append] at hrest
    exact hp.sha256_injective (sha256ToHexString_injective
      (String.toList_inj.mp (append_first_inj (hhex _) (hhex _) hrest).1))
  · rintro rfl
    exact ⟨'-' :: (off.repr.toList ++ '-' :: n.repr.toList), by simp⟩

theorem not_prefix_hash (f : String) (sha256 : List UInt8) :
    ¬(getLocalCacheFilePrefix p f).toList <+: (sha256ToHexString sha256).toList := by
  intro h
  have hdash : '-' ∈ (getLocalCacheFilePrefix p f).toList := by simp [getLocalCacheFilePrefix]
  exact notMem_sha256ToHexString (by decide) sha256 (h.subset hdash)

/-- The local name is too long for the platform, with what a temporary file adds to it. -/
def Oversized (p : Platform) (uuid localCacheFile : String) : Prop :=
  ¬((p.getFileName (getTempCacheFilePath uuid localCacheFile)).utf8ByteSize ≤ p.maxFilenameLen ∧
    (getTempCacheFilePath uuid localCacheFile).utf8ByteSize ≤ p.maxFilepathLen)

instance (p : Platform) (uuid localCacheFile : String) : Decidable (Oversized p uuid localCacheFile) :=
  inferInstanceAs (Decidable (¬_))

def hashedCacheFile (p : Platform) (cacheDirectory localCacheFile : String) : String :=
  cacheDirectory ++ "/" ++ sha256ToHexString (p.sha256 localCacheFile)

theorem localCacheDestination_cases {uuid : String} {off n : Nat} {d : LocalCacheDestination}
    (h : localCacheDestination p dirs uuid f off n = .ok d) :
    ∃ info, buildRemoteFileCachePathInfo p dirs f = .ok info ∧
      ((¬Oversized p uuid (getLocalCacheFile info off n) ∧ d.destLocalFilepath = getLocalCacheFile info off n) ∨
        (Oversized p uuid (getLocalCacheFile info off n) ∧
          d.destLocalFilepath = hashedCacheFile p info.cacheDirectory (getLocalCacheFile info off n))) := by
  obtain ⟨info, hi, hr⟩ := localCacheDestination_ok h
  refine ⟨info, hi, ?_⟩
  unfold resolveLocalCacheDestination at hr
  split at hr
  · cases hr
  dsimp only at hr
  split at hr
  · rename_i hfit
    cases hr
    exact .inl ⟨not_not.mpr hfit, rfl⟩
  · rename_i hover
    cases hr
    exact .inr ⟨hover, rfl⟩

theorem localCacheDestination_of_build {info : RemoteFileCachePathInfo}
    (hi : buildRemoteFileCachePathInfo p dirs f = .ok info) (uuid : String) (off n : Nat) :
    ∃ d, localCacheDestination p dirs uuid f off n = .ok d := by
  rw [localCacheDestination, hi, ok_bind, resolveLocalCacheDestination,
    (buildRemoteFileCachePathInfo_names hi).dir_noSlash]
  simp only [Bool.false_eq_true, if_false]
  split
  · exact ⟨_, rfl⟩
  · exact ⟨_, rfl⟩

/-- A destination goes where it is one of the file's own under a plain name. -/
theorem clearsFile_destination_iff (hp : p.OK) {uuid : String} {off n : Nat} {d : LocalCacheDestination}
    {info : RemoteFileCachePathInfo} (hi : buildRemoteFileCachePathInfo p dirs g = .ok info)
    (hd : localCacheDestination p dirs uuid g off n = .ok d) :
    ClearsFile p dirs f d.destLocalFilepath ↔ f = g ∧ ¬Oversized p uuid (getLocalCacheFile info off n) := by
  obtain ⟨info', hi', ⟨hfit, he⟩ | ⟨hover, he⟩⟩ := localCacheDestination_cases hd
  all_goals obtain rfl : info' = info := Except.ok.inj (hi'.symm.trans hi)
  · rw [he, getLocalCacheFile_eq, clearsFile_iff (buildRemoteFileCachePathInfo_names hi).dir_mem
      (fileName_notMem hp.getFileName_notMem hi off n),
      prefix_fileName_iff hp hi, ← getLocalCacheFile_eq]
    exact ⟨fun h => ⟨h, hfit⟩, And.left⟩
  · rw [he, hashedCacheFile, clearsFile_iff (buildRemoteFileCachePathInfo_names hi).dir_mem
      (notMem_sha256ToHexString (by decide) _)]
    exact ⟨fun h => absurd h (not_prefix_hash f _), fun h => absurd hover h.2⟩

/-- Whatever the directories were when it was stored, only its own file's clear removes it. -/
theorem ClearsFile.file_eq (hp : p.OK) {dirs' : List String} {uuid : String} {off n : Nat}
    {d : LocalCacheDestination} (hd : localCacheDestination p dirs uuid g off n = .ok d)
    (h : ClearsFile p dirs' f d.destLocalFilepath) : f = g := by
  obtain ⟨info, hi, ⟨_, he⟩ | ⟨_, he⟩⟩ := localCacheDestination_cases hd
  · rw [he, getLocalCacheFile_eq] at h
    exact (prefix_fileName_iff hp hi off n).mp (h.isPrefix (fileName_notMem hp.getFileName_notMem hi off n))
  · rw [he, hashedCacheFile] at h
    exact absurd (h.isPrefix (notMem_sha256ToHexString (by decide) _)) (not_prefix_hash f _)

end Names

/-! ## The storage of the in-memory layer -/

namespace DiskCacheReader

variable {w : World} {config : InstanceConfig} {reader : DiskCacheReader}

/-- The in-memory layer, where there is one, is in order. -/
def StorageOK (reader : DiskCacheReader) : Prop := ∀ storage, reader.inMemStorage = some storage → storage.OK

/-- The block the in-memory layer holds under a key. -/
def memResident (reader : DiskCacheReader) (k : InMemCacheBlock) : Option HeldBlock :=
  reader.inMemStorage.bind (DataCacheStorage.resident k)

theorem StorageOK.map {f : DataCacheStorage → DataCacheStorage} (h : reader.StorageOK)
    (hf : ∀ s : DataCacheStorage, s.OK → (f s).OK) {files : LocalFiles} {accessMaps : AccessMaps} :
    StorageOK { reader with files, inMemStorage := reader.inMemStorage.map f, accessMaps } := by
  intro storage hs
  obtain ⟨old, hold, rfl⟩ := Option.map_eq_some_iff.mp hs
  exact hf old (h old hold)

theorem StorageOK.init (h : reader.StorageOK) (config : InstanceConfig) : (reader.init config).StorageOK := by
  unfold DiskCacheReader.init
  split
  · exact h
  · intro storage hs
    dsimp only at hs
    split at hs
    · cases hs
      exact DataCacheStorage.buildPlainStorage_ok _ _ _
    · cases hs

theorem StorageOK.memGet (h : reader.StorageOK) (now : Nat) (key : InMemCacheBlock) (tag : String) :
    (reader.memGet now key tag).2.StorageOK := by
  unfold DiskCacheReader.memGet
  split
  · exact h
  next storage hs =>
    have hget := (DataCacheStorage.get_spec (h storage hs) now key tag).1.ok
    split
    next p s hg =>
      rw [hg] at hget
      intro storage' hs'
      cases hs'
      exact (DataCacheStorage.release_spec hget p).ok
    next s hg =>
      rw [hg] at hget
      intro storage' hs'
      cases hs'
      exact hget

theorem StorageOK.memPut (h : reader.StorageOK) {env : TaskEnv} {key : InMemCacheBlock}
    {content : PageAlignedDataChunk} {tag : String} {reader' : DiskCacheReader}
    (hp : reader.memPut env key content tag = .ok reader') :
    reader'.StorageOK := by
  unfold DiskCacheReader.memPut at hp
  split at hp
  · cases hp
    exact h
  next storage hs =>
    cases hput : storage.put env.putNow env.evicted key content tag with
    | error e =>
      rw [hput] at hp
      cases hp
    | ok s =>
      rw [hput] at hp
      cases hp
      intro storage' hs'
      cases hs'
      exact (DataCacheStorage.put_spec (h storage hs) hput).1

theorem StorageOK.storeFetched (h : reader.StorageOK) (config : InstanceConfig) (env : TaskEnv) (dest : String)
    (key : InMemCacheBlock) (content : PageAlignedDataChunk) (tag : String) :
    (reader.storeFetched config env dest key content tag).StorageOK := by
  obtain ⟨files, accessMaps, _, hleft | hput, _⟩ := storeFetched_spec config reader env dest key content tag
  · rw [hleft]
    exact h
  · have hfiles : StorageOK { reader with files, accessMaps } := h
    exact hfiles.memPut hput

theorem StorageOK.processCacheReadChunk (h : reader.StorageOK) {path tag : String}
    {info : RemoteFileCachePathInfo} {env : TaskEnv} {c : CacheReadChunk} {wrote : Nat × Bytes}
    {reader' : DiskCacheReader}
    (ht : DiskCacheReader.processCacheReadChunk w config path tag info env c reader = .ok (wrote, reader')) :
    reader'.StorageOK := by
  obtain ⟨found, r, hget, hcases⟩ := processCacheReadChunk_cases ht
  have hstart : StorageOK { reader with files := reader.files.remove env.removed } := h
  have hr : r.StorageOK := by
    have hfound := hstart.memGet env.getNow (c.blockKey path) tag
    rwa [hget] at hfound
  obtain rfl | ⟨_, _, files, accessMaps, _, _, hput⟩ | ⟨_, _, files, _, rfl⟩ := hcases
  · exact hr
  · have hrecorded : StorageOK { r with files, accessMaps } := hr
    exact hrecorded.memPut hput
  · have hfiles : StorageOK { r with files } := hr
    exact hfiles.storeFetched config env _ _ _ _

theorem StorageOK.remap (h : reader.StorageOK) {env : RemapEnv} {newBlockSize : Nat} {reader' : DiskCacheReader}
    (hr : reader.remapInMemoryDataBlocksForNewBlockSize env newBlockSize = .ok reader') : reader'.StorageOK := by
  unfold remapInMemoryDataBlocksForNewBlockSize at hr
  split at hr
  · cases hr
    exact h
  next storage hs =>
    cases hremap : storage.remapForNewBlockSize env newBlockSize with
    | error e =>
      rw [hremap] at hr
      cases hr
    | ok s =>
      rw [hremap] at hr
      cases hr
      intro storage' hs'
      cases hs'
      exact DataCacheStorage.remapForNewBlockSize_ok (h storage hs) hremap

end DiskCacheReader

/-! ## Runs of the reader -/

inductive DiskReaderAct
  | init
  /-- The task of a read for one chunk. -/
  | task (path versionTag : String) (env : TaskEnv) (c : CacheReadChunk)
  | clearCache
  | clearCacheFile (hash : PolicyHash) (fname : String)
  /-- A block-size change. -/
  | remap (env : RemapEnv) (newBlockSize : Nat)
  /-- Cache files go, by an eviction or otherwise. -/
  | removeFiles (filepaths : List String)
  /-- The object cache drops an entry. -/
  | evict (objCacheKey : String)

open DiskCacheReader in
/-- One call; the directories stay those of `config`, and a fault ends the run. -/
def diskReaderStep (w : World) (config : InstanceConfig) (reader : DiskCacheReader) :
    DiskReaderAct → Option DiskCacheReader
  | .init => some (reader.init config)
  | .task path versionTag env c =>
    match buildRemoteFileCachePathInfo w.platform config.onDiskCacheDirectories path with
    | .error _ => none
    | .ok info => match processCacheReadChunk w config path versionTag info env c reader with
      | .error _ => none
      | .ok (_, reader) => some reader
  | .clearCache => some (reader.clearCache config)
  | .clearCacheFile hash fname => (reader.clearCacheFile w config hash fname).toOption
  | .remap env newBlockSize => (reader.remapInMemoryDataBlocksForNewBlockSize env newBlockSize).toOption
  | .removeFiles filepaths => some { reader with files := reader.files.remove filepaths }
  | .evict objCacheKey => some { reader with inMemStorage := reader.inMemStorage.map (DataCacheStorage.evict objCacheKey) }

variable {w : World} {config : InstanceConfig} {reader : DiskCacheReader}

theorem diskReaderStep_storageOK {a : DiskReaderAct} {reader' : DiskCacheReader} (h : reader.StorageOK)
    (hs : diskReaderStep w config reader a = some reader') : reader'.StorageOK := by
  cases a with
  | init =>
    cases hs
    exact h.init config
  | task path versionTag env c =>
    simp only [diskReaderStep] at hs
    split at hs
    · cases hs
    split at hs
    · cases hs
    · cases hs
      exact h.processCacheReadChunk ‹_›
  | clearCache =>
    cases hs
    exact DiskCacheReader.StorageOK.map h fun s hs => (DataCacheStorage.clear_spec hs).1.ok
  | clearCacheFile hash fname =>
    obtain ⟨accessMaps, rfl⟩ := DiskCacheReader.clearCacheFile_eq (toOption_eq_some.mp hs)
    exact h.map fun s hs => (DataCacheStorage.clearFile_spec hs hash fname).1.ok
  | remap env newBlockSize =>
    simp only [diskReaderStep] at hs
    cases hr : reader.remapInMemoryDataBlocksForNewBlockSize env newBlockSize with
    | error e =>
      rw [hr] at hs
      cases hs
    | ok r =>
      rw [hr] at hs
      cases hs
      exact h.remap hr
  | removeFiles filepaths =>
    cases hs
    exact h
  | evict objCacheKey =>
    cases hs
    exact h.map fun s hs => (DataCacheStorage.evict_spec hs objCacheKey).ok

/-! ## The clear -/

/-- Nothing of the file is found any more, and everything of the others
still is. -/
structure Invalidated (p : Platform) (dirs : List String) (fname : String) (before after : DiskCacheReader) :
    Prop where
  noFile : ∀ uuid off n d, localCacheDestination p dirs uuid fname off n = .ok d → after.files d.destLocalFilepath = none
  noBlock : ∀ now key tag, key.fname = fname → (after.memGet now key tag).1 = none
  otherFiles : ∀ g, g ≠ fname → ∀ uuid off n d, localCacheDestination p dirs uuid g off n = .ok d →
    after.files d.destLocalFilepath = before.files d.destLocalFilepath
  otherBlocks : ∀ key, key.fname ≠ fname → after.memResident key = before.memResident key

/-- No block of the file is cached under a hashed name. -/
def NoHashedFile (p : Platform) (dirs : List String) (fname : String) (files : LocalFiles) : Prop :=
  ∀ uuid off n info, buildRemoteFileCachePathInfo p dirs fname = .ok info →
    Oversized p uuid (getLocalCacheFile info off n) →
    files (hashedCacheFile p info.cacheDirectory (getLocalCacheFile info off n)) = none

theorem forgetFile_files (hash : PolicyHash) (fname filepath : String) :
    (reader.forgetFile w config hash fname).files filepath =
      if ClearsFile w.platform config.onDiskCacheDirectories fname filepath then none else reader.files filepath := rfl

theorem forgetFile_noBlock (h : reader.StorageOK) (hash : PolicyHash) {fname : String} {key : InMemCacheBlock}
    (hk : key.fname = fname) (now : Nat) (tag : String) :
    ((reader.forgetFile w config hash fname).memGet now key tag).1 = none := by
  unfold DiskCacheReader.memGet
  cases hs : reader.inMemStorage with
  | none => simp [DiskCacheReader.forgetFile, hs]
  | some storage =>
    obtain ⟨hl, hn⟩ := DataCacheStorage.clearFile_spec (h storage hs) hash fname
    have hget := (DataCacheStorage.get_spec hl.ok now key tag).2
    simp only [DiskCacheReader.forgetFile, hs, Option.map_some]
    split
    next p s hg =>
      rw [hg] at hget
      obtain ⟨x, hx, _⟩ := hget
      rw [hn key hk] at hx
      cases hx
    next => rfl

theorem forgetFile_otherBlocks (h : reader.StorageOK) (hash : PolicyHash) {fname : String} {key : InMemCacheBlock}
    (hk : key.fname ≠ fname) :
    (reader.forgetFile w config hash fname).memResident key = reader.memResident key := by
  cases hs : reader.inMemStorage with
  | none => simp [DiskCacheReader.memResident, DiskCacheReader.forgetFile, hs]
  | some storage =>
    simp only [DiskCacheReader.memResident, DiskCacheReader.forgetFile, hs, Option.map_some, Option.bind_some]
    exact DataCacheStorage.clearFile_keeps (h storage hs) hash hk

/-- What goes is what the file has, just where none of it is hashed. -/
theorem forgetFile_complete_iff (hp : w.platform.OK) (hok : reader.StorageOK) (config : InstanceConfig)
    (hash : PolicyHash) (fname : String) :
    Invalidated w.platform config.onDiskCacheDirectories fname reader (reader.forgetFile w config hash fname) ↔
      NoHashedFile w.platform config.onDiskCacheDirectories fname reader.files := by
  constructor
  · intro hclear uuid off n info hi hover
    obtain ⟨d, hd⟩ := localCacheDestination_of_build hi uuid off n
    have hgone := hclear.noFile uuid off n d hd
    have hstays : ¬ClearsFile w.platform config.onDiskCacheDirectories fname d.destLocalFilepath :=
      fun hc => ((clearsFile_destination_iff hp hi hd).mp hc).2 hover
    rw [forgetFile_files, if_neg hstays] at hgone
    obtain ⟨info', hi', ⟨hfit, _⟩ | ⟨_, he⟩⟩ := localCacheDestination_cases hd
    all_goals obtain rfl : info' = info := Except.ok.inj (hi'.symm.trans hi)
    · exact absurd hover hfit
    · rw [← he]
      exact hgone
  · intro hno
    refine ⟨fun uuid off n d hd => ?_, fun now key tag hk => forgetFile_noBlock hok hash hk now tag,
      fun g hg uuid off n d hd => ?_, fun key hk => forgetFile_otherBlocks hok hash hk⟩
    · rw [forgetFile_files]
      obtain ⟨info, hi, ⟨hfit, _⟩ | ⟨hover, he⟩⟩ := localCacheDestination_cases hd
      · exact if_pos ((clearsFile_destination_iff hp hi hd).mpr ⟨rfl, hfit⟩)
      · split
        · rfl
        · rw [he]
          exact hno uuid off n info hi hover
    · obtain ⟨info, hi, _⟩ := localCacheDestination_cases hd
      rw [forgetFile_files, if_neg]
      exact fun hc => hg ((clearsFile_destination_iff hp hi hd).mp hc).1.symm

theorem diskReaderStep_inverse (hdirs : config.DistinctDirectories) {a : DiskReaderAct}
    {reader' : DiskCacheReader} (h : reader.accessMaps.Inverse)
    (hs : diskReaderStep w config reader a = some reader') : reader'.accessMaps.Inverse := by
  cases a with
  | init =>
    cases hs
    rwa [DiskCacheReader.init_accessMaps]
  | task path versionTag env c =>
    simp only [diskReaderStep] at hs
    split at hs
    · cases hs
    split at hs
    · cases hs
    · cases hs
      exact DiskCacheReader.processCacheReadChunk_inverse hdirs h ‹_›
  | clearCache =>
    cases hs
    exact AccessMaps.Inverse.empty
  | clearCacheFile hash fname =>
    obtain ⟨accessMaps, hclear, hinv⟩ := DiskCacheReader.clearCacheFile_returns h w config hash fname
    rw [diskReaderStep, hclear] at hs
    cases hs
    exact hinv
  | remap env newBlockSize =>
    simp only [diskReaderStep] at hs
    rw [DiskCacheReader.remap_accessMaps (toOption_eq_some.mp hs)]
    exact h
  | removeFiles filepaths | evict objCacheKey =>
    cases hs
    exact h

/-- **A per-file clear is complete**, in every state the reader can be in,
just where no block of the file is cached under a hashed name. It returns,
except where `lru_sp` and a directory configured twice have upset the access
maps. -/
theorem clearCacheFile_complete_iff (w : World) (config : InstanceConfig) (hp : w.platform.OK)
    (files : LocalFiles) (as : List DiskReaderAct) (reader : DiskCacheReader)
    (h : exec (diskReaderStep w config) { files } as = some reader) (hash : PolicyHash) (fname : String) :
    (∀ reader', reader.clearCacheFile w config hash fname = .ok reader' →
      (Invalidated w.platform config.onDiskCacheDirectories fname reader reader' ↔
        NoHashedFile w.platform config.onDiskCacheDirectories fname reader.files)) ∧
    (config.DistinctDirectories → ∃ reader', reader.clearCacheFile w config hash fname = .ok reader') := by
  refine ⟨fun reader' hclear => ?_, fun hdirs => ?_⟩
  · have hok : reader.StorageOK :=
      exec_invariant (fun _ _ _ h hs => diskReaderStep_storageOK h hs) h fun _ hs => by cases hs
    obtain ⟨accessMaps, rfl⟩ := DiskCacheReader.clearCacheFile_eq hclear
    rw [← forgetFile_complete_iff hp hok config hash fname]
    have hget := (reader.forgetFile w config hash fname).memGet_withMaps accessMaps
    constructor
    · exact fun hinv => ⟨hinv.noFile, fun now key tag hk => (hget now key tag).symm.trans
        (hinv.noBlock now key tag hk),
        hinv.otherFiles, hinv.otherBlocks⟩
    · exact fun hinv => ⟨hinv.noFile, fun now key tag hk => (hget now key tag).trans
        (hinv.noBlock now key tag hk),
        hinv.otherFiles, hinv.otherBlocks⟩
  · have hinv : reader.accessMaps.Inverse :=
      exec_invariant (fun _ _ _ h hs => diskReaderStep_inverse hdirs h hs) h AccessMaps.Inverse.empty
    obtain ⟨accessMaps, hclear, _⟩ := DiskCacheReader.clearCacheFile_returns hinv w config hash fname
    exact ⟨_, hclear⟩

/-! ## Two files -/

def invalidationWorld : World :=
  { remote := fun _ => [1, 2, 3, 4], platform := linuxPlatform knownSha256, page := 4096 }

def invalidationConfig : InstanceConfig :=
  { cacheBlockSize := 4, cacheType := .onDisk, onDiskCacheDirectories := ["/c"], enableDiskReaderMemCache := true
    diskReaderMaxMemCacheBlockCount := 0, diskReaderMaxMemCacheTimeoutMillisec := 0, maxInMemCacheBlockCount := 0
    inMemCacheBlockTimeoutMillisec := 0, inMemCacheStorage := .extension, policyOptions := ⟨0, .lru, []⟩
    chunking := .fixed, enableCacheValidation := false }

/-- The four bytes of a file. -/
def wholeFileChunk : CacheReadChunk := { chunkSize := 4, bytesToCopy := 4 }

/-- A first read of the file. -/
def firstRead (path : String) : List DiskReaderAct := [.init, .task path "" { uuid := "u" } wholeFileChunk]

/-- The reader after it, the block at `dest`. -/
def afterFirstRead (path dest : String) : DiskCacheReader :=
  { initialized := true
    inMemStorage := some (.extension ((newExtensionStorage 0 0).put 0 (wholeFileChunk.blockKey path)
      (filledChunk 4096 4 [1, 2, 3, 4]) ""))
    files := Function.update (fun _ => none) dest (some { content := [1, 2, 3, 4] }) }

theorem afterFirstRead_files (path dest : String) :
    (afterFirstRead path dest).files =
      Function.update (fun _ => none) dest (some { content := [1, 2, 3, 4] }) := rfl

theorem firstRead_stores {path : String} {d : LocalCacheDestination}
    (hd : localCacheDestination (linuxPlatform knownSha256) ["/c"] "u" path 0 4 = .ok d) :
    exec (diskReaderStep invalidationWorld invalidationConfig) {} (firstRead path) =
      some (afterFirstRead path d.destLocalFilepath) := by
  obtain ⟨info, hi, hr⟩ := localCacheDestination_ok hd
  have hfetch : invalidationWorld.fetch path wholeFileChunk = .ok (filledChunk 4096 4 [1, 2, 3, 4]) := rfl
  have hcopy : wholeFileChunk.copyBufferToRequestedMemory (filledChunk 4096 4 [1, 2, 3, 4]) =
      .ok (0, [1, 2, 3, 4]) := by
    decide +kernel
  -- Nothing is found in either layer.
  have hget : (DiskCacheReader.init invalidationConfig {}).memGet 0 (wholeFileChunk.blockKey path) "" =
      (none, DiskCacheReader.init invalidationConfig {}) := rfl
  have hremove : ({ DiskCacheReader.init invalidationConfig {} with
      files := (DiskCacheReader.init invalidationConfig {}).files.remove [] } : DiskCacheReader) =
      DiskCacheReader.init invalidationConfig {} := by
    rw [show (DiskCacheReader.init invalidationConfig {}).files.remove [] = fun _ => none from funext fun f => by
      simp [LocalFiles.remove, DiskCacheReader.init]]
    rfl
  have htask : DiskCacheReader.processCacheReadChunk invalidationWorld invalidationConfig path "" info
      { uuid := "u" } wholeFileChunk
      (DiskCacheReader.init invalidationConfig {}) =
        .ok ((0, [1, 2, 3, 4]), afterFirstRead path d.destLocalFilepath) := by
    rw [DiskCacheReader.processCacheReadChunk]
    simp only [hremove]
    rw [show resolveLocalCacheDestination invalidationWorld.platform "u" info.cacheDirectory
      (getLocalCacheFile info wholeFileChunk.alignedStartOffset wholeFileChunk.chunkSize) path =
        .ok d from hr, ok_bind]
    simp only [hget]
    rw [show LocalFiles.readLocalCacheFile invalidationWorld
      (DiskCacheReader.init invalidationConfig {}).files _ _ _ =
      .ok (none, fun _ => none) from rfl]
    simp only [if_true, ok_bind, hfetch, hcopy]
    exact congrArg (fun reader => Except.ok ((0, [1, 2, 3, 4]), reader))
      (DiskCacheReader.storeFetched_moved rfl rfl rfl rfl)
  simp only [firstRead, exec, diskReaderStep, Option.bind_some]
  rw [show buildRemoteFileCachePathInfo invalidationWorld.platform invalidationConfig.onDiskCacheDirectories path =
    .ok info from hi]
  simp only [htask, Option.bind_some]

theorem knownSha256_ok : (linuxPlatform knownSha256).OK :=
  linuxPlatform_ok (by decide +kernel) (by decide +kernel)

theorem of_all_ok {α : Type} {x : Except Fault α} {a : α} {P : α → Prop} [DecidablePred P]
    (h : x.toOption.all (fun a => decide (P a)) = true) (hx : x = .ok a) : P a := by
  subst hx
  exact of_decide_eq_true h

theorem exists_destination (path : String) :
    ∃ d, localCacheDestination (linuxPlatform knownSha256) ["/c"] "u" path 0 4 = .ok d :=
  localCacheDestination_total (by simp) (by decide) "u" path 0 4

/-- The name of `x` is short: what was read of it goes. -/
theorem clearCacheFile_complete_short :
    ∃ reader reader', exec (diskReaderStep invalidationWorld invalidationConfig) {} (firstRead "s3://b/x") =
      some reader ∧
      reader.clearCacheFile invalidationWorld invalidationConfig .inserted "s3://b/x" = .ok reader' ∧
      Invalidated (linuxPlatform knownSha256) ["/c"] "s3://b/x" reader reader' := by
  obtain ⟨d, hd⟩ := exists_destination "s3://b/x"
  obtain ⟨info, hi, _⟩ := localCacheDestination_cases hd
  have hfit : (buildRemoteFileCachePathInfo (linuxPlatform knownSha256) ["/c"] "s3://b/x").toOption.all
      (fun info => decide (¬Oversized (linuxPlatform knownSha256) "u" (getLocalCacheFile info 0 4))) = true := by
    decide +kernel
  have hclears : ClearsFile (linuxPlatform knownSha256) ["/c"] "s3://b/x" d.destLocalFilepath := by
    refine (clearsFile_destination_iff knownSha256_ok hi hd).mpr ⟨rfl, ?_⟩
    exact of_all_ok (P := fun info => ¬Oversized (linuxPlatform knownSha256) "u"
      (getLocalCacheFile info 0 4)) hfit hi
  obtain ⟨hcomplete, hreturns⟩ :=
    clearCacheFile_complete_iff invalidationWorld invalidationConfig knownSha256_ok _ _ _
    (firstRead_stores hd) .inserted "s3://b/x"
  obtain ⟨reader', hclear⟩ := hreturns fun hpolicy => by cases hpolicy
  refine ⟨_, reader', firstRead_stores hd, hclear, (hcomplete reader' hclear).mpr ?_⟩
  intro uuid off n info hi hover
  obtain ⟨d', hd'⟩ := localCacheDestination_of_build hi uuid off n
  obtain ⟨info', hi', ⟨hfit', _⟩ | ⟨_, he⟩⟩ := localCacheDestination_cases hd'
  all_goals obtain rfl : info' = info := Except.ok.inj (hi'.symm.trans hi)
  · exact absurd hover hfit'
  · have hne : d'.destLocalFilepath ≠ d.destLocalFilepath := by
      intro heq
      exact ((clearsFile_destination_iff knownSha256_ok hi hd').mp (heq ▸ hclears)).2 hover
    rw [← he, afterFirstRead_files, Function.update_of_ne hne]

/-- A path whose basename has 210 letters. -/
def longPath : String := "s3://b/" ++ String.ofList (List.replicate 210 'a')

theorem getFileName_plain {basename : List Char} (h : ∀ c ∈ basename, c ≠ '/' ∧ c ≠ '?' ∧ c ≠ '#') :
    (linuxPlatform knownSha256).getFileName (stripQueryAndFragment ("s3://b/" ++ String.ofList basename)) =
      String.ofList basename := by
  have hlist : ("s3://b/" ++ String.ofList basename).toList = "s3://b/".toList ++ basename := by
    rw [String.toList_append]
    exact congrArg ("s3://b/".toList ++ ·) String.toList_ofList
  have hnone : ∀ c : Char, c ∉ "s3://b/".toList → c ∉ basename →
      ("s3://b/".toList ++ basename).findIdx? (· == c) = none := by
    intro c hc hb
    rw [List.findIdx?_eq_none_iff]
    intro x hx
    rw [beq_eq_false_iff_ne]
    rintro rfl
    rcases List.mem_append.mp hx with hx | hx
    · exact hc hx
    · exact hb hx
  have hstrip : stripQueryAndFragment ("s3://b/" ++ String.ofList basename) = "s3://b/" ++
      String.ofList basename := by
    simp only [stripQueryAndFragment, hlist, hnone '?' (by decide) fun hm => (h _ hm).2.1 rfl,
      hnone '#' (by decide) fun hm => (h _ hm).2.2 rfl]
  have hb : '/' ∉ (String.ofList basename).toList := by
    rw [String.toList_ofList]
    exact fun hm => (h _ hm).1 rfl
  rw [hstrip, show ("s3://b/" : String) = "s3://b" ++ "/" from rfl]
  exact linuxPlatform_getFileName hb

/-- A name of more than 190 bytes is too long beside a hash. -/
theorem longPath_oversized {info : RemoteFileCachePathInfo}
    (hi : buildRemoteFileCachePathInfo (linuxPlatform knownSha256) ["/c"] longPath = .ok info) :
    Oversized (linuxPlatform knownSha256) "u" (getLocalCacheFile info 0 4) := by
  have hplain : ∀ c ∈ List.replicate 210 'a', c ≠ '/' ∧ c ≠ '?' ∧ c ≠ '#' := by
    intro c hc
    obtain rfl := List.eq_of_mem_replicate hc
    decide
  have hn := buildRemoteFileCachePathInfo_names hi
  have hname : info.sanitizedFname = String.ofList (List.replicate 210 'a') := by
    rw [hn.basename, longPath]
    exact getFileName_plain hplain
  have hslash : '/' ∉ (info.fileName 0 4 ++ ".u.httpfs_local_cache").toList :=
    notMem_append (fileName_notMem knownSha256_ok.getFileName_notMem hi 0 4) (by decide)
  have htemp : getTempCacheFilePath "u" (getLocalCacheFile info 0 4) =
      info.cacheDirectory ++ "/" ++ (info.fileName 0 4 ++ ".u.httpfs_local_cache") := by
    rw [getTempCacheFilePath, getLocalCacheFile_eq]
    simp only [String.append_assoc]
    rfl
  intro hfit
  have hlen := hfit.1
  rw [htemp, linuxPlatform_getFileName hslash, RemoteFileCachePathInfo.fileName, hname, hn.hex] at hlen
  simp only [String.utf8ByteSize_append] at hlen
  have h64 : (sha256ToHexString ((linuxPlatform knownSha256).sha256 longPath)).utf8ByteSize = 64 := by
    decide +kernel
  have h210 : (String.ofList (List.replicate 210 'a')).utf8ByteSize = 210 := by decide +kernel
  have hmax : (linuxPlatform knownSha256).maxFilenameLen = 255 := rfl
  omega

/-- Its name is hashed, and the clear does not find the file. -/
theorem clearCacheFile_keeps_hashed :
    ∃ reader reader', exec (diskReaderStep invalidationWorld invalidationConfig) {} (firstRead longPath) =
      some reader ∧
      reader.clearCacheFile invalidationWorld invalidationConfig .inserted longPath = .ok reader' ∧
      ¬Invalidated (linuxPlatform knownSha256) ["/c"] longPath reader reader' := by
  obtain ⟨d, hd⟩ := exists_destination longPath
  obtain ⟨info, hi, _⟩ := localCacheDestination_cases hd
  have hstays : ¬ClearsFile (linuxPlatform knownSha256) ["/c"] longPath
      d.destLocalFilepath := by
    intro hc
    exact ((clearsFile_destination_iff knownSha256_ok hi hd).mp hc).2 (longPath_oversized hi)
  refine ⟨_, (afterFirstRead longPath d.destLocalFilepath).forgetFile invalidationWorld invalidationConfig .inserted longPath,
    firstRead_stores hd, rfl, fun hclear => ?_⟩
  have hgone := (if_neg hstays).symm.trans (hclear.noFile "u" 0 4 d hd)
  rw [afterFirstRead_files, Function.update_self] at hgone
  cases hgone

end ReadCacheFs
