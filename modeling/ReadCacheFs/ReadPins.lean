/-
What a task has found of its chunk, and what may happen before it copies it.

A task finds its chunk in one step and copies it in a later one, and in
between anything may happen to the caches. The content of a file or of the
remote is the task's own, and a block it has pinned keeps its data
(`KeepsPins`), unless a change of the block size drains the object cache
below it. So what a task found stays what the file has (`TaskPc.Good`), and
its next step does not fail (`taskStep_good`).
-/
import ReadCacheFs.PinnedBlocks
import ReadCacheFs.ReadOpens

namespace ReadCacheFs

open Lib

variable {w : World}

/-! ## Pins -/

/-- A storage stays, and these pins of it give what they gave. -/
structure KeepsPins (held : Nat → Prop) (before after : Option DataCacheStorage) : Prop where
  built : before.isSome = true → after.isSome = true
  chunk : ∀ p, held p → ∀ d, before.bind (·.chunk? p) = some d → after.bind (·.chunk? p) = some d

namespace KeepsPins

variable {held : Nat → Prop} {storage storage' storage'' : Option DataCacheStorage}

theorem refl (held : Nat → Prop) (storage : Option DataCacheStorage) : KeepsPins held storage storage :=
  ⟨id, fun _ _ _ => id⟩

theorem trans (h : KeepsPins held storage storage') (h' : KeepsPins held storage' storage'') :
    KeepsPins held storage storage'' :=
  ⟨fun hb => h'.built (h.built hb), fun p hp d hd => h'.chunk p hp d (h.chunk p hp d hd)⟩

theorem imp {held' : Nat → Prop} (h : KeepsPins held storage storage') (hsub : ∀ p, held' p → held p) :
    KeepsPins held' storage storage' := ⟨h.built, fun p hp => h.chunk p (hsub p hp)⟩

/-- A storage just built has no pins. -/
theorem of_none (held : Nat → Prop) (storage : Option DataCacheStorage) : KeepsPins held none storage where
  built h := by cases h
  chunk p _ d h := by cases h

theorem set {s s' : DataCacheStorage} (hs : storage = some s)
    (hchunk : ∀ p, held p → ∀ d, s.chunk? p = some d → s'.chunk? p = some d) :
    KeepsPins held storage (some s') := by
  subst hs
  exact ⟨fun _ => rfl, hchunk⟩

theorem map {f : DataCacheStorage → DataCacheStorage}
    (hf : ∀ (s : DataCacheStorage) p, (f s).chunk? p = s.chunk? p) :
    KeepsPins held storage (storage.map f) := by
  cases storage with
  | none => exact of_none _ _
  | some s => exact set rfl fun p _ d hd => (hf s p).trans hd

end KeepsPins

/-- A remap keeps the pins of blocks it does not drain. -/
theorem DataCacheStorage.remapForNewBlockSize_chunk? {s s' : DataCacheStorage} (hs : s.OK) {env : RemapEnv}
    {newBlockSize : Nat} (h : s.remapForNewBlockSize env newBlockSize = .ok s') {p : Nat} (hp : p ∉ s.drains)
    {d : PageAlignedDataChunk} (hd : s.chunk? p = some d) : s'.chunk? p = some d := by
  obtain ⟨taken, s₁, htake, hl, _⟩ := take_spec hs env.clock env.policyHash
  rw [remapForNewBlockSize, htake, ok_bind] at h
  obtain ⟨rebuilt, _, hput⟩ := except_bind_eq_ok.mp h
  have h₁ : s₁.OK ∧ s₁.chunk? p = some d := ⟨hl.ok, (take_chunk? hs htake hp).trans hd⟩
  exact (foldlM_invariant (I := fun s : DataCacheStorage => s.OK ∧ s.chunk? p = some d)
    (fun s kv s' hs hput => ⟨(put_spec hs.1 hput).1, put_chunk? hs.1 hput hs.2⟩) hput h₁).2

/-- The storage a read pins its blocks in. -/
def ReaderUse.storage (fs : CacheFileSystem) : ReaderUse → Option DataCacheStorage
  | .inMem => fs.inMemStorage
  | .onDisk _ => fs.diskReader.inMemStorage

/-! ## Tasks -/

/-- What a task found of its chunk is what the file has. -/
def Found.Good (remote : Remote) (key : InMemCacheBlock) (storage : Option DataCacheStorage) : Found → Prop
  | .block pinned => ∃ d, storage.bind (·.chunk? pinned) = some d ∧ Mirrors remote key d
  | .file content => Mirrors remote key content
  | .nothing => True

/-- What a task has got so far is what the file has. -/
def TaskPc.Good (remote : Remote) (path : String) (c : CacheReadChunk) (storage : Option DataCacheStorage) :
    TaskPc → Prop
  | .start | .localFile => True
  | .lookedUp found | .recorded found => found.Good remote (c.blockKey path) storage
  | .fetched content => Mirrors remote (c.blockKey path) content
  | .done wrote => wrote = (c.requestedStartAddr, slice (remote path) c.requestedStartOffset c.bytesToCopy)

/-- The task pins a block. -/
def TaskPc.pin : TaskPc → Option Nat
  | .lookedUp (.block pinned) | .recorded (.block pinned) => some pinned
  | _ => none

/-- Only tasks on disk get there. -/
def TaskPc.atFile : TaskPc → Bool
  | .localFile | .lookedUp (.file _) | .recorded (.file _) => true
  | _ => false

/-- What a finished task wrote. -/
def TaskPc.wrote? : TaskPc → Option (Nat × Bytes)
  | .done wrote => some wrote
  | _ => none

variable {path : String} {c : CacheReadChunk} {pc : TaskPc}

theorem TaskPc.Good.keep {remote : Remote} {storage storage' : Option DataCacheStorage}
    (h : pc.Good remote path c storage) (hkeep : KeepsPins (· ∈ pc.pin) storage storage') :
    pc.Good remote path c storage' := by
  cases pc with
  | lookedUp found | recorded found =>
    cases found with
    | block pinned =>
      obtain ⟨d, hd, hm⟩ := h
      exact ⟨d, hkeep.chunk pinned rfl d hd, hm⟩
    | file | nothing => exact h
  | start | localFile | fetched | done => exact h

/-- A task of the in-memory reader takes its step, whatever happened since its last. -/
theorem InMemoryCacheReader.taskStep_good (hsized : w.remote.Sized) {storage : DataCacheStorage}
    (hs : storage.MirrorsRemote w.remote) (hfit : c.Fits (w.remote path).length) (tag : String) (env : TaskEnv)
    (hgood : pc.Good w.remote path c (some storage)) (hdone : pc.isDone = false) (hfile : pc.atFile = false) :
    ∃ pc' storage', taskStep w path tag env c pc storage = .ok (pc', storage') ∧ storage'.MirrorsRemote w.remote ∧
      pc'.Good w.remote path c (some storage') ∧ pc'.atFile = false ∧
      KeepsPins (fun _ => True) (some storage) (some storage') := by
  cases pc with
  | start =>
    obtain ⟨hget, hhit⟩ := hs.get env.getNow (c.blockKey path) tag
    have hkeep : KeepsPins (fun _ => True) (some storage)
        (some (storage.get env.getNow (c.blockKey path) tag).2) :=
      .set rfl fun p _ d hd => (DataCacheStorage.get_chunk? _ _ _ hs.ok).trans hd
    have hheld := DataCacheStorage.get_spec hs.ok env.getNow (c.blockKey path) tag
    rw [taskStep]
    generalize storage.get env.getNow (c.blockKey path) tag = got at hget hhit hkeep hheld ⊢
    obtain ⟨_ | pinned, storage'⟩ := got
    · exact ⟨.lookedUp .nothing, storage', rfl, hget, trivial, rfl, hkeep⟩
    · obtain ⟨x, hx, hd, _⟩ := hheld.2
      refine ⟨.lookedUp (.block pinned), storage', rfl, hget, ⟨_, hd, ?_⟩, rfl, hkeep⟩
      have hm := hhit pinned rfl
      rw [DataCacheStorage.pinnedData, hd] at hm
      exact hm
  | localFile => cases hfile
  | lookedUp found =>
    refine ⟨.recorded found, storage, rfl, hs, hgood, ?_, .refl _ _⟩
    cases found with
    | file content => cases hfile
    | block | nothing => rfl
  | recorded found =>
    cases found with
    | block pinned =>
      obtain ⟨d, hd, hm⟩ := hgood
      have hdata : storage.pinnedData pinned = d := by
        rw [DataCacheStorage.pinnedData, show storage.chunk? pinned = some d from hd]
        rfl
      refine ⟨.done _, storage.release pinned, ?_, hs.lose (DataCacheStorage.release_spec hs.ok pinned), rfl, rfl,
        .set rfl fun p _ d hd => (DataCacheStorage.release_chunk? pinned).trans hd⟩
      rw [taskStep, hdata, hm.copy hsized hfit]
      rfl
    | file content => cases hfile
    | nothing =>
      obtain ⟨content, hfetch, hm⟩ := fetch_spec (w := w) hfit
      refine ⟨.fetched content, storage, ?_, hs, hm, rfl, .refl _ _⟩
      rw [taskStep, hfetch]
      rfl
  | fetched content =>
    have hm : Mirrors w.remote (c.blockKey path) content := hgood
    obtain ⟨storage', hput, h'⟩ := hs.put env.putNow env.evicted hm tag
    refine ⟨.done _, storage', ?_, h', rfl, rfl,
      .set rfl fun p _ d hd => DataCacheStorage.put_chunk? hs.ok hput hd⟩
    rw [taskStep, hm.copy hsized hfit, ok_bind, hput]
    rfl
  | done wrote => cases hdone

namespace DiskCacheReader

variable {reader reader' : DiskCacheReader}

theorem memPut_keeps (hok : ∀ s, reader.inMemStorage = some s → s.OK) {env : TaskEnv} {key : InMemCacheBlock}
    {content : PageAlignedDataChunk} {tag : String} (hput : reader.memPut env key content tag = .ok reader') :
    KeepsPins (fun _ => True) reader.inMemStorage reader'.inMemStorage := by
  unfold DiskCacheReader.memPut at hput
  split at hput
  · cases hput
    exact .refl _ _
  next storage hs =>
    obtain ⟨storage', hp, hput⟩ := except_map_eq_ok.mp hput
    cases hput
    exact .set hs fun p _ d hd => DataCacheStorage.put_chunk? (hok storage hs) hp hd

theorem storeFetched_keeps (config : InstanceConfig) (hok : ∀ s, reader.inMemStorage = some s → s.OK)
    (env : TaskEnv) (dest : String) (key : InMemCacheBlock) (content : PageAlignedDataChunk) (tag : String) :
    KeepsPins (fun _ => True) reader.inMemStorage
      (reader.storeFetched config env dest key content tag).inMemStorage := by
  obtain ⟨files, accessMaps, _, hleft | hput, _⟩ := storeFetched_spec config reader env dest key content tag
  · rw [hleft]
    exact .refl _ _
  · have hkeep := memPut_keeps (by exact hok) hput
    exact hkeep

/-- A task on disk takes its step, whatever happened since its last. -/
theorem taskStep_good (hsized : w.remote.Sized) (hp : w.platform.OK) {config : InstanceConfig}
    (hconfig : config.DistinctDirectories) (h : reader.MirrorsRemote w) {dirs : List String}
    {info : RemoteFileCachePathInfo} (hi : buildRemoteFileCachePathInfo w.platform dirs path = .ok info)
    (hfit : c.Fits (w.remote path).length) (tag : String) (env : TaskEnv)
    (hgood : pc.Good w.remote path c reader.inMemStorage) (hdone : pc.isDone = false) :
    ∃ pc' reader', taskStep w path tag config info env c pc reader = .ok (pc', reader') ∧
      reader'.MirrorsRemote w ∧
      pc'.Good w.remote path c reader'.inMemStorage ∧
      KeepsPins (fun _ => True) reader.inMemStorage reader'.inMemStorage := by
  obtain ⟨dest, hd⟩ := localCacheDestination_of_build hi env.uuid c.alignedStartOffset c.chunkSize
  obtain ⟨info', hi', hdest⟩ := localCacheDestination_ok hd
  obtain rfl : info' = info := Except.ok.inj (hi'.symm.trans hi)
  have hdest : cacheDest w path info' env c = .ok dest := hdest
  have hok : ∀ s, reader.inMemStorage = some s → s.OK := fun s hs => (h.mem s hs).ok
  cases pc with
  | start =>
    have hfiles := h.files.remove env.removed
    rw [taskStep, hdest, ok_bind]
    dsimp only
    cases hmem : reader.inMemStorage with
    | none => exact ⟨.localFile, _, rfl, ⟨hmem ▸ h.mem, hfiles, h.access⟩, trivial, .of_none _ _⟩
    | some storage =>
      have hs := h.mem storage hmem
      obtain ⟨hget, hhit⟩ := hs.get env.getNow (c.blockKey path) tag
      have hkeep : KeepsPins (fun _ => True) (some storage)
          (some (storage.get env.getNow (c.blockKey path) tag).2) :=
        .set rfl fun p _ d hd => (DataCacheStorage.get_chunk? _ _ _ hs.ok).trans hd
      have hheld := DataCacheStorage.get_spec hs.ok env.getNow (c.blockKey path) tag
      dsimp only
      generalize storage.get env.getNow (c.blockKey path) tag = got at hget hhit hkeep hheld ⊢
      obtain ⟨_ | pinned, storage'⟩ := got
      · exact ⟨.localFile, _, rfl, ⟨.some hget, hfiles, h.access⟩, trivial, hkeep⟩
      · obtain ⟨x, hx, hd, _⟩ := hheld.2
        refine ⟨.lookedUp (.block pinned), _, rfl, ⟨.some hget, hfiles, h.access⟩, ⟨_, hd, ?_⟩, hkeep⟩
        have hm := hhit pinned rfl
        rw [DataCacheStorage.pinnedData, hd] at hm
        exact hm
  | localFile =>
    rw [taskStep, hdest, ok_bind]
    dsimp only
    split
    · obtain ⟨found, files, hread, hfiles, hfound⟩ :=
        LocalFiles.readLocalCacheFile_spec h.files (c.blockKey path) hd hfit.pos hfit.inFile tag
      have hread : reader.files.readLocalCacheFile w dest.destLocalFilepath c.chunkSize tag =
          .ok (found, files) := hread
      rw [hread, ok_bind]
      refine ⟨.lookedUp (.ofFile found), _, rfl, ⟨h.mem, hfiles, h.access⟩, ?_, .refl _ _⟩
      cases found with
      | none => trivial
      | some content => exact hfound content rfl
    · exact ⟨.lookedUp .nothing, _, rfl, h, trivial, .refl _ _⟩
  | lookedUp found => exact ⟨.recorded found, reader, rfl, h, hgood, .refl _ _⟩
  | recorded found =>
    cases found with
    | block pinned =>
      obtain ⟨d, hd, hm⟩ := hgood
      obtain ⟨storage, hs, hd⟩ := Option.bind_eq_some_iff.mp hd
      have hdata : storage.pinnedData pinned = d := by
        rw [DataCacheStorage.pinnedData, hd]
        rfl
      refine ⟨.done _, { reader with inMemStorage := some (storage.release pinned) }, ?_,
        ⟨.some ((h.mem storage hs).lose (DataCacheStorage.release_spec (h.mem storage hs).ok pinned)),
          h.files, h.access⟩, rfl,
        .set hs fun p _ d hd => (DataCacheStorage.release_chunk? pinned).trans hd⟩
      rw [taskStep, hs]
      dsimp only
      rw [hdata, hm.copy hsized hfit]
      rfl
    | file content =>
      have hm : Mirrors w.remote (c.blockKey path) content := hgood
      obtain ⟨accessMaps, hmaps, hinv⟩ := recordAccess_spec config reader env dest.destLocalFilepath
      obtain ⟨hrecorded, haccess⟩ := hinv h.access
      have h₁ : MirrorsRemote w { reader with accessMaps } := ⟨h.mem, h.files, haccess⟩
      obtain ⟨reader', hput, h'⟩ := h₁.memPut env hm tag
      refine ⟨.done _, reader', ?_, h', rfl, ?_⟩
      · rw [taskStep, hdest, ok_bind, hm.copy hsized hfit, ok_bind]
        dsimp only
        rw [hmaps, hrecorded, ok_bind, hput]
        rfl
      · have hkeep := memPut_keeps (by exact hok) hput
        exact hkeep
    | nothing =>
      obtain ⟨content, hfetch, hm⟩ := fetch_spec (w := w) hfit
      refine ⟨.fetched content, reader, ?_, h, hm, .refl _ _⟩
      rw [taskStep, hfetch]
      rfl
  | fetched content =>
    have hm : Mirrors w.remote (c.blockKey path) content := hgood
    refine ⟨.done _, _, ?_, h.storeFetched hp hconfig env (c.blockKey path) hd hm tag, rfl,
      storeFetched_keeps config hok _ _ _ _ _⟩
    rw [taskStep, hdest, ok_bind, hm.copy hsized hfit]
    rfl
  | done wrote => cases hdone

end DiskCacheReader

/-! ## What keeps all pins -/

namespace CacheFileSystem

variable {fs fs' fs'' : CacheFileSystem}

def KeepsAllPins (fs fs' : CacheFileSystem) : Prop :=
  ∀ reader : ReaderUse, KeepsPins (fun _ => True) (reader.storage fs) (reader.storage fs')

theorem KeepsAllPins.of (hmem : KeepsPins (fun _ => True) fs.inMemStorage fs'.inMemStorage)
    (hdisk : KeepsPins (fun _ => True) fs.diskReader.inMemStorage fs'.diskReader.inMemStorage) :
    fs.KeepsAllPins fs' := by
  intro reader
  cases reader with
  | inMem => exact hmem
  | onDisk => exact hdisk

theorem KeepsAllPins.of_eq (hmem : fs'.inMemStorage = fs.inMemStorage)
    (hdisk : fs'.diskReader.inMemStorage = fs.diskReader.inMemStorage) : fs.KeepsAllPins fs' :=
  .of (hmem ▸ .refl _ _) (hdisk ▸ .refl _ _)

theorem KeepsAllPins.trans (h : fs.KeepsAllPins fs') (h' : fs'.KeepsAllPins fs'') : fs.KeepsAllPins fs'' :=
  fun reader => (h reader).trans (h' reader)

theorem clearCacheFile_keepsPins {hash : PolicyHash} {filepath : String}
    (hs : fs.clearCacheFile w hash filepath = .ok fs') : fs.KeepsAllPins fs' := by
  obtain ⟨diskReader, hdisk, rfl⟩ := except_map_eq_ok.mp hs
  refine .of (.map fun s p => DataCacheStorage.clearFile_chunk? hash filepath) ?_
  split at hdisk
  · obtain ⟨accessMaps, rfl⟩ := DiskCacheReader.clearCacheFile_eq hdisk
    exact .map fun s p => DataCacheStorage.clearFile_chunk? hash filepath
  · cases hdisk
    exact .refl _ _

theorem clearCacheFiles_keepsPins {hash : PolicyHash} {filenames : List String}
    (hs : fs.clearCacheFiles w hash filenames = .ok fs') : fs.KeepsAllPins fs' := by
  induction filenames generalizing fs with
  | nil =>
    cases hs
    exact .of_eq rfl rfl
  | cons filename filenames ih =>
    obtain ⟨fs₁, hfirst, hrest⟩ := clearCacheFiles_cons.mp hs
    exact (clearCacheFile_keepsPins hfirst).trans (ih hrest)

theorem openFileExtended_keepsPins {clearCacheOnWrite : Bool} {flags : OpenFlags} {path : String}
    {hash : PolicyHash} (hs : fs.openFileExtended w clearCacheOnWrite flags path hash = .ok fs') :
    fs.KeepsAllPins fs' := by
  obtain ⟨new, ⟨_, fs₁, hclear, rfl⟩ | ⟨_, rfl⟩⟩ := openFileExtended_cases hs
  · exact (clearCacheFile_keepsPins hclear : KeepsAllPins _ _)
  · exact .of_eq rfl rfl

theorem MirrorsRemote.clearCacheFiles (h : fs.MirrorsRemote w) (hash : PolicyHash) (filenames : List String) :
    ∃ fs', fs.clearCacheFiles w hash filenames = .ok fs' ∧ fs'.MirrorsRemote w := by
  induction filenames generalizing fs with
  | nil => exact ⟨fs, rfl, h⟩
  | cons filename filenames ih =>
    obtain ⟨fs₁, hfirst, h₁⟩ := h.clearCacheFile hash filename
    obtain ⟨fs', hrest, h'⟩ := ih h₁
    exact ⟨fs', clearCacheFiles_cons.mpr ⟨fs₁, hfirst, hrest⟩, h'⟩

theorem MirrorsRemote.openFileExtended (h : fs.MirrorsRemote w) (clearCacheOnWrite : Bool) (flags : OpenFlags)
    (path : String) (hash : PolicyHash) :
    ∃ fs', fs.openFileExtended w clearCacheOnWrite flags path hash = .ok fs' ∧ fs'.MirrorsRemote w :=
  openFileExtended_returns h.initializeGlobalConfig (h.initializeGlobalConfig.clearCacheFile hash path)
    (fun _ _ h₁ => { h₁ with }) clearCacheOnWrite flags

/-- A remap keeps the pins of blocks it does not drain. -/
theorem remap_keepsPins {storage storage' : DataCacheStorage} (hok : storage.OK) {env : RemapEnv}
    {newBlockSize : Nat} (hs : storage.remapForNewBlockSize env newBlockSize = .ok storage')
    {before : Option DataCacheStorage} (hbefore : before = some storage) :
    KeepsPins (fun p => ∀ s, before = some s → p ∉ s.drains) before (some storage') :=
  .set hbefore fun _ hp _ hd => DataCacheStorage.remapForNewBlockSize_chunk? hok hs (hp storage hbefore) hd

theorem MirrorsRemote.remap_keepsPins (h : fs.MirrorsRemote w) {newBlockSize : Nat} {inMemEnv diskEnv : RemapEnv}
    (hs : fs.remapInMemoryDataCaches newBlockSize inMemEnv diskEnv = .ok fs') (reader : ReaderUse) :
    KeepsPins (fun p => ∀ s, reader.storage fs = some s → p ∉ s.drains) (reader.storage fs)
      (reader.storage fs') := by
  have hdisk : ∀ {r : DiskCacheReader},
    fs.diskReader.remapInMemoryDataBlocksForNewBlockSize diskEnv newBlockSize = .ok r →
      KeepsPins (fun p => ∀ s, fs.diskReader.inMemStorage = some s → p ∉ s.drains) fs.diskReader.inMemStorage
        r.inMemStorage := by
    intro r hr
    unfold DiskCacheReader.remapInMemoryDataBlocksForNewBlockSize at hr
    split at hr
    next hnone =>
      rw [hnone]
      exact .of_none _ _
    next s hsome =>
      obtain ⟨s', hs', hr⟩ := except_map_eq_ok.mp hr
      cases hr
      exact CacheFileSystem.remap_keepsPins (h.disk.mem s hsome).ok hs' hsome
  unfold remapInMemoryDataCaches at hs
  dsimp only at hs
  split at hs
  next hnone =>
    obtain ⟨_, hmem, hs⟩ := except_bind_eq_ok.mp hs
    obtain ⟨r, hr, hs⟩ := except_bind_eq_ok.mp hs
    cases hmem
    cases hs
    cases reader with
    | inMem =>
      dsimp only [ReaderUse.storage]
      rw [hnone]
      exact .of_none _ _
    | onDisk info => exact hdisk hr
  next s hsome =>
    obtain ⟨_, hmem, hs⟩ := except_bind_eq_ok.mp hs
    obtain ⟨r, hr, hs⟩ := except_bind_eq_ok.mp hs
    obtain ⟨s', hs', rfl⟩ := except_map_eq_ok.mp hmem
    cases hs
    cases reader with
    | inMem => exact CacheFileSystem.remap_keepsPins (h.storage s hsome).ok hs' hsome
    | onDisk info => exact hdisk hr

theorem MirrorsRemote.setCacheBlockSize_keepsPins (h : fs.MirrorsRemote w) {newBlockSize : Nat}
    {inMemEnv diskEnv : RemapEnv} (hs : fs.setCacheBlockSize newBlockSize inMemEnv diskEnv = .ok fs')
    (reader : ReaderUse) :
    KeepsPins (fun p => ∀ s, reader.storage fs = some s → p ∉ s.drains) (reader.storage fs)
      (reader.storage fs') := by
  unfold CacheFileSystem.setCacheBlockSize at hs
  split at hs
  · cases hs
    exact .refl _ _
  · split at hs
    · obtain ⟨fs₁, hremap, hs⟩ := except_bind_eq_ok.mp hs
      cases hs
      have hkeep := h.remap_keepsPins hremap reader
      cases reader with
      | inMem | onDisk => exact hkeep
    · cases hs
      cases reader with
      | inMem | onDisk => exact .refl _ _

/-- Nothing else a session does touches a pin. -/
theorem fsStep_keepsPins {act : FsAct} (hact : (ProfileAct.session act).opensOrReads = false)
    (hother : ∀ newBlockSize inMemEnv diskEnv, act ≠ .setCacheBlockSize newBlockSize inMemEnv diskEnv)
    (hs : fsStep w fs act = .ok fs') : fs.KeepsAllPins fs' := by
  cases act with
  | openFile | read | readAt => cases hact
  | setCacheBlockSize newBlockSize inMemEnv diskEnv => exact absurd rfl (hother newBlockSize inMemEnv diskEnv)
  | seek | configure | registerLayout | clearLayouts | clearLayout | removeFiles =>
    cases hs
    exact .of_eq rfl rfl
  | clearCache =>
    cases hs
    refine .of (.map fun s p => s.clear_chunk?) ?_
    dsimp only [clearCache]
    split
    · exact .map fun s p => s.clear_chunk?
    · exact .refl _ _
  | clearCacheFile hash filepath => exact clearCacheFile_keepsPins hs
  | evict objCacheKey =>
    cases hs
    have hevict : ∀ (s : DataCacheStorage) p, (s.evict objCacheKey).chunk? p = s.chunk? p := fun _ _ =>
      DataCacheStorage.evict_chunk? objCacheKey
    exact .of (.map hevict) (.map hevict)

end CacheFileSystem

end ReadCacheFs
