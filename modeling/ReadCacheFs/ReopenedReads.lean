/-
Reading a range again through a handle opened later.

A task that has found or stored its chunk leaves it held (`Served`), and
opens and removals of other files drop nothing. So while nothing else drops
the blocks of a range, and reads of the file go on being cut as they were, a
read of the range through a new handle finds every block of it and asks the
remote file for nothing (`Rereads`).
-/
import Mathlib.Logic.Relation
import ReadCacheFs.ReadOpens

namespace ReadCacheFs

open Lib

def ActiveRead.chunks (r : ActiveRead) : List CacheReadChunk := r.tasks.map (·.1)

variable {w : World} {uuid path : String} {chunks : List CacheReadChunk} {c : CacheReadChunk}
    {fs fs' : CacheFileSystem}

/-! ## Blocks that are held -/

namespace CacheFileSystem

def memHolds (path : String) (c : CacheReadChunk) (fs : CacheFileSystem) : Bool :=
  match fs.config.cacheType with
  | .noop => false
  | .inMem => (fs.resident (c.blockKey path)).isSome
  | .onDisk => (fs.diskReader.memResident (c.blockKey path)).isSome

/-- Where the chunk's block is on disk, the temporary file it is written to named by `uuid`. -/
def cacheFilepath (w : World) (uuid path : String) (c : CacheReadChunk) (fs : CacheFileSystem) : Option String :=
  (localCacheDestination w.platform fs.config.onDiskCacheDirectories uuid path c.alignedStartOffset c.chunkSize).toOption.map
    (·.destLocalFilepath)

def fileHolds (w : World) (uuid path : String) (c : CacheReadChunk) (fs : CacheFileSystem) : Bool :=
  match fs.config.cacheType with
  | .noop | .inMem => false
  | .onDisk => (fs.cacheFilepath w uuid path c).any fun f => (fs.diskReader.files f).isSome

def Holds (w : World) (uuid path : String) (fs : CacheFileSystem) (c : CacheReadChunk) : Prop :=
  fs.memHolds path c = true ∨ fs.fileHolds w uuid path c = true

instance : Decidable (fs.Holds w uuid path c) := inferInstanceAs (Decidable (_ ∨ _))

/-- Nothing of the chunks is evicted or found expired. -/
def Keeps (w : World) (uuid path : String) (chunks : List CacheReadChunk) (fs fs' : CacheFileSystem) : Prop :=
  ∀ c ∈ chunks, (fs.memHolds path c = true → fs'.memHolds path c = true) ∧
    (fs.fileHolds w uuid path c = true → fs'.fileHolds w uuid path c = true)

instance : Decidable (Keeps w uuid path chunks fs fs') := inferInstanceAs (Decidable (∀ c ∈ chunks, _))

/-- What reads of the file are cut and cached by stays as it is. -/
def SameSettings (path : String) (fs fs' : CacheFileSystem) : Prop :=
  fs'.config.cacheType = fs.config.cacheType ∧ fs'.config.chunking = fs.config.chunking ∧
    fs'.config.cacheBlockSize = fs.config.cacheBlockSize ∧
    fs'.config.onDiskCacheDirectories = fs.config.onDiskCacheDirectories ∧ fs'.layouts.lookup path = fs.layouts.lookup path

instance : Decidable (SameSettings path fs fs') := inferInstanceAs (Decidable (_ ∧ _))

theorem Keeps.holds (h : Keeps w uuid path chunks fs fs') (hc : c ∈ chunks) (hh : fs.Holds w uuid path c) :
    fs'.Holds w uuid path c := hh.imp (h c hc).1 (h c hc).2

theorem KeepsBlocks.keeps (h : KeepsBlocks w path fs fs') (hset : SameSettings path fs fs') (uuid : String)
    (chunks : List CacheReadChunk) : Keeps w uuid path chunks fs fs' := by
  obtain ⟨htype, _, _, hdirs, _⟩ := hset
  intro c _
  constructor
  · intro hheld
    unfold memHolds at hheld ⊢
    rw [htype]
    cases hcache : fs.config.cacheType with
    | noop => simp [hcache] at hheld
    | inMem => simpa [hcache, h.storage (c.blockKey path) rfl] using hheld
    | onDisk => simpa [hcache, h.memLayer (c.blockKey path) rfl] using hheld
  · intro hheld
    unfold fileHolds at hheld ⊢
    rw [htype]
    cases hcache : fs.config.cacheType with
    | noop | inMem => simp [hcache] at hheld
    | onDisk =>
      simp only [hcache, cacheFilepath, hdirs, Option.any_map] at hheld ⊢
      obtain ⟨d, hd, hfile⟩ := (Option.any_eq_true _ _).mp hheld
      refine (Option.any_eq_true _ _).mpr ⟨d, hd, ?_⟩
      rw [h.files _ uuid _ _ d (toOption_eq_some.mp hd)]
      exact hfile

end CacheFileSystem

/-! ## How a read is cut -/

/-- What a plan gets to, asking the same layouts all along. -/
def Planned (path : String) (request : ColumnChunkPlanRequest) (l : Layouts) : PlanPc → Prop :=
  Relation.ReflTransGen (fun pc pc' => planRead path request l pc = some pc') .start

theorem planRead_congr {request : ColumnChunkPlanRequest} {l l' : Layouts}
    (h : l'.lookup path = l.lookup path) (pc : PlanPc) :
    planRead path request l' pc = planRead path request l pc := by
  have hhas : l'.hasLayout path = l.hasLayout path := by rw [Layouts.hasLayout, Layouts.hasLayout, h]
  have hfind : ∀ pos, l'.find path pos = l.find path pos := fun pos => by rw [Layouts.find, Layouts.find, h]
  have hnext : ∀ pos, l'.nextStart path pos = l.nextStart path pos :=
    fun pos => by rw [Layouts.nextStart, Layouts.nextStart, h]
  cases pc with
  | start => rw [planRead, planRead, hhas]
  | find pos chunks => rw [planRead, planRead, hfind]
  | nextStart pos chunks => rw [planRead, planRead, hnext]
  | done res => rfl

theorem Planned.congr {request : ColumnChunkPlanRequest} {l l' : Layouts}
    (h : l'.lookup path = l.lookup path) {pc : PlanPc} (hp : Planned path request l pc) :
    Planned path request l' pc :=
  Relation.ReflTransGen.mono (fun pc _ hstep => (planRead_congr h pc).trans hstep) _ _ hp

theorem Planned.unique {request : ColumnChunkPlanRequest} {l : Layouts}
    {res res' : Except Fault (List CacheReadChunk)} (h : Planned path request l (.done res))
    (h' : Planned path request l (.done res')) : res = res' := by
  have hend : ∀ {res : Except Fault (List CacheReadChunk)} {pc : PlanPc},
      Relation.ReflTransGen (fun pc pc' => planRead path request l pc = some pc') (.done res) pc →
        pc = .done res := by
    intro res pc hrun
    rcases hrun.cases_head with he | ⟨pc', hstep, _⟩
    · exact he.symm
    · cases hstep
  have huniq : Relator.RightUnique fun pc pc' => planRead path request l pc = some pc' :=
    fun _ _ _ hb hc => Option.some.inj (hb.symm.trans hc)
  rcases Relation.ReflTransGen.total_of_right_unique huniq h h' with hrun | hrun
  · cases hend hrun
    rfl
  · cases hend hrun
    rfl

namespace CacheFileSystem

def planRequest (w : World) (path : String) (start n : Nat) (fs : CacheFileSystem) : ColumnChunkPlanRequest :=
  ⟨start, n, (w.remote path).length, fs.config.cacheBlockSize⟩

/-- The settings cut a range into these chunks. -/
def Cuts (w : World) (path : String) (start n : Nat) (fs : CacheFileSystem) (chunks : List CacheReadChunk) :
    Prop :=
  if fs.config.cacheType = .inMem ∧ fs.config.chunking = .columnChunk then
    Planned path (fs.planRequest w path start n) fs.layouts (.done (.ok chunks))
  else ∃ grid, fixedGridChunks start n fs.config.cacheBlockSize (w.remote path).length = .ok grid ∧ grid.chunks = chunks

theorem Cuts.unique {start n : Nat} {chunks' : List CacheReadChunk} (h : fs.Cuts w path start n chunks)
    (h' : fs.Cuts w path start n chunks') : chunks = chunks' := by
  unfold Cuts at h h'
  split at h
  next hplan =>
    rw [if_pos hplan] at h'
    cases h.unique h'
    rfl
  next hgrid =>
    rw [if_neg hgrid] at h'
    obtain ⟨grid, hok, rfl⟩ := h
    obtain ⟨grid', hok', rfl⟩ := h'
    cases hok.symm.trans hok'
    rfl

theorem Cuts.of_settings {start n : Nat} (hset : SameSettings path fs fs') (h : fs.Cuts w path start n chunks) :
    fs'.Cuts w path start n chunks := by
  obtain ⟨htype, hchunking, hblock, _, hlookup⟩ := hset
  unfold Cuts planRequest at h ⊢
  rw [htype, hchunking, hblock]
  split at h
  next hplan =>
    rw [if_pos hplan]
    exact h.congr hlookup
  next hgrid =>
    rw [if_neg hgrid]
    exact h

end CacheFileSystem

/-- The settings have the read go through this reader. -/
def ReaderUse.Under (w : World) (fs : CacheFileSystem) (path : String) : ReaderUse → Prop
  | .inMem => fs.config.cacheType = .inMem
  | .onDisk info => fs.config.cacheType = .onDisk ∧
      buildRemoteFileCachePathInfo w.platform fs.config.onDiskCacheDirectories path = .ok info

namespace ActiveRead

structure SameRange (r r' : ActiveRead) : Prop where
  path : r'.path = r.path
  start : r'.requestedStartOffset = r.requestedStartOffset
  bytes : r'.requestedBytesToRead = r.requestedBytesToRead

/-- The read is what the settings make of its range. -/
structure CutUnder (w : World) (fs : CacheFileSystem) (r : ActiveRead) : Prop where
  reader : r.reader.Under w fs r.path
  phase : match r.phase with
    | .planning request pc => fs.config.cacheType = .inMem ∧ fs.config.chunking = .columnChunk ∧
        request = fs.planRequest w r.path r.requestedStartOffset r.requestedBytesToRead ∧
        Planned r.path request fs.layouts pc
    | .running tasks => fs.Cuts w r.path r.requestedStartOffset r.requestedBytesToRead (tasks.map (·.1))

variable {r r' : ActiveRead} {j : Nat}

theorem CutUnder.of_settings (hset : fs.SameSettings r.path fs') (h : r.CutUnder w fs) : r.CutUnder w fs' := by
  obtain ⟨handle, path, versionTag, reader, start, n, phase⟩ := r
  obtain ⟨hreader, hphase⟩ := h
  have hset' := hset
  obtain ⟨htype, hchunking, hblock, hdirs, hlookup⟩ := hset
  constructor
  · cases reader with
    | inMem => exact htype.trans hreader
    | onDisk info => exact ⟨htype.trans hreader.1, by rw [hdirs]; exact hreader.2⟩
  · cases phase with
    | planning request pc =>
      obtain ⟨hinMem, hplan, hrequest, hpc⟩ := hphase
      refine ⟨htype.trans hinMem, hchunking.trans hplan, ?_, hpc.congr hlookup⟩
      rw [hrequest, CacheFileSystem.planRequest, CacheFileSystem.planRequest, hblock]
    | running tasks => exact CacheFileSystem.Cuts.of_settings hset' hphase

theorem CutUnder.chunks_eq (h : r.CutUnder w fs) (h' : r'.CutUnder w fs) (hrange : r.SameRange r')
    (hdone : r.isDone = true) (hne : r'.tasks ≠ []) : r'.chunks = r.chunks := by
  obtain ⟨handle, path, versionTag, reader, start, n, phase⟩ := r
  obtain ⟨handle', path', versionTag', reader', start', n', phase'⟩ := r'
  obtain ⟨hpath, hstart, hbytes⟩ := hrange
  dsimp only at hpath hstart hbytes
  subst hpath hstart hbytes
  cases phase with
  | planning request pc => cases hdone
  | running tasks =>
    cases phase' with
    | planning request pc => exact absurd rfl hne
    | running tasks' => exact h'.phase.unique h.phase

end ActiveRead

/-! ## A step of a task -/

/-- The task has found or stored its chunk. -/
def TaskPc.served : TaskPc → Bool
  | .lookedUp (.block _) | .lookedUp (.file _) | .recorded (.block _) | .recorded (.file _) | .done _ => true
  | .start | .localFile | .lookedUp .nothing | .recorded .nothing | .fetched _ => false

/-- The task has found nothing of its chunk: it reads the remote file, or is about to. -/
def TaskPc.missed : TaskPc → Bool
  | .lookedUp .nothing | .recorded .nothing | .fetched _ => true
  | _ => false

/-- The task has read the remote file and is about to store what it read. -/
def TaskPc.isFetched : TaskPc → Bool
  | .fetched _ => true
  | _ => false

/-- What a step of a task finds of its chunk, and where it goes from there. -/
inductive TaskMove (w : World) (uuid path : String) (c : CacheReadChunk) (fs fs' : CacheFileSystem) :
    TaskPc → TaskPc → Prop
  | memHit (pinned : Nat) (h : fs.memHolds path c = true) : TaskMove w uuid path c fs fs' .start
    (.lookedUp (.block pinned))
  /-- The in-memory layer has nothing. -/
  | memMiss (h : fs'.memHolds path c = false) : TaskMove w uuid path c fs fs' .start .localFile
  /-- The in-memory reader has nothing. -/
  | miss (h : fs'.memHolds path c = false) (hfile : fs.fileHolds w uuid path c = false) :
    TaskMove w uuid path c fs fs' .start (.lookedUp .nothing)
  | fileHit (content : PageAlignedDataChunk) (h : fs.fileHolds w uuid path c = true) :
    TaskMove w uuid path c fs fs' .localFile (.lookedUp (.file content))
  | fileMiss (h : fs.fileHolds w uuid path c = true → fs'.fileHolds w uuid path c = false) :
    TaskMove w uuid path c fs fs' .localFile (.lookedUp .nothing)
  | report (found : Found) : TaskMove w uuid path c fs fs' (.lookedUp found) (.recorded found)
  | copy (found : Found) (h : found ≠ .nothing) (wrote : Nat × Bytes) : TaskMove w uuid path c fs fs' (.recorded found) (.done wrote)
  | fetch (content : PageAlignedDataChunk) : TaskMove w uuid path c fs fs' (.recorded .nothing) (.fetched content)
  | store (content : PageAlignedDataChunk) (wrote : Nat × Bytes) : TaskMove w uuid path c fs fs' (.fetched content) (.done wrote)

namespace CacheFileSystem

theorem memHolds_inMem (htype : fs.config.cacheType = .inMem) :
    fs.memHolds path c = (fs.resident (c.blockKey path)).isSome := by
  rw [memHolds, htype]

theorem memHolds_onDisk (htype : fs.config.cacheType = .onDisk) :
    fs.memHolds path c = (fs.diskReader.memResident (c.blockKey path)).isSome := by
  rw [memHolds, htype]

theorem fileHolds_inMem (htype : fs.config.cacheType = .inMem) : fs.fileHolds w uuid path c = false := by
  rw [fileHolds, htype]

theorem cacheFilepath_of_dest {env : TaskEnv} {info : RemoteFileCachePathInfo} {dest : LocalCacheDestination}
    (hi : buildRemoteFileCachePathInfo w.platform fs.config.onDiskCacheDirectories path = .ok info)
    (hdest : DiskCacheReader.cacheDest w path info env c = .ok dest) :
    fs.cacheFilepath w env.uuid path c = some dest.destLocalFilepath := by
  have hd : localCacheDestination w.platform fs.config.onDiskCacheDirectories env.uuid path c.alignedStartOffset c.chunkSize =
      .ok dest := by
    rw [localCacheDestination, hi, ok_bind]
    exact hdest
  rw [cacheFilepath, toOption_eq_some.mpr hd]
  rfl

end CacheFileSystem

theorem InMemoryCacheReader.taskStep_move {versionTag : String} {env : TaskEnv} {pc pc' : TaskPc}
    {storage storage' : DataCacheStorage} (hok : storage.OK) (htype : fs.config.cacheType = .inMem)
    (hst : fs.inMemStorage = some storage)
    (hs : taskStep w path versionTag env c pc storage = .ok (pc', storage')) :
    TaskMove w uuid path c fs { fs with inMemStorage := some storage' } pc pc' := by
  have hmem : ∀ s, ({ fs with inMemStorage := some s } : CacheFileSystem).memHolds path c =
      (s.resident (c.blockKey path)).isSome :=
    fun s => CacheFileSystem.memHolds_inMem htype
  cases pc with
  | start =>
    have hget := (DataCacheStorage.get_spec hok env.getNow (c.blockKey path) versionTag).2
    rw [taskStep] at hs
    split at hs
    next pinned s hg =>
      rw [hg] at hget
      cases hs
      obtain ⟨x, hx, _⟩ := hget
      refine .memHit pinned ?_
      rw [CacheFileSystem.memHolds_inMem htype, CacheFileSystem.resident, hst, Option.bind_some, hx]
      rfl
    next s hg =>
      rw [hg] at hget
      cases hs
      refine .miss ?_ (CacheFileSystem.fileHolds_inMem htype)
      rw [hmem]
      exact Option.isSome_eq_false_iff.mpr (by simpa using hget)
  | localFile | done wrote => cases hs
  | lookedUp found =>
    cases hs
    exact .report found
  | recorded found =>
    cases found with
    | block pinned =>
      obtain ⟨_, _, hs⟩ := except_bind_eq_ok.mp hs
      cases hs
      exact .copy _ (by simp) _
    | file content => cases hs
    | nothing =>
      obtain ⟨_, _, hs⟩ := except_bind_eq_ok.mp hs
      cases hs
      exact .fetch _
  | fetched content =>
    obtain ⟨_, _, hs⟩ := except_bind_eq_ok.mp hs
    obtain ⟨_, _, hs⟩ := except_bind_eq_ok.mp hs
    cases hs
    exact .store _ _

/-- What `ReadLocalCacheFile` finds: the file if there is one, and one that it refuses goes. -/
theorem LocalFiles.readLocalCacheFile_finds {files files' : LocalFiles} {dest versionTag : String} {n : Nat}
    {found : Option PageAlignedDataChunk}
    (h : files.readLocalCacheFile w dest n versionTag = .ok (found, files')) :
    (∃ content, found = some content ∧ (files dest).isSome = true) ∨ (found = none ∧ files' dest = none) := by
  unfold readLocalCacheFile at h
  split at h
  next hnone =>
    cases h
    exact .inr ⟨rfl, hnone⟩
  next file hfile =>
    split at h
    · cases h
      exact .inr ⟨rfl, by simp [remove]⟩
    · split at h
      · cases h
      · cases h
        exact .inl ⟨_, rfl, by simp [hfile]⟩

theorem DiskCacheReader.taskStep_move {versionTag : String} {env : TaskEnv} {pc pc' : TaskPc}
    {config : InstanceConfig} {info : RemoteFileCachePathInfo} {reader' : DiskCacheReader}
    (hok : fs.diskReader.StorageOK) (htype : fs.config.cacheType = .onDisk)
    (hi : buildRemoteFileCachePathInfo w.platform fs.config.onDiskCacheDirectories path = .ok info)
    (hcan : env.canAccessFile = true)
    (hname : fs.cacheFilepath w env.uuid path c = fs.cacheFilepath w uuid path c)
    (hs : taskStep w path versionTag config info env c pc fs.diskReader = .ok (pc', reader')) :
    TaskMove w uuid path c fs { fs with diskReader := reader' } pc pc' := by
  have hmem : ∀ reader : DiskCacheReader, ({ fs with diskReader := reader } : CacheFileSystem).memHolds path c =
      (reader.memResident (c.blockKey path)).isSome := fun reader => CacheFileSystem.memHolds_onDisk htype
  cases pc with
  | start =>
    obtain ⟨_, _, hs⟩ := except_bind_eq_ok.mp hs
    split at hs
    next hst =>
      cases hs
      refine .memMiss ?_
      rw [hmem, DiskCacheReader.memResident]
      simp [show fs.diskReader.inMemStorage = none from hst]
    next storage hst =>
      have hget := (DataCacheStorage.get_spec (hok storage hst) env.getNow (c.blockKey path) versionTag).2
      split at hs
      next pinned s hg =>
        rw [hg] at hget
        cases hs
        obtain ⟨x, hx, _⟩ := hget
        refine .memHit pinned ?_
        rw [CacheFileSystem.memHolds_onDisk htype, DiskCacheReader.memResident,
          show fs.diskReader.inMemStorage = some storage
          from hst, Option.bind_some, hx]
        rfl
      next s hg =>
        rw [hg] at hget
        cases hs
        refine .memMiss ?_
        rw [hmem, DiskCacheReader.memResident, Option.bind_some]
        exact Option.isSome_eq_false_iff.mpr (by simpa using hget)
  | localFile =>
    obtain ⟨dest, hdest, hs⟩ := except_bind_eq_ok.mp hs
    have hfile := hname.symm.trans (CacheFileSystem.cacheFilepath_of_dest hi hdest)
    have hthere : ∀ reader : DiskCacheReader,
        ({ fs with diskReader := reader } : CacheFileSystem).fileHolds w uuid path c =
        (reader.files dest.destLocalFilepath).isSome := by
      intro reader
      rw [CacheFileSystem.fileHolds,
        show ({ fs with diskReader := reader } : CacheFileSystem).cacheFilepath w uuid path c = _
        from hfile]
      simp [htype]
    dsimp only at hs
    rw [if_pos hcan] at hs
    obtain ⟨⟨found, files⟩, hread, hs⟩ := except_bind_eq_ok.mp hs
    cases hs
    rcases LocalFiles.readLocalCacheFile_finds hread with ⟨content, rfl, hfound⟩ | ⟨rfl, hgone⟩
    · exact .fileHit content ((hthere _).trans hfound)
    · refine .fileMiss fun _ => ?_
      rw [hthere]
      simp [hgone]
  | lookedUp found =>
    cases hs
    exact .report found
  | recorded found =>
    cases found with
    | block pinned =>
      rw [taskStep] at hs
      split at hs
      · cases hs
      · obtain ⟨_, _, hs⟩ := except_bind_eq_ok.mp hs
        cases hs
        exact .copy _ (by simp) _
    | file content =>
      obtain ⟨_, _, hs⟩ := except_bind_eq_ok.mp hs
      obtain ⟨_, _, hs⟩ := except_bind_eq_ok.mp hs
      obtain ⟨_, _, hs⟩ := except_bind_eq_ok.mp hs
      obtain ⟨_, _, hs⟩ := except_bind_eq_ok.mp hs
      cases hs
      exact .copy _ (by simp) _
    | nothing =>
      obtain ⟨_, _, hs⟩ := except_bind_eq_ok.mp hs
      cases hs
      exact .fetch _
  | fetched content =>
    obtain ⟨_, _, hs⟩ := except_bind_eq_ok.mp hs
    obtain ⟨_, _, hs⟩ := except_bind_eq_ok.mp hs
    cases hs
    exact .store _ _
  | done wrote => cases hs

/-- The task can use its cache file, and the file is the one it is for `uuid`. -/
def TaskEnv.Accesses (w : World) (uuid path : String) (fs : CacheFileSystem) (c : CacheReadChunk)
    (env : TaskEnv) : Prop :=
  fs.config.cacheType = .onDisk →
    env.canAccessFile = true ∧ fs.cacheFilepath w env.uuid path c = fs.cacheFilepath w uuid path c

instance {env : TaskEnv} : Decidable (env.Accesses w uuid path fs c) := inferInstanceAs (Decidable (_ → _))

theorem ActiveRead.taskStep_move {r : ActiveRead} {env : TaskEnv} {pc pc' : TaskPc} (hok : fs.StoragesOK w)
    (hreader : r.reader.Under w fs r.path) (henv : env.Accesses w uuid r.path fs c)
    (hs : r.taskStep w env c pc fs = .ok (pc', fs')) : TaskMove w uuid r.path c fs fs' pc pc' := by
  unfold ActiveRead.taskStep at hs
  split at hs
  next he =>
    rw [he] at hreader
    split at hs
    · cases hs
    next storage hst =>
      obtain ⟨⟨_, _⟩, hstep, hs⟩ := except_map_eq_ok.mp hs
      cases hs
      exact InMemoryCacheReader.taskStep_move (hok.storage storage hst) hreader hst hstep
  next info he =>
    rw [he] at hreader
    obtain ⟨⟨_, _⟩, hstep, hs⟩ := except_map_eq_ok.mp hs
    cases hs
    obtain ⟨hcan, hname⟩ := henv hreader.1
    exact DiskCacheReader.taskStep_move hok.disk.storage hreader.1 hreader.2 hcan hname hstep

section Move

variable {pc pc' : TaskPc}

/-- A task that has found or stored its chunk leaves it held. -/
theorem TaskMove.served (h : TaskMove w uuid path c fs fs' pc pc') (hkeep : fs.Keeps w uuid path chunks fs')
    (hc : c ∈ chunks) (hbefore : pc.served = true → fs.Holds w uuid path c)
    (hstore : ∀ content, pc = .fetched content → fs'.Holds w uuid path c) (hafter : pc'.served = true) :
    fs'.Holds w uuid path c := by
  cases h with
  | memHit pinned hmem => exact hkeep.holds hc (.inl hmem)
  | fileHit content hfile => exact hkeep.holds hc (.inr hfile)
  | memMiss | miss | fileMiss | fetch => cases hafter
  | report found =>
    refine hkeep.holds hc (hbefore ?_)
    cases found with
    | block | file => rfl
    | nothing => cases hafter
  | copy found hfound =>
    refine hkeep.holds hc (hbefore ?_)
    cases found with
    | block | file => rfl
    | nothing => exact absurd rfl hfound
  | store content wrote => exact hstore content rfl

/-- The task of a chunk that is held finds it: in memory or, next, on disk. -/
theorem TaskMove.hits (h : TaskMove w uuid path c fs fs' pc pc') (hkeep : fs.Keeps w uuid path chunks fs')
    (hc : c ∈ chunks) (hheld : fs.Holds w uuid path c) (hmissed : pc.missed = false)
    (hfile : pc = .localFile → fs.fileHolds w uuid path c = true) :
    pc'.missed = false ∧ (pc' = .localFile → fs'.fileHolds w uuid path c = true) := by
  obtain ⟨hkeepMem, hkeepFile⟩ := hkeep c hc
  have honDisk : fs'.memHolds path c = false → fs.fileHolds w uuid path c = true := by
    intro hgone
    refine hheld.resolve_left fun hmem => ?_
    rw [hkeepMem hmem] at hgone
    cases hgone
  cases h with
  | memHit | fileHit | copy => exact ⟨rfl, nofun⟩
  | memMiss hgone => exact ⟨rfl, fun _ => hkeepFile (honDisk hgone)⟩
  | miss hgone hnone =>
    rw [honDisk hgone] at hnone
    cases hnone
  | fileMiss hgone =>
    have hthere := hfile rfl
    rw [hkeepFile hthere] at hgone
    cases hgone hthere
  | report found =>
    cases found with
    | block | file => exact ⟨rfl, nofun⟩
    | nothing => cases hmissed
  | fetch | store => cases hmissed

end Move

/-! ## Where a read comes from -/

namespace CacheFileSystem

/-- Only caches differ. -/
structure SameSession (fs fs' : CacheFileSystem) : Prop where
  config : fs'.config = fs.config
  layouts : fs'.layouts = fs.layouts
  handles : fs'.handles = fs.handles

theorem SameSession.refl (fs : CacheFileSystem) : fs.SameSession fs := ⟨rfl, rfl, rfl⟩

theorem SameSession.settings (h : fs.SameSession fs') (path : String) : fs.SameSettings path fs' := by
  rw [SameSettings, h.config, h.layouts]
  exact ⟨rfl, rfl, rfl, rfl, rfl⟩

theorem initStorage_resident {storage : DataCacheStorage}
    (h : InMemoryCacheReader.initStorage fs.config fs.inMemStorage = .ok storage) (k : InMemCacheBlock) :
    storage.resident k = fs.resident k := by
  unfold InMemoryCacheReader.initStorage at h
  rw [resident]
  split at h
  next hst =>
    cases h
    rw [hst, Option.bind_some]
  next hst =>
    rw [hst, Option.bind_none]
    exact (DataCacheStorage.build_spec h).2.1 k

end CacheFileSystem

theorem DiskCacheReader.init_memResident {reader : DiskCacheReader} (h : reader.LayerOK) (config : InstanceConfig)
    (k : InMemCacheBlock) : (reader.init config).memResident k = reader.memResident k := by
  unfold DiskCacheReader.init DiskCacheReader.memResident
  split
  · rfl
  next hinit =>
    rw [h.unbuilt (Bool.eq_false_iff.mpr hinit), Option.bind_none]
    dsimp only
    split
    · obtain ⟨mode, hmode⟩ := DataCacheStorage.buildPlainStorage_built config.inMemCacheStorage
        config.diskReaderMaxMemCacheBlockCount config.diskReaderMaxMemCacheTimeoutMillisec
      exact (DataCacheStorage.build_spec hmode).2.1 k
    · rfl

theorem DiskCacheReader.init_files (reader : DiskCacheReader) (config : InstanceConfig) :
    (reader.init config).files = reader.files := by
  unfold DiskCacheReader.init
  split <;> rfl

namespace ReadPhase

theorem scheduled_start {chunks : List CacheReadChunk} {r : ActiveRead} (hr : r.phase = .scheduled chunks) :
    ∀ t ∈ r.tasks, t.2 = .start := by
  intro t ht
  rw [ActiveRead.tasks, hr] at ht
  obtain ⟨_, _, rfl⟩ := List.mem_map.mp ht
  rfl

theorem scheduled_chunks (chunks : List CacheReadChunk) : (chunks.map (·, TaskPc.start)).map (·.1) = chunks := by
  rw [List.map_map]
  exact List.map_id _

end ReadPhase

/-- A read that begins drops nothing, and is cut by the settings. -/
theorem beginRead_cut {env : ReadEnv} {handle start n : Nat} {read : Option ActiveRead} (h : fs.StoragesOK w)
    (hb : fs.beginRead w env handle path start n (w.remote path).length = .ok (read, fs')) :
    fs.SameSession fs' ∧ (∀ f, fs.KeepsBlocks w f fs') ∧
      ∀ r, read = some r → r.handle = handle ∧ (∀ t ∈ r.tasks, t.2 = .start) ∧ r.CutUnder w fs := by
  unfold CacheFileSystem.beginRead at hb
  dsimp only at hb
  split at hb
  · obtain ⟨_, _, hb⟩ := except_map_eq_ok.mp hb
    cases hb
    exact ⟨.refl _, fun _ => .of_eq rfl rfl, nofun⟩
  next hinMem =>
    split at hb
    · cases hb
      exact ⟨.refl _, fun _ => .of_eq rfl rfl, nofun⟩
    · obtain ⟨storage, hinit, hb⟩ := except_bind_eq_ok.mp hb
      obtain ⟨phase, hphase, hb⟩ := except_bind_eq_ok.mp hb
      cases hb
      refine ⟨⟨rfl, rfl, rfl⟩, fun f => ⟨fun k _ => CacheFileSystem.initStorage_resident hinit k, fun _ _ => rfl,
        fun _ _ _ _ _ _ => rfl⟩, fun r hr => ?_⟩
      cases hr
      unfold CacheFileSystem.beginPhase at hphase
      split at hphase
      next hplan =>
        cases hphase
        exact ⟨rfl, nofun, hinMem, hinMem, hplan, rfl, .refl⟩
      next hgrid =>
        obtain ⟨grid, hok, hphase⟩ := except_map_eq_ok.mp hphase
        cases hphase
        refine ⟨rfl, ReadPhase.scheduled_start rfl, hinMem, ?_⟩
        dsimp only [ReadPhase.scheduled]
        rw [ReadPhase.scheduled_chunks, CacheFileSystem.Cuts, if_neg (by simp [hgrid])]
        exact ⟨grid, hok, rfl⟩
  next honDisk =>
    split at hb
    · cases hb
      exact ⟨.refl _, fun _ => .of_eq rfl rfl, nofun⟩
    · obtain ⟨info, hinfo, hb⟩ := except_bind_eq_ok.mp hb
      obtain ⟨grid, hok, hb⟩ := except_bind_eq_ok.mp hb
      cases hb
      refine ⟨⟨rfl, rfl, rfl⟩, fun f => ⟨fun _ _ => rfl,
        fun k _ => DiskCacheReader.init_memResident h.disk _ k, ?_⟩, fun r hr => ?_⟩
      · intro dirs uuid off n d _
        dsimp only
        rw [DiskCacheReader.init_files]
      · cases hr
        refine ⟨rfl, ReadPhase.scheduled_start rfl, ⟨honDisk, hinfo⟩, ?_⟩
        dsimp only [ReadPhase.scheduled]
        rw [ReadPhase.scheduled_chunks, CacheFileSystem.Cuts, if_neg (by simp [honDisk])]
        exact ⟨grid, hok, rfl⟩

namespace ActiveRead

variable {r : ActiveRead} {j : Nat}

theorem CutUnder.setTask (h : r.CutUnder w fs) {pc : TaskPc} (hj : r.tasks[j]? = some (c, pc)) (pc' : TaskPc) :
    (r.setTask j (c, pc')).CutUnder w fs := by
  obtain ⟨handle, path, versionTag, reader, start, n, phase⟩ := r
  cases phase with
  | planning request plan => cases hj
  | running tasks =>
    have hchunk : (tasks.map (·.1))[j]? = some c := by
      rw [List.getElem?_map, show tasks[j]? = some (c, pc) from hj]
      rfl
    refine ⟨h.reader, ?_⟩
    change fs.Cuts w path start n ((tasks.set j (c, pc')).map (·.1))
    rw [List.map_set, set_eq_self hchunk]
    exact h.phase

end ActiveRead

/-- Where a read in flight after a step was before it. -/
inductive ReadFrom (w : World) (s s' : ProfileState) (a : ProfileAct) (k : Nat) (r' : ActiveRead) : Prop
  | kept (h : r' ∈ (s.connections k).active)
  | begun (handle : r'.handle < s.fs.handles.length) (start : ∀ t ∈ r'.tasks, t.2 = .start) (cut : r'.CutUnder w s.fs)
  /-- The next registry call of its plan. -/
  | planned (r : ActiveRead) (h : r ∈ (s.connections k).active) (handle : r'.handle = r.handle) (path : r'.path = r.path)
    (start : ∀ t ∈ r'.tasks, t.2 = .start) (cut : r.CutUnder w s.fs → r'.CutUnder w s.fs)
  | stepped (r : ActiveRead) (i j : Nat) (env : TaskEnv) (c : CacheReadChunk) (pc pc' : TaskPc) (ha : a = .task k i j env)
    (hr : s.readAt k i = some r) (hj : r.tasks[j]? = some (c, pc)) (hs : r.taskStep w env c pc s.fs = .ok (pc', s'.fs))
    (he : r' = r.setTask j (c, pc'))

namespace ProfileState

variable {s s' : ProfileState} {k i j : Nat}

theorem active_onConnection {k' : Nat} {r' : ActiveRead} {f : Connection → Connection}
    (h : r' ∈ ((s.onConnection k f).connections k').active) :
    (k' = k ∧ r' ∈ (f (s.connections k)).active) ∨ r' ∈ (s.connections k').active := by
  dsimp only [onConnection] at h
  by_cases hk : k' = k
  · subst hk
    rw [Function.update_self] at h
    exact .inl ⟨rfl, h⟩
  · rw [Function.update_of_ne hk] at h
    exact .inr h

theorem active_recordStat (access : Option CacheAccess) (conn : Connection) :
    (conn.recordStat access).active = conn.active := by
  cases access <;> rfl

theorem active_recordFound (c : CacheReadChunk) (found : Option Found) (conn : Connection) :
    (conn.recordFound c found).active = conn.active := by
  cases found <;> rfl

/-- What `ReadImpl` does before the tasks of the read, or its plan. -/
theorem startRead_spec {handle nrBytes location : Nat} {env : ReadEnv} (h : s.fs.StoragesOK w)
    (hs : s.startRead w k handle nrBytes location env = some s') :
    s'.fs.StoragesOK w ∧ s.fs.SameSession s'.fs ∧ (∀ f, s.fs.KeepsBlocks w f s'.fs) ∧
      ∀ k' r', r' ∈ (s'.connections k').active → r' ∈ (s.connections k').active ∨
        (r'.handle < s.fs.handles.length ∧ (∀ t ∈ r'.tasks, t.2 = .start) ∧ r'.CutUnder w s.fs) := by
  obtain ⟨⟨path, _⟩, hhandle, hs⟩ := Option.bind_eq_some_iff.mp hs
  obtain ⟨hlt, _⟩ := List.getElem?_eq_some_iff.mp hhandle
  obtain ⟨metadataCache, hstat, hcache⟩ := CacheFileSystem.getFileSize_spec h.metadata env path
  have hok : CacheFileSystem.StoragesOK w { s.fs with metadataCache } := { h with metadata := hcache }
  have hkeeps : ∀ f, s.fs.KeepsBlocks w f { s.fs with metadataCache } := fun f => .of_eq rfl rfl
  have hold : ∀ k' r', r' ∈ (({ s with fs := { s.fs with metadataCache } }.onConnection k
      (Connection.recordStat (s.fs.statAccess env path))).connections k').active →
        r' ∈ (s.connections k').active := by
    intro k' r' hr'
    rcases active_onConnection hr' with ⟨rfl, hr'⟩ | hr'
    · rwa [active_recordStat] at hr'
    · exact hr'
  unfold startReadOf at hs
  rw [hstat] at hs
  dsimp only at hs
  split at hs
  · cases hs
    exact ⟨hok, ⟨rfl, rfl, rfl⟩, hkeeps, fun k' r' hr' => .inl (hold k' r' hr')⟩
  · split at hs
    · obtain ⟨_, _, hs⟩ := Option.map_eq_some_iff.mp hs
      cases hs
      exact ⟨hok, ⟨rfl, rfl, rfl⟩, hkeeps, fun k' r' hr' => .inl (hold k' r' hr')⟩
    · obtain ⟨⟨read, fs'⟩, hbegin, hs⟩ := Option.map_eq_some_iff.mp hs
      have hbegin := toOption_eq_some.mp hbegin
      obtain ⟨hsession, hblocks, hread⟩ := beginRead_cut hok hbegin
      have hblocks' : ∀ f, s.fs.KeepsBlocks w f fs' := fun f => (hkeeps f).trans (hblocks f)
      have hsession' : s.fs.SameSession fs' := ⟨hsession.config, hsession.layouts, hsession.handles⟩
      cases read with
      | none =>
        cases hs
        exact ⟨hok.beginRead hbegin, hsession', hblocks', fun k' r' hr' => .inl (hold k' r' hr')⟩
      | some r =>
        cases hs
        obtain ⟨rfl, hstart, hcut⟩ := hread r rfl
        refine ⟨hok.beginRead hbegin, hsession', hblocks', fun k' r' hr' => ?_⟩
        rcases active_onConnection hr' with ⟨rfl, hr'⟩ | hr'
        · rcases List.mem_append.mp hr' with hr' | hr'
          · exact .inl (hold k' r' hr')
          · rw [List.mem_singleton.mp hr']
            exact .inr ⟨hlt, hstart, ⟨hcut.reader, hcut.phase⟩⟩
        · exact .inl (hold k' r' hr')

theorem plan_spec (hs : s.plan k i = some s') :
    s'.fs = s.fs ∧ ∀ k' r', r' ∈ (s'.connections k').active → ReadFrom w s s' (.plan k i) k' r' := by
  obtain ⟨r, hr, hs⟩ := Option.bind_eq_some_iff.mp hs
  have hmem : r ∈ (s.connections k).active := List.mem_of_getElem? hr
  split at hs
  · cases hs
  next request pc hphase =>
    obtain ⟨pc', hread, hs⟩ := Option.bind_eq_some_iff.mp hs
    have hnext : r.CutUnder w s.fs → s.fs.config.cacheType = .inMem ∧ s.fs.config.chunking = .columnChunk ∧
        request = s.fs.planRequest w r.path r.requestedStartOffset r.requestedBytesToRead ∧
        Planned r.path request s.fs.layouts pc' := by
      intro hcut
      have hplanning := hcut.phase
      rw [hphase] at hplanning
      obtain ⟨hinMem, hplan, hrequest, hpc⟩ := hplanning
      exact ⟨hinMem, hplan, hrequest, hpc.tail hread⟩
    split at hs
    next chunks =>
      cases hs
      refine ⟨rfl, fun k' r' hr' => ?_⟩
      rcases active_onConnection hr' with ⟨rfl, hr'⟩ | hr'
      · rcases List.mem_or_eq_of_mem_set hr' with hr' | rfl
        · exact .kept hr'
        · refine .planned r hmem rfl rfl (ReadPhase.scheduled_start rfl) fun hcut => ⟨hcut.reader, ?_⟩
          obtain ⟨hinMem, hplan, hrequest, hpc⟩ := hnext hcut
          dsimp only [ReadPhase.scheduled]
          rw [ReadPhase.scheduled_chunks, CacheFileSystem.Cuts, if_pos ⟨hinMem, hplan⟩, ← hrequest]
          exact hpc
      · exact .kept hr'
    · cases hs
    · cases hs
      refine ⟨rfl, fun k' r' hr' => ?_⟩
      rcases active_onConnection hr' with ⟨rfl, hr'⟩ | hr'
      · rcases List.mem_or_eq_of_mem_set hr' with hr' | rfl
        · exact .kept hr'
        · exact .planned r hmem rfl rfl nofun fun hcut => ⟨hcut.reader, hnext hcut⟩
      · exact .kept hr'

theorem task_spec {env : TaskEnv} (hs : s.task w k i j env = some s') :
    (∃ (r : ActiveRead) (c : CacheReadChunk) (pc pc' : TaskPc), r.taskStep w env c pc s.fs = .ok (pc', s'.fs)) ∧
      ∀ k' r', r' ∈ (s'.connections k').active → ReadFrom w s s' (.task k i j env) k' r' := by
  obtain ⟨r, hr, hs⟩ := Option.bind_eq_some_iff.mp hs
  obtain ⟨⟨c, pc⟩, hj, hs⟩ := Option.bind_eq_some_iff.mp hs
  obtain ⟨⟨pc', fs⟩, hstep, hs⟩ := Option.map_eq_some_iff.mp hs
  cases hs
  refine ⟨⟨r, c, pc, pc', toOption_eq_some.mp hstep⟩, fun k' r' hr' => ?_⟩
  rcases active_onConnection hr' with ⟨rfl, hr'⟩ | hr'
  · rcases List.mem_or_eq_of_mem_set hr' with hr' | rfl
    · rw [active_recordFound] at hr'
      exact .kept hr'
    · exact .stepped r i j env c pc pc' rfl hr hj (toOption_eq_some.mp hstep) rfl
  · exact .kept hr'

theorem finishRead_spec (hs : s.finishRead k i = some s') :
    s'.fs = s.fs ∧ ∀ k' r', r' ∈ (s'.connections k').active → r' ∈ (s.connections k').active := by
  obtain ⟨r, hr, hs⟩ := Option.bind_eq_some_iff.mp hs
  split at hs
  · cases hs
    refine ⟨rfl, fun k' r' hr' => ?_⟩
    rcases active_onConnection hr' with ⟨rfl, hr'⟩ | hr'
    · exact List.mem_of_mem_eraseIdx hr'
    · exact hr'
  · cases hs

end ProfileState

/-! ## A step of the machine -/

theorem openStep_openFile {s s' : OpenState} {flags : OpenFlags} {hash : PolicyHash}
    (hs : openStep w s (.openFile flags path hash) = some s') :
    ∃ fs', s.fs.openFileExtended w s.clearCacheOnWrite flags path hash = .ok fs' ∧ s' = s.withFs fs' := by
  obtain ⟨fs', hopen, rfl⟩ := Option.map_eq_some_iff.mp hs
  exact ⟨fs', toOption_eq_some.mp hopen, rfl⟩

theorem openStep_removeFiles {s s' : OpenState} {filenames : List String} {hash : PolicyHash}
    (hs : openStep w s (.removeFiles filenames hash) = some s') :
    ∃ fs', s.fs.clearCacheFiles w hash filenames = .ok fs' ∧ s' = s.withFs fs' := by
  obtain ⟨fs', hclear, rfl⟩ := Option.map_eq_some_iff.mp hs
  exact ⟨fs', toOption_eq_some.mp hclear, rfl⟩

theorem openStep_other {s s' : OpenState} {a : ProfileAct} (hs : openStep w s (.other a) = some s') :
    a.opensOrReads = false ∧ ∃ reads, profileStep w s.reads a = some reads ∧ s' = { s with reads } := by
  unfold openStep at hs
  dsimp only at hs
  split at hs
  · cases hs
  next hplain =>
    obtain ⟨reads, hstep, hs⟩ := Option.map_eq_some_iff.mp hs
    exact ⟨Bool.eq_false_iff.mpr hplain, reads, hstep, hs.symm⟩

namespace OpenAct

/-- Neither opened for writing nor, where that clears it, at all; neither removed nor cleared. -/
def LeavesAlone (path : String) (s : OpenState) : OpenAct → Prop
  | .openFile flags p _ => p = path → flags.forWriting = false ∧ s.clearCacheOnWrite = false
  | .removeFiles filenames _ => path ∉ filenames
  | .other (.session .clearCache) => False
  | .other (.session (.clearCacheFile _ p)) => p ≠ path
  | _ => True

/-- What may evict a block, or find it expired. -/
def mayDrop : OpenAct → Bool
  | .other (.task ..) | .other (.session (.setCacheBlockSize ..)) | .other (.session (.removeFiles _))
  | .other (.session (.evict _)) => true
  | _ => false

/-- A task of the file for one of the chunks can use the cache file, and what it fetched is stored. -/
def Stores (w : World) (uuid path : String) (chunks : List CacheReadChunk) (s : OpenState) : OpenAct → Prop
  | .other (.task k i j env) => ∀ r ∈ s.reads.readAt k i, r.path = path → ∀ t ∈ r.tasks[j]?, t.1 ∈ chunks →
    env.Accesses w uuid path s.fs t.1 ∧
      (t.2.isFetched = true → ∀ s' ∈ openStep w s (.other (.task k i j env)), s'.fs.Holds w uuid path t.1)
  | _ => True

instance LeavesAlone.decidable (path : String) (s : OpenState) : ∀ a : OpenAct, Decidable (a.LeavesAlone path s)
  | .openFile flags p _ => inferInstanceAs (Decidable
    (p = path → flags.forWriting = false ∧ s.clearCacheOnWrite = false))
  | .removeFiles filenames _ => inferInstanceAs (Decidable (path ∉ filenames))
  | .other (.session .clearCache) => .isFalse id
  | .other (.session (.clearCacheFile _ p)) => inferInstanceAs (Decidable (p ≠ path))
  | .setClearCacheOnWrite _ | .other (.startRead ..) | .other (.plan ..) | .other (.task ..) | .other (.finishRead ..)
  | .other (.reset _) | .other (.session (.openFile _)) | .other (.session (.seek ..)) | .other (.session (.read ..))
  | .other (.session (.readAt ..)) | .other (.session (.setCacheBlockSize ..)) | .other (.session (.configure ..))
  | .other (.session (.registerLayout ..)) | .other (.session .clearLayouts) | .other (.session (.clearLayout _))
  | .other (.session (.removeFiles _)) | .other (.session (.evict _)) => .isTrue trivial

instance Stores.decidable (w : World) (uuid path : String) (chunks : List CacheReadChunk) (s : OpenState) :
    ∀ a : OpenAct, Decidable (a.Stores w uuid path chunks s)
  | .other (.task k i j env) => inferInstanceAs
    (Decidable (∀ r ∈ s.reads.readAt k i, r.path = path → ∀ t ∈ r.tasks[j]?,
      t.1 ∈ chunks → env.Accesses w uuid path s.fs t.1 ∧
        (t.2.isFetched = true → ∀ s' ∈ openStep w s (.other (.task k i j env)), s'.fs.Holds w uuid path t.1)))
  | .openFile .. | .setClearCacheOnWrite _ | .removeFiles .. | .other (.startRead ..) | .other (.plan ..)
  | .other (.finishRead ..) | .other (.reset _) | .other (.session _) => .isTrue trivial

/-- The file is left alone, its reads go on as they did, and nothing of the chunks is evicted or expires. -/
def Spares (w : World) (uuid path : String) (chunks : List CacheReadChunk) (s : OpenState) (a : OpenAct) : Prop :=
  a.LeavesAlone path s ∧ a.Stores w uuid path chunks s ∧ ∀ s' ∈ openStep w s a, s.fs.SameSettings path s'.fs ∧
    (a.mayDrop = true → s.fs.Keeps w uuid path chunks s'.fs)

instance Spares.decidable {s : OpenState} {a : OpenAct} : Decidable (a.Spares w uuid path chunks s) :=
  inferInstanceAs (Decidable (_ ∧ _))

end OpenAct

namespace OpenState

variable {s s' : OpenState} {a : OpenAct}

/-- The storages are in order, and reads go through handles that were opened. -/
structure Sound (w : World) (s : OpenState) : Prop where
  fs : s.fs.StoragesOK w
  handles : ∀ k, ∀ r ∈ s.active k, r.handle < s.fs.handles.length

/-- Where the reads after a step come from: an open or a removal leaves them as they are. -/
def ReadsFrom (w : World) (s s' : OpenState) (a : OpenAct) : Prop :=
  ∀ k, ∀ r' ∈ s'.active k, r' ∈ s.active k ∨ ∃ act, a = .other act ∧ ReadFrom w s.reads s'.reads act k r'

/-- What a step does to the storages, the handles and the reads, and what it
keeps of a file it leaves alone. -/
theorem Sound.step_spec (h : s.Sound w) (hp : w.platform.OK) (hs : openStep w s a = some s') :
    s'.fs.StoragesOK w ∧ s.fs.handles.length ≤ s'.fs.handles.length ∧ ReadsFrom w s s' a ∧
      ∀ path, a.LeavesAlone path s → a.mayDrop = false → s.fs.KeepsBlocks w path s'.fs := by
  cases a with
  | openFile flags path hash =>
    obtain ⟨fs', hopen, rfl⟩ := openStep_openFile hs
    refine ⟨h.fs.openFileExtended hopen, ?_, fun k r' hr' => .inl hr', fun f hleave _ => ?_⟩
    · obtain ⟨new, ⟨_, fs₁, _, rfl⟩ | ⟨_, rfl⟩⟩ := CacheFileSystem.openFileExtended_cases hopen
      all_goals simp [withFs]
    · exact CacheFileSystem.keepsBlocks_openFileExtended h.fs hp (fun he => (hleave he).2) hopen
  | setClearCacheOnWrite value =>
    cases hs
    exact ⟨h.fs, le_refl _, fun k r' hr' => .inl hr', fun _ _ _ => .of_eq rfl rfl⟩
  | removeFiles filenames hash =>
    obtain ⟨fs', hclear, rfl⟩ := openStep_removeFiles hs
    refine ⟨h.fs.clearCacheFiles hclear, ?_, fun k r' hr' => .inl hr', fun f hleave _ => ?_⟩
    · exact (congrArg List.length (CacheFileSystem.handles_clearCacheFiles hclear)).ge
    · exact CacheFileSystem.keepsBlocks_clearCacheFiles h.fs hp hleave hclear
  | other act =>
    obtain ⟨hplain, reads, hstep, rfl⟩ := openStep_other hs
    cases act with
    | startRead k handle nrBytes location env =>
      obtain ⟨hok, hsession, hblocks, hreads⟩ := ProfileState.startRead_spec h.fs hstep
      refine ⟨hok, (congrArg List.length hsession.handles).ge, fun k' r' hr' => ?_, fun f _ _ => hblocks f⟩
      rcases hreads k' r' hr' with hr' | ⟨hlt, hstart, hcut⟩
      · exact .inl hr'
      · exact .inr ⟨_, rfl, .begun hlt hstart hcut⟩
    | plan k i =>
      obtain ⟨hfs, hreads⟩ := ProfileState.plan_spec hstep
      dsimp only [OpenState.fs]
      rw [hfs]
      exact ⟨h.fs, le_refl _, fun k' r' hr' => .inr ⟨_, rfl, hreads k' r' hr'⟩, fun _ _ _ => .of_eq rfl rfl⟩
    | task k i j env =>
      obtain ⟨⟨r, c, pc, pc', htask⟩, hreads⟩ := ProfileState.task_spec hstep
      refine ⟨h.fs.taskStep htask, (congrArg List.length (CacheFileSystem.handles_taskStep htask)).ge,
        fun k' r' hr' => .inr ⟨_, rfl, hreads k' r' hr'⟩, nofun⟩
    | finishRead k i =>
      obtain ⟨hfs, hreads⟩ := ProfileState.finishRead_spec hstep
      dsimp only [OpenState.fs]
      rw [hfs]
      exact ⟨h.fs, le_refl _, fun k' r' hr' => .inl (hreads k' r' hr'), fun _ _ _ => .of_eq rfl rfl⟩
    | reset k =>
      unfold profileStep at hstep
      dsimp only at hstep
      split at hstep
      · cases hstep
        refine ⟨h.fs, le_refl _, fun k' r' hr' => .inl ?_, fun _ _ _ => .of_eq rfl rfl⟩
        rcases ProfileState.active_onConnection hr' with ⟨rfl, hr'⟩ | hr' <;> exact hr'
      · cases hstep
    | session act =>
      obtain ⟨fs, hact, hstep⟩ := Option.map_eq_some_iff.mp hstep
      cases hstep
      have hact := toOption_eq_some.mp hact
      refine ⟨h.fs.session hplain hact, (CacheFileSystem.handles_session hplain hact).ge,
        fun k' r' hr' => .inl hr',
        fun f hleave hdrop => ?_⟩
      cases act with
      | openFile | read | readAt => cases hplain
      | setCacheBlockSize | removeFiles | evict => cases hdrop
      | clearCache => exact hleave.elim
      | seek | configure | registerLayout | clearLayouts | clearLayout =>
        cases hact
        exact .of_eq rfl rfl
      | clearCacheFile hash filepath => exact CacheFileSystem.keepsBlocks_clearCacheFile h.fs hp hleave hact

theorem Sound.step (h : s.Sound w) (hp : w.platform.OK) (hs : openStep w s a = some s') : s'.Sound w := by
  obtain ⟨hok, hgrow, hreads, _⟩ := h.step_spec hp hs
  refine ⟨hok, fun k r' hr' => ?_⟩
  rcases hreads k r' hr' with hold | ⟨act, _, hfrom⟩
  · exact (h.handles k r' hold).trans_le hgrow
  · cases hfrom with
    | kept hold => exact (h.handles k r' hold).trans_le hgrow
    | begun hlt => exact hlt.trans_le hgrow
    | planned r hr hhandle =>
      rw [hhandle]
      exact (h.handles k r hr).trans_le hgrow
    | stepped r i j env c pc pc' ha hr hj hstep he =>
      rw [he]
      exact (h.handles k r (List.mem_of_getElem? hr)).trans_le hgrow

theorem Sound.keeps (h : s.Sound w) (hp : w.platform.OK) (hg : a.Spares w uuid path chunks s)
    (hs : openStep w s a = some s') : s.fs.Keeps w uuid path chunks s'.fs := by
  obtain ⟨hleave, _, hstep⟩ := hg
  obtain ⟨hset, hkeeps⟩ := hstep s' hs
  cases hdrop : a.mayDrop with
  | true => exact hkeeps hdrop
  | false =>
    obtain ⟨_, _, _, hblocks⟩ := h.step_spec hp hs
    exact (hblocks path hleave hdrop).keeps hset uuid chunks

/-- The settings cut the reads of the file in flight through some handles. -/
def CutAll (w : World) (path : String) (through : Nat → Prop) (s : OpenState) : Prop :=
  ∀ k, ∀ r ∈ s.active k, through r.handle → r.path = path → r.CutUnder w s.fs

variable {through : Nat → Prop}

theorem CutAll.step (h : s.CutAll w path through) (hset : s.fs.SameSettings path s'.fs)
    (hreads : s.ReadsFrom w s' a) :
    s'.CutAll w path through := by
  intro k r' hr' hhandle hpath
  suffices hcut : r'.CutUnder w s.fs from hcut.of_settings (hpath ▸ hset)
  rcases hreads k r' hr' with hold | ⟨act, _, hfrom⟩
  · exact h k r' hold hhandle hpath
  · cases hfrom with
    | kept hold => exact h k r' hold hhandle hpath
    | begun _ _ hcut => exact hcut
    | planned r hr hsame hsame' _ hcut => exact hcut (h k r hr (hsame ▸ hhandle) (hsame'.symm.trans hpath))
    | stepped r i j env c pc pc' _ hr hj _ he =>
      subst he
      exact (h k r (List.mem_of_getElem? hr) hhandle hpath).setTask hj pc'

/-- A task of the file for one of the chunks, after a step that spares them:
it is new, or it was there before, in the same place or one move behind. -/
theorem Sound.task_cases (h : s.Sound w) (hp : w.platform.OK) (hcut : s.CutAll w path through)
    (hg : a.Spares w uuid path chunks s) (hs : openStep w s a = some s') {k : Nat} {r' : ActiveRead}
    (hr' : r' ∈ s'.active k) (hthrough : through r'.handle) (hpath : r'.path = path)
    {t : CacheReadChunk × TaskPc} (ht : t ∈ r'.tasks) (hc : t.1 ∈ chunks) :
    t.2 = .start ∨ ∃ r ∈ s.active k, r.handle = r'.handle ∧ r.path = path ∧ (t ∈ r.tasks ∨
      ∃ pc, (t.1, pc) ∈ r.tasks ∧ TaskMove w uuid path t.1 s.fs s'.fs pc t.2 ∧
        ∀ content, pc = .fetched content → s'.fs.Holds w uuid path t.1) := by
  obtain ⟨_, _, hreads, _⟩ := h.step_spec hp hs
  rcases hreads k r' hr' with hold | ⟨act, hact, hfrom⟩
  · exact .inr ⟨r', hold, rfl, hpath, .inl ht⟩
  · cases hfrom with
    | kept hold => exact .inr ⟨r', hold, rfl, hpath, .inl ht⟩
    | begun _ hstart => exact .inl (hstart t ht)
    | planned _ _ _ _ hstart => exact .inl (hstart t ht)
    | stepped r i j env c pc pc' ha hr hj hstep he =>
      subst he ha hact
      have hmem : r ∈ s.active k := List.mem_of_getElem? hr
      refine .inr ⟨r, hmem, rfl, hpath, ?_⟩
      rcases List.mem_or_eq_of_mem_set ht with ht | rfl
      · exact .inl ht
      · have hstores := hg.2.1 r hr hpath (c, pc) hj hc
        obtain rfl : r.path = path := hpath
        refine .inr ⟨pc, List.mem_of_getElem? hj,
          ActiveRead.taskStep_move h.fs (hcut k r hmem hthrough rfl).reader hstores.1 hstep, ?_⟩
        rintro content rfl
        exact hstores.2 rfl s' hs

/-- Every task of a read of the file through the handle that has found or stored its chunk left it held. -/
structure Served (w : World) (uuid path : String) (chunks : List CacheReadChunk) (handle : Nat)
    (s : OpenState) : Prop
    extends Sound w s where
  cut : s.CutAll w path (· = handle)
  served : ∀ k, ∀ r ∈ s.active k, r.handle = handle → r.path = path → ∀ t ∈ r.tasks, t.1 ∈ chunks → t.2.served = true →
    s.fs.Holds w uuid path t.1

variable {handle : Nat}

theorem Served.step (h : s.Served w uuid path chunks handle) (hp : w.platform.OK)
    (hg : a.Spares w uuid path chunks s) (hs : openStep w s a = some s') :
    s'.Served w uuid path chunks handle := by
  obtain ⟨_, _, hreads, _⟩ := h.step_spec hp hs
  have hkeep := h.keeps hp hg hs
  refine ⟨h.toSound.step hp hs, h.cut.step (hg.2.2 s' hs).1 hreads,
    fun k r' hr' hhandle hpath t ht hc hserved => ?_⟩
  rcases h.task_cases hp h.cut hg hs hr' hhandle hpath ht hc with hstart |
    ⟨r, hr, hsame, hpath', hold | ⟨pc, hpc, hmove, hstore⟩⟩
  · rw [hstart] at hserved
    cases hserved
  · exact hkeep.holds hc (h.served k r hr (hsame.trans hhandle) hpath' t hold hc hserved)
  · exact hmove.served hkeep hc (h.served k r hr (hsame.trans hhandle) hpath' _ hpc hc) hstore hserved

/-- A run with no read in flight through the handle at its start. -/
theorem Served.start (h : s.Sound w) (hnone : ∀ k, ∀ r ∈ s.active k, r.handle ≠ handle) (uuid path : String)
    (chunks : List CacheReadChunk) : s.Served w uuid path chunks handle :=
  ⟨h, fun k r hr hhandle => absurd hhandle (hnone k r hr), fun k r hr hhandle => absurd hhandle (hnone k r hr)⟩

/-- The chunks of a read are held, and reads of its file through handles from
`opened` on find them. -/
structure Rereads (w : World) (uuid : String) (read : ActiveRead) (opened : Nat) (s : OpenState) :
    Prop extends Sound w s where
  cut : s.CutAll w read.path (opened ≤ ·)
  origin : read.CutUnder w s.fs
  held : ∀ c ∈ read.chunks, s.fs.Holds w uuid read.path c
  hits : ∀ k, ∀ r ∈ s.active k, opened ≤ r.handle → r.path = read.path → ∀ t ∈ r.tasks, t.1 ∈ read.chunks →
    t.2.missed = false ∧ (t.2 = .localFile → s.fs.fileHolds w uuid read.path t.1 = true)

variable {read : ActiveRead} {opened : Nat}

theorem Rereads.step (h : s.Rereads w uuid read opened) (hp : w.platform.OK)
    (hg : a.Spares w uuid read.path read.chunks s) (hs : openStep w s a = some s') :
    s'.Rereads w uuid read opened := by
  obtain ⟨_, _, hreads, _⟩ := h.step_spec hp hs
  have hkeep := h.keeps hp hg hs
  have hset := (hg.2.2 s' hs).1
  refine ⟨h.toSound.step hp hs, h.cut.step hset hreads, h.origin.of_settings hset,
    fun c hc => hkeep.holds hc (h.held c hc), fun k r' hr' hnew hpath t ht hc => ?_⟩
  rcases h.task_cases hp h.cut hg hs hr' hnew hpath ht hc with hstart |
    ⟨r, hr, hhandle, hpath', hold | ⟨pc, hpc, hmove, _⟩⟩
  · rw [hstart]
    exact ⟨rfl, nofun⟩
  · obtain ⟨hmissed, hfile⟩ := h.hits k r hr (hhandle ▸ hnew) hpath' t hold hc
    exact ⟨hmissed, fun hlocal => (hkeep t.1 hc).2 (hfile hlocal)⟩
  · obtain ⟨hmissed, hfile⟩ := h.hits k r hr (hhandle ▸ hnew) hpath' _ hpc hc
    exact hmove.hits hkeep hc (h.held t.1 hc) hmissed hfile

/-- Once all tasks of a read are done, its chunks are held. -/
theorem Served.rereads (h : s.Served w uuid read.path read.chunks read.handle) {k : Nat}
    (hread : read ∈ s.active k) (hdone : read.isDone = true) : s.Rereads w uuid read s.fs.handles.length := by
  refine ⟨h.toSound, fun k r hr hnew => ?_, h.cut k read hread rfl rfl, fun c hc => ?_, fun k r hr hnew => ?_⟩
  · exact absurd (h.handles k r hr) (Nat.not_lt.mpr hnew)
  · obtain ⟨t, ht, rfl⟩ := List.mem_map.mp hc
    refine h.served k read hread rfl rfl t ht hc ?_
    unfold ActiveRead.isDone at hdone
    unfold ActiveRead.tasks at ht
    split at hdone
    · cases hdone
    next tasks hphase =>
      rw [hphase] at ht
      have htask := List.all_eq_true.mp hdone t ht
      obtain ⟨c, pc⟩ := t
      cases pc with
      | done wrote => rfl
      | start | localFile | lookedUp found | recorded found | fetched content => cases htask
  · exact absurd (h.handles k r hr) (Nat.not_lt.mpr hnew)

/-- A read of the same range asks the remote file for nothing. -/
theorem Rereads.hit (h : s.Rereads w uuid read opened) (hdone : read.isDone = true) {k : Nat} {r : ActiveRead}
    (hr : r ∈ s.active k) (hnew : opened ≤ r.handle) (hrange : read.SameRange r) :
    ∀ t ∈ r.tasks, t.2.missed = false := by
  intro t ht
  have hchunks := h.origin.chunks_eq (h.cut k r hr hnew hrange.path) hrange hdone (List.ne_nil_of_mem ht)
  exact (h.hits k r hr hnew hrange.path t ht (hchunks ▸ List.mem_map_of_mem ht)).1

/-- Opening a file to read leaves the data and the size cached of `f` as they
are: of another file always, of the file itself with `clear_cache_on_write` off. -/
def OpensPreserve (w : World) (s : OpenState) : Prop :=
  ∀ flags path hash s', flags.readOnly = true → openStep w s (.openFile flags path hash) = some s' →
    ∀ f, (path = f → s.clearCacheOnWrite = false) → s.fs.KeepsBlocks w f s'.fs ∧
      (s.fs.metadataConfig.enableMetadataCache = true → s'.fs.metadataEntry f = s.fs.metadataEntry f)

/-- In any run from here on that spares the file: once a read of it is done,
through a handle with no read in flight so far, no read of the same range
through a handle opened after that misses. -/
def RereadsHit (w : World) (s : OpenState) : Prop :=
  ∀ as s₁ k₁ read uuid, exec (openStep w) s as = some s₁ → read ∈ s₁.active k₁ → read.isDone = true →
    (∀ k, ∀ r ∈ s.active k, r.handle ≠ read.handle) →
    Guarded (openStep w) (fun s a => a.Spares w uuid read.path read.chunks s) s as →
    ∀ bs s₂ k₂ r, exec (openStep w) s₁ bs = some s₂ →
      Guarded (openStep w) (fun s a => a.Spares w uuid read.path read.chunks s) s₁ bs →
      r ∈ s₂.active k₂ → s₁.fs.handles.length ≤ r.handle → read.SameRange r → ∀ t ∈ r.tasks, t.2.missed = false

theorem Sound.opensPreserve (h : s.Sound w) (hp : w.platform.OK) : s.OpensPreserve w := by
  intro flags path hash s' _ hs f hother
  obtain ⟨fs', hopen, rfl⟩ := openStep_openFile hs
  refine ⟨CacheFileSystem.keepsBlocks_openFileExtended h.fs hp hother hopen, fun henabled => ?_⟩
  exact (CacheFileSystem.openFileExtended_entry h.fs hother hopen).trans (if_pos henabled)

theorem Sound.rereadsHit (h : s.Sound w) (hp : w.platform.OK) : s.RereadsHit w := by
  intro as s₁ k₁ read uuid hfirst hread hdone hnone hspare bs s₂ k₂ r hlater hspare' hr hnew hrange
  have hserved : s₁.Served w uuid read.path read.chunks read.handle :=
    exec_guarded_invariant (fun _ _ _ h hg hs => Served.step h hp hg hs) hspare hfirst (.start h hnone uuid _ _)
  have hrereads : s₂.Rereads w uuid read s₁.fs.handles.length :=
    exec_guarded_invariant (fun _ _ _ h hg hs => Rereads.step h hp hg hs) hspare' hlater
      (hserved.rereads hread hdone)
  exact hrereads.hit hdone hr hnew hrange

theorem Sound.start (config : InstanceConfig) (metadataConfig : MetadataConfig) (files : LocalFiles)
    (clearCacheOnWrite : Bool) :
    Sound w { reads := { fs := { config, metadataConfig, diskReader := { files } } }, clearCacheOnWrite } :=
  ⟨.start config metadataConfig files, fun _ _ hr => by cases hr⟩

end OpenState

/-- **Opening for reading preserves the cache**, in every state a session can
be in, and a range that was read is not read from the remote file again. -/
theorem read_opens_preserve (w : World) (hp : w.platform.OK) (config : InstanceConfig)
    (metadataConfig : MetadataConfig)
    (files : LocalFiles) (clearCacheOnWrite : Bool) (as : List OpenAct) (s : OpenState)
    (hx : exec (openStep w)
      { reads := { fs := { config, metadataConfig, diskReader := { files } } }, clearCacheOnWrite } as = some s) :
    s.OpensPreserve w ∧ s.RereadsHit w := by
  have h : s.Sound w :=
    exec_invariant (fun _ _ _ h hs => OpenState.Sound.step h hp hs) hx
      (.start config metadataConfig files clearCacheOnWrite)
  exact ⟨h.opensPreserve hp, h.rereadsHit hp⟩

/-! ## A small file read twice -/

def reopenStart (cacheType : CacheType) : OpenState :=
  { reads := { fs := { config := { invalidationConfig with cacheType } } } }

def openToRead (path : String) : OpenAct := .openFile { forReading := true } path .inserted

/-- A read of the whole file, which is one chunk, its task taken some steps. -/
def wholeRead (handle steps : Nat) (env : TaskEnv) : List OpenAct :=
  .other (.startRead 0 handle 4 0 {}) :: List.replicate steps (.other (.task 0 0 0 env))

/-- Another file is opened to be written and removed, with the option set; then the file is read again. -/
def secondWholeRead : List OpenAct :=
  [ .other (.finishRead 0 0), .setClearCacheOnWrite true, .openFile { forWriting := true } "s3://b/y" .inserted
  , .removeFiles ["s3://b/y"] .inserted, .setClearCacheOnWrite false, openToRead "s3://b/x"] ++ wholeRead 1 1 {}

theorem read_opens_preserve_reread :
    ∃ s₁ s₂ read r, exec (openStep invalidationWorld) (reopenStart .inMem)
      (openToRead "s3://b/x" :: wholeRead 0 4 {}) = some s₁ ∧
      exec (openStep invalidationWorld) s₁ secondWholeRead = some s₂ ∧ read ∈ s₁.active 0 ∧ r ∈ s₂.active 0 ∧
      r.tasks.length = 1 ∧ ∀ t ∈ r.tasks, t.2.missed = false := by
  have hrun₁ : ∃ s ∈ exec (openStep invalidationWorld) (reopenStart .inMem)
    (openToRead "s3://b/x" :: wholeRead 0 4 {}),
      s.fs.handles.length = 1 ∧ ∃ read ∈ s.active 0, read.path = "s3://b/x" ∧ read.requestedStartOffset = 0 ∧
        read.requestedBytesToRead = 4 ∧ read.chunks = [wholeFileChunk] ∧ read.isDone = true := by decide +kernel
  have hrun₂ : ∃ s ∈ exec (openStep invalidationWorld) (reopenStart .inMem)
      (openToRead "s3://b/x" :: wholeRead 0 4 {} ++ secondWholeRead), ∃ r ∈ s.active 0, r.path = "s3://b/x" ∧
        r.requestedStartOffset = 0 ∧ r.requestedBytesToRead = 4 ∧ r.handle = 1 ∧ r.tasks.length = 1 := by
          decide +kernel
  have hspare : Guarded (openStep invalidationWorld)
      (fun s a => a.Spares invalidationWorld "" "s3://b/x" [wholeFileChunk] s) (reopenStart .inMem)
      (openToRead "s3://b/x" :: wholeRead 0 4 {} ++ secondWholeRead) := by decide +kernel
  obtain ⟨s₂, hs₂, r, hr, hpath', hstart', hbytes', hhandle, hlength⟩ := hrun₂
  obtain ⟨s₁, hs₁, hlater⟩ := exec_append.mp hs₂
  obtain ⟨_, hs, hhandles, read, hread, hpath, hstart, hbytes, hchunks, hdone⟩ := hrun₁
  cases hs₁.symm.trans hs
  obtain ⟨hspare₁, hspare₂⟩ := guarded_append.mp hspare
  have hstates :=
    read_opens_preserve invalidationWorld knownSha256_ok { invalidationConfig with cacheType := .inMem } {}
    (fun _ => none) false [] (reopenStart .inMem) rfl
  refine ⟨s₁, s₂, read, r, hs₁, hlater, hread, hr, hlength, ?_⟩
  refine hstates.2 _ s₁ 0 read "" hs₁ hread hdone
    (fun _ _ hr => by cases hr) ?_ secondWholeRead s₂ 0 r hlater ?_ hr ?_ ?_
  · rw [hpath, hchunks]
    exact hspare₁
  · rw [hpath, hchunks]
    exact hspare₂ s₁ hs₁
  · rw [hhandles, hhandle]
  · exact ⟨hpath'.trans hpath.symm, hstart'.trans hstart.symm, hbytes'.trans hbytes.symm⟩

/-- After these steps a read is at a task that has missed. -/
def RereadMisses (cacheType : CacheType) (as : List OpenAct) : Prop :=
  ∃ s ∈ exec (openStep invalidationWorld) (reopenStart cacheType) as, ∃ r ∈ s.active 0, r.handle = 1 ∧
    ∃ t ∈ r.tasks, t.2.missed = true

instance (cacheType : CacheType) (as : List OpenAct) : Decidable (RereadMisses cacheType as) :=
  inferInstanceAs (Decidable (∃ s ∈ exec _ _ _, _))

/-- What an open drops or a second read misses all the same: the sizes, once
their cache is turned off; the block, for a reader that keeps its blocks
elsewhere, and where the cache file cannot be accessed; and, with
`clear_cache_on_write`, the block of a file that is opened to read. -/
theorem read_opens_drop :
    (∃ s ∈ exec (openStep invalidationWorld) (reopenStart .inMem) (openToRead "s3://b/x" :: wholeRead 0 4 {} ++
        [.other (.session (.configure invalidationConfig { enableMetadataCache := false }))]),
      ∃ s' ∈ openStep invalidationWorld s (openToRead "s3://b/x"), s.clearCacheOnWrite = false ∧
        s.fs.metadataEntry "s3://b/x" ≠ none ∧ s'.fs.metadataEntry "s3://b/x" = none) ∧
    RereadMisses .inMem (openToRead "s3://b/x" :: wholeRead 0 4 {} ++
      [ .other (.finishRead 0 0), .other (.session (.configure invalidationConfig {})), openToRead "s3://b/x" ] ++
      wholeRead 1 2 {}) ∧
    RereadMisses .onDisk (openToRead "s3://b/x" :: wholeRead 0 5 { canAccessFile := false } ++
      [.other (.finishRead 0 0), openToRead "s3://b/x"] ++ wholeRead 1 2 { canAccessFile := false }) ∧
    ∃ s ∈ exec (openStep invalidationWorld) (reopenStart .inMem) (openToRead "s3://b/x" :: wholeRead 0 4 {} ++
        [.setClearCacheOnWrite true]),
      ∃ s' ∈ openStep invalidationWorld s (openToRead "s3://b/x"),
        s.fs.resident (wholeFileChunk.blockKey "s3://b/x") ≠ none ∧
          s'.fs.resident (wholeFileChunk.blockKey "s3://b/x") = none :=
  ⟨by decide +kernel, by decide +kernel, by decide +kernel, by decide +kernel⟩

end ReadCacheFs
