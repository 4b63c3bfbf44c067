/-
Reads of several connections at once, and what they report to the
`TempProfileCollector` of each.

A read reports each chunk in the chunk's task, hit or miss, and its total
once all tasks are done. The machine takes the tasks of the reads of all
connections in any order, and between any two of their steps a session may
change settings, layouts and caches. A column-chunk read plans with one
registry call at a time (`PlanRace`).
-/
import Mathlib.Algebra.Order.BigOperators.Group.List
import ReadCacheFs.PlanRace
import ReadCacheFs.ReadTasks
import ReadCacheFs.ReadTransparency

namespace ReadCacheFs

open Lib

/-- The reader a read goes through. -/
inductive ReaderUse
  | inMem
  | onDisk (info : RemoteFileCachePathInfo)

inductive ReadPhase
  /-- `HasLayout` and `PlanColumnChunks`. -/
  | planning (request : ColumnChunkPlanRequest) (pc : PlanPc)
  /-- The tasks are scheduled. -/
  | running (tasks : List (CacheReadChunk × TaskPc))

/-- A `ReadAndCache` that has not returned. -/
structure ActiveRead where
  handle : Nat
  path : String
  versionTag : String
  reader : ReaderUse
  requestedStartOffset : Nat
  requestedBytesToRead : Nat
  phase : ReadPhase

/-- A `ReadAndCache` that has returned. -/
structure FinishedRead where
  returned : Nat
  chunks : List CacheReadChunk

structure Connection where
  collector : TempProfileCollector := {}
  active : List ActiveRead := []
  /-- The reads since the last `Reset`. -/
  finished : List FinishedRead := []

structure ProfileState where
  fs : CacheFileSystem
  connections : Nat → Connection := fun _ => {}

inductive ProfileAct
  /-- A read of a handle, up to its tasks or its plan. -/
  | startRead (connection handle nrBytes location : Nat) (env : ReadEnv)
  /-- The next registry call of a read that plans. -/
  | plan (connection read : Nat)
  /-- The next step of a task of a read. -/
  | task (connection read task : Nat) (env : TaskEnv)
  /-- `WaitAll` returns, and the read with it. -/
  | finishRead (connection read : Nat)
  /-- `Reset`, between reads. -/
  | reset (connection : Nat)
  /-- Anything else, the reads of connections without a profile among it. -/
  | session (act : FsAct)

/-! ## The steps -/

/-- `total_bytes_to_cache`, summed up as the chunks are scheduled. -/
def totalBytesToCache (chunks : List CacheReadChunk) : Nat :=
  chunks.foldl (fun total c => u64 (total + c.chunkSize)) 0

/-- What `GetFileSize` reports. -/
def CacheFileSystem.statAccess (env : ReadEnv) (path : String) (fs : CacheFileSystem) : Option CacheAccess :=
  fs.metadataCache.map fun cache =>
    if (cache.get (steadyMillis env.statNow) path).1.isSome then .cacheHit else .cacheMiss

/-- The tasks of the chunks. -/
def ReadPhase.scheduled (chunks : List CacheReadChunk) : ReadPhase := .running (chunks.map (·, .start))

namespace ActiveRead

def tasks (r : ActiveRead) : List (CacheReadChunk × TaskPc) :=
  match r.phase with
  | .planning _ _ => []
  | .running tasks => tasks

def isDone (r : ActiveRead) : Bool :=
  match r.phase with
  | .planning _ _ => false
  | .running tasks => tasks.all (·.2.isDone)

def setTask (r : ActiveRead) (j : Nat) (t : CacheReadChunk × TaskPc) : ActiveRead :=
  { r with phase := .running (r.tasks.set j t) }

def finish (r : ActiveRead) : FinishedRead := ⟨r.requestedBytesToRead, r.tasks.map (·.1)⟩

def taskStep (w : World) (env : TaskEnv) (r : ActiveRead) (c : CacheReadChunk) (pc : TaskPc)
    (fs : CacheFileSystem) :
    Except Fault (TaskPc × CacheFileSystem) :=
  match r.reader with
  | .inMem => match fs.inMemStorage with
    | none => .error .nullDeref
    | some storage =>
      (InMemoryCacheReader.taskStep w r.path r.versionTag env c pc storage).map fun (pc, storage) =>
        (pc, { fs with inMemStorage := some storage })
  | .onDisk info =>
    (DiskCacheReader.taskStep w r.path r.versionTag fs.config info env c pc fs.diskReader).map fun (pc, diskReader) =>
      (pc, { fs with diskReader })

end ActiveRead

/-- Before the tasks of the in-memory reader. -/
def CacheFileSystem.beginPhase (location bytesToRead fileSize : Nat) (fs : CacheFileSystem) :
    Except Fault ReadPhase :=
  match fs.config.chunking with
  | .columnChunk => .ok (.planning ⟨location, bytesToRead, fileSize, fs.config.cacheBlockSize⟩ .start)
  | .fixed => (fixedGridChunks location bytesToRead fs.config.cacheBlockSize fileSize).map fun grid => .scheduled grid.chunks

/-- `ReadAndCache` up to its tasks or its plan; no read where it returns at once. -/
def CacheFileSystem.beginRead (w : World) (env : ReadEnv) (handle : Nat) (path : String)
    (location bytesToRead fileSize : Nat) (fs : CacheFileSystem) :
    Except Fault (Option ActiveRead × CacheFileSystem) :=
  let versionTag := fs.config.expectedTag env
  match fs.config.cacheType with
  | .noop => (w.remote.read path bytesToRead location).map fun _ => (none, fs)
  | .inMem =>
    if bytesToRead = 0 then .ok (none, fs)
    else do
      let storage ← InMemoryCacheReader.initStorage fs.config fs.inMemStorage
      let phase ← fs.beginPhase location bytesToRead fileSize
      return (some ⟨handle, path, versionTag, .inMem, location, bytesToRead, phase⟩, { fs with inMemStorage := some storage })
  | .onDisk =>
    if bytesToRead = 0 then .ok (none, fs)
    else do
      let info ← buildRemoteFileCachePathInfo w.platform fs.config.onDiskCacheDirectories path
      let grid ← fixedGridChunks location bytesToRead fs.config.cacheBlockSize fileSize
      return (some ⟨handle, path, versionTag, .onDisk info, location, bytesToRead, .scheduled grid.chunks⟩,
        { fs with diskReader := fs.diskReader.init fs.config })

namespace Connection

/-- What `GetFileSize` reports. -/
def recordStat (access : Option CacheAccess) (c : Connection) : Connection :=
  match access with
  | none => c
  | some access => { c with collector := c.collector.recordCacheAccess .metadata access 0 }

/-- What a step of a task reports. -/
def recordFound (chunk : CacheReadChunk) (found : Option Found) (c : Connection) : Connection :=
  match found with
  | none => c
  | some found => { c with collector := c.collector.recordCacheAccess .data found.access chunk.bytesToCopy }

def setRead (i : Nat) (r : ActiveRead) (c : Connection) : Connection := { c with active := c.active.set i r }

def start (r : ActiveRead) (c : Connection) : Connection := { c with active := c.active ++ [r] }

/-- The read returns. -/
def finish (i : Nat) (r : ActiveRead) (c : Connection) : Connection :=
  { collector := c.collector.recordActualCacheRead (totalBytesToCache (r.tasks.map (·.1))) r.requestedBytesToRead
    active := c.active.eraseIdx i
    finished := c.finished ++ [r.finish] }

def reset (c : Connection) : Connection := { c with collector := c.collector.reset, finished := [] }

end Connection

namespace ProfileState

def onConnection (k : Nat) (f : Connection → Connection) (s : ProfileState) : ProfileState :=
  { s with connections := Function.update s.connections k (f (s.connections k)) }

def readAt (k i : Nat) (s : ProfileState) : Option ActiveRead := (s.connections k).active[i]?

/-- `ReadImpl` of a path, up to the tasks or the plan of the read. -/
def startReadOf (w : World) (k handle : Nat) (path : String) (nrBytes location : Nat) (env : ReadEnv)
    (s : ProfileState) :
    Option ProfileState :=
  let access := s.fs.statAccess env path
  let (fileSize, fs) := s.fs.getFileSize w env path
  let s := { s with fs }.onConnection k (Connection.recordStat access)
  if fileSize ≤ location then some s
  else
    let bytesToRead := min nrBytes (fileSize - location)
    if env.matchAnyExclusion then (w.remote.read path bytesToRead location).toOption.map fun _ => s
    else (fs.beginRead w env handle path location bytesToRead fileSize).toOption.map fun (r, fs) =>
      match r with
      | none => { s with fs }
      | some r => { s with fs }.onConnection k (Connection.start r)

def startRead (w : World) (k handle nrBytes location : Nat) (env : ReadEnv) (s : ProfileState) :
    Option ProfileState :=
  (s.fs.handles[handle]?).bind fun h => s.startReadOf w k handle h.path nrBytes location env

/-- The next registry call; the last of them leaves the tasks scheduled. -/
def plan (k i : Nat) (s : ProfileState) : Option ProfileState :=
  (s.readAt k i).bind fun r => match r.phase with
    | .running _ => none
    | .planning request pc => (planRead r.path request s.fs.layouts pc).bind fun pc => match pc with
      | .done (.ok chunks) => some (s.onConnection k (Connection.setRead i { r with phase := .scheduled chunks }))
      | .done (.error _) => none
      | pc => some (s.onConnection k (Connection.setRead i { r with phase := .planning request pc }))

def task (w : World) (k i j : Nat) (env : TaskEnv) (s : ProfileState) : Option ProfileState :=
  (s.readAt k i).bind fun r => r.tasks[j]?.bind fun (c, pc) =>
    (r.taskStep w env c pc s.fs).toOption.map fun (pc', fs) =>
      { s with fs }.onConnection k fun conn => (conn.recordFound c pc.toReport).setRead i (r.setTask j (c, pc'))

def finishRead (k i : Nat) (s : ProfileState) : Option ProfileState :=
  (s.readAt k i).bind fun r => if r.isDone then some (s.onConnection k (Connection.finish i r)) else none

end ProfileState

open ProfileState in
/-- Steps that fault are not taken: these are the runs without errors. -/
def profileStep (w : World) (s : ProfileState) : ProfileAct → Option ProfileState
  | .startRead k handle nrBytes location env => s.startRead w k handle nrBytes location env
  | .plan k i => s.plan k i
  | .task k i j env => s.task w k i j env
  | .finishRead k i => s.finishRead k i
  | .reset k => if (s.connections k).active.isEmpty then some (s.onConnection k Connection.reset) else none
  | .session act => (fsStep w s.fs act).toOption.map fun fs => { s with fs }

/-! ## The chunks of a read -/

theorem totalBytesToCache_append (chunks : List CacheReadChunk) (c : CacheReadChunk) :
    totalBytesToCache (chunks ++ [c]) = u64 (totalBytesToCache chunks + c.chunkSize) := by
  rw [totalBytesToCache, List.foldl_append]
  rfl

/-- The total of the scheduled chunks is that of their sizes, modulo `2^64`. -/
theorem totalBytesToCache_eq (chunks : List CacheReadChunk) :
    totalBytesToCache chunks = u64 (chunks.map (·.chunkSize)).sum := by
  induction chunks using List.reverseRecOn with
  | nil => rfl
  | append_singleton chunks c ih =>
    rw [totalBytesToCache_append, ih, u64_add, List.map_append, List.sum_append]
    rfl

/-- The chunks copy `n` bytes, each out of its own entry. -/
structure ChunksOf (n : Nat) (chunks : List CacheReadChunk) : Prop where
  sum : (chunks.map (·.bytesToCopy)).sum = n
  inner : ∀ c ∈ chunks, c.bytesToCopy ≤ c.chunkSize

theorem ChunksOf.of_tiles {start n : Nat} {chunks : List CacheReadChunk}
    (ht : Tiles start (start + n) (chunks.map CacheReadChunk.copyRange))
    (hin : ∀ c ∈ chunks, c.bytesToCopy ≤ c.chunkSize) :
    ChunksOf n chunks := by
  refine ⟨?_, hin⟩
  have hsum := ht.sum
  rw [List.map_map] at hsum
  exact Nat.add_left_cancel hsum

theorem CutsRequest.inner {chunks : List CacheReadChunk} {start n fileSize : Nat}
    (h : CutsRequest chunks start n fileSize) :
    ∀ c ∈ chunks, c.bytesToCopy ≤ c.chunkSize := by
  intro c hc
  have hlow := (h.fits c hc).low
  have hhigh := (h.fits c hc).high
  omega

theorem CutsRequest.chunksOf {chunks : List CacheReadChunk} {start n fileSize : Nat}
    (h : CutsRequest chunks start n fileSize) : ChunksOf n chunks := .of_tiles h.tiles h.inner

/-- A read caches at least what it returns. -/
theorem ChunksOf.le {n : Nat} {chunks : List CacheReadChunk} (h : ChunksOf n chunks) :
    n ≤ (chunks.map (·.chunkSize)).sum := by
  rw [← h.sum]
  exact List.sum_le_sum h.inner

/-! ## The plan of a read -/

/-- Each chunk planned copies out of its own entry. -/
def PlanPc.Inner : PlanPc → Prop
  | .start => True
  | .find _ chunks | .nextStart _ chunks => ∀ c ∈ chunks, c.bytesToCopy ≤ c.chunkSize
  | .done res => ∀ chunks, res = .ok chunks → ∀ c ∈ chunks, c.bytesToCopy ≤ c.chunkSize

theorem planEntry_inner {r : ColumnChunkPlanRequest} {pos es sz : Nat} {c : CacheReadChunk}
    (h : planEntry r pos es sz = some c) : c.bytesToCopy ≤ c.chunkSize := by
  have hwrap : ∀ n, u64 n ≤ n := fun n => Nat.mod_le _ _
  unfold planEntry at h
  split at h
  · cases h
  · dsimp only at h
    generalize (if 0 < r.fileSize then min sz (u64Sub r.fileSize es) else sz) = size at h
    have := hwrap (es + size)
    repeat' split at h
    all_goals cases h
    dsimp only
    omega

section Plan

variable {path : String} {request : ColumnChunkPlanRequest} {chunks : List CacheReadChunk} {pos : Nat}

theorem schedule_inner (h : ReadRequestOK request) (hc : ∀ c ∈ chunks, c.bytesToCopy ≤ c.chunkSize) :
    (PlanPc.done (schedule request chunks)).Inner := by
  intro scheduled hs
  unfold schedule at hs
  split at hs
  · obtain ⟨grid, hgrid, hcuts⟩ := fixedGridChunks_cuts (⟨h.pos, h.fits, h.size_lt⟩ : RequestOK _ _ _)
      (⟨h.block, h.block_le⟩ : BlockSizeOK request.maxGapEntrySize)
    rw [hgrid] at hs
    cases hs
    exact hcuts.inner
  · cases hs
    exact hc

theorem planTop_inner (h : ReadRequestOK request) (hc : ∀ c ∈ chunks, c.bytesToCopy ≤ c.chunkSize) :
    (planTop request pos chunks).Inner := by
  unfold planTop
  split
  · exact hc
  · exact schedule_inner h hc

theorem planAdvance_inner (h : ReadRequestOK request) (entry : Nat × Nat)
    (hc : ∀ c ∈ chunks, c.bytesToCopy ≤ c.chunkSize) :
    (planAdvance request pos chunks entry).Inner := by
  unfold planAdvance
  split
  · exact schedule_inner h hc
  next c he =>
    refine planTop_inner h fun d hd => ?_
    rcases List.mem_append.mp hd with hd | hd
    · exact hc d hd
    · rw [List.mem_singleton.mp hd]
      exact planEntry_inner he

theorem planRead_inner (h : ReadRequestOK request) {l : Layouts} {pc pc' : PlanPc} (hpc : pc.Inner)
    (hr : planRead path request l pc = some pc') : pc'.Inner := by
  cases pc with
  | start =>
    cases hr
    split
    · exact planTop_inner h (by simp)
    · exact schedule_inner h (by simp)
  | find pos chunks =>
    cases hr
    split
    · exact planAdvance_inner h _ hpc
    · exact hpc
  | nextStart pos chunks =>
    cases hr
    exact planAdvance_inner h _ hpc
  | done res => cases hr

end Plan

/-! ## What a read needs of the session -/

namespace CacheFileSystem

variable {w : World} {fs fs' : CacheFileSystem}

/-- Enough to cut a read inside its file. -/
structure Cuttable (w : World) (fs : CacheFileSystem) : Prop where
  blockSize : BlockSizeOK fs.config.cacheBlockSize
  layouts : LayoutsOK fs.layouts
  metadata : ∀ cache, fs.metadataCache = some cache → cache.MirrorsSizes w.remote

theorem Cuttable.getFileSize (h : fs.Cuttable w) (env : ReadEnv) (path : String) :
    (fs.getFileSize w env path).1 = (w.remote path).length ∧ (fs.getFileSize w env path).2.Cuttable w := by
  obtain ⟨cache, hstat, hcache⟩ := getFileSize_spec h.metadata env path
  rw [hstat]
  exact ⟨rfl, { h with metadata := hcache }⟩

theorem Cuttable.readAndCache (h : fs.Cuttable w) {env : ReadEnv} {path : String} {buffer filled : Bytes}
    {location n fileSize : Nat} (hr : fs.readAndCache w env path buffer location n fileSize = .ok (filled, fs')) :
    fs'.Cuttable w := by
  unfold CacheFileSystem.readAndCache at hr
  split at hr <;>
    (obtain ⟨_, _, hr⟩ := except_map_eq_ok.mp hr
     cases hr
     exact { h with })

theorem Cuttable.readHandle (h : fs.Cuttable w) {env : ReadEnv} {path : String} {buffer : Bytes}
    {nrBytes location returned : Nat}
    (hr : fs.readHandle w env path buffer nrBytes location = .ok (returned, fs')) :
    fs'.Cuttable w := by
  unfold CacheFileSystem.readHandle at hr
  obtain ⟨⟨⟨n, filled⟩, fs₁⟩, himpl, hr⟩ := except_map_eq_ok.mp hr
  cases hr
  have hstat := (h.getFileSize env path).2
  suffices h₁ : fs₁.Cuttable w from { h₁ with }
  unfold CacheFileSystem.readImpl at himpl
  dsimp only at himpl
  split at himpl
  · cases himpl
    exact hstat
  · split at himpl
    · obtain ⟨_, _, himpl⟩ := except_map_eq_ok.mp himpl
      cases himpl
      exact hstat
    · obtain ⟨_, hread, himpl⟩ := except_map_eq_ok.mp himpl
      cases himpl
      exact hstat.readAndCache hread

theorem Cuttable.remap (h : fs.Cuttable w) {newBlockSize : Nat} {inMemEnv diskEnv : RemapEnv}
    (hs : fs.remapInMemoryDataCaches newBlockSize inMemEnv diskEnv = .ok fs') : fs'.Cuttable w := by
  unfold remapInMemoryDataCaches at hs
  dsimp only at hs
  split at hs <;>
    (obtain ⟨_, _, hs⟩ := except_bind_eq_ok.mp hs
     obtain ⟨_, _, hs⟩ := except_bind_eq_ok.mp hs
     cases hs
     exact { h with })

theorem Cuttable.setCacheBlockSize (h : fs.Cuttable w) {newBlockSize : Nat} (hwide : newBlockSize < 2 ^ 64)
    {inMemEnv diskEnv : RemapEnv} (hs : fs.setCacheBlockSize newBlockSize inMemEnv diskEnv = .ok fs') :
    fs'.Cuttable w := by
  unfold CacheFileSystem.setCacheBlockSize at hs
  split at hs
  · cases hs
    exact h
  next haccepted =>
    have hb := BlockSizeOK.of_accepted haccepted hwide
    split at hs
    · obtain ⟨fs₁, hremap, hs⟩ := except_bind_eq_ok.mp hs
      cases hs
      exact { h.remap hremap with blockSize := hb }
    · cases hs
      exact { h with blockSize := hb }

theorem Cuttable.fsStep (h : fs.Cuttable w) {act : FsAct} (hact : act.OK) (hs : fsStep w fs act = .ok fs') :
    fs'.Cuttable w := by
  cases act with
  | openFile path =>
    cases hs
    exact { h with metadata := initializeGlobalConfig_sizes h.metadata }
  | seek handle position | configure config metadataConfig | removeFiles filepaths | evict objCacheKey =>
    cases hs
    exact { h with }
  | read handle buffer nrBytes env =>
    unfold ReadCacheFs.fsStep at hs
    dsimp only at hs
    split at hs
    · cases hs
      exact h
    · obtain ⟨⟨_, fs₁⟩, hread, hs⟩ := except_bind_eq_ok.mp hs
      cases hs
      exact { h.readHandle hread with }
  | readAt handle buffer nrBytes location env =>
    unfold ReadCacheFs.fsStep at hs
    dsimp only at hs
    split at hs
    · cases hs
      exact h
    · obtain ⟨⟨_, fs₁⟩, hread, hs⟩ := except_map_eq_ok.mp hs
      cases hs
      exact h.readHandle hread
  | setCacheBlockSize newBlockSize inMemEnv diskEnv => exact h.setCacheBlockSize hact hs
  | registerLayout path extents sorted =>
    cases hs
    exact { h with layouts := h.layouts.register hact.1 hact.2 }
  | clearLayouts =>
    cases hs
    exact { h with layouts := .empty }
  | clearLayout path =>
    cases hs
    exact { h with layouts := h.layouts.clearPath }
  | clearCache =>
    cases hs
    refine { h with metadata := fun cache hc => ?_ }
    obtain ⟨old, _, rfl⟩ := Option.map_eq_some_iff.mp hc
    exact .clear _ _
  | clearCacheFile hash filepath =>
    obtain ⟨diskReader, _, rfl⟩ := except_map_eq_ok.mp hs
    refine { h with metadata := fun cache hc => ?_ }
    obtain ⟨old, hold, rfl⟩ := Option.map_eq_some_iff.mp hc
    exact (h.metadata old hold).clearFrom _ _

end CacheFileSystem

end ReadCacheFs
