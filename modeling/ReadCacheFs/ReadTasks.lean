/-
The chunk tasks of a read one step at a time, and what they report to the
`TempProfileCollector` of the connection.

A task looks its chunk up, reports the hit or the miss, and then copies, or
fetches, copies and stores. Between two of its steps other tasks and other
threads may do anything. A task that nobody gets in the way of is
`processCacheReadChunk` (`runTask_inMem`, `runTask_onDisk`).
-/
import ReadCacheFs.Readers

namespace ReadCacheFs

open Lib

/-! ## `TempProfileCollector` -/

inductive CacheEntity
  | metadata
  | data
  | fileHandle
  | glob
  deriving DecidableEq, Repr

inductive CacheAccess
  | cacheHit
  | cacheMiss
  | cacheEntryInUse
  deriving DecidableEq, Repr

/-- The counters, which are `uint64_t`. -/
structure TempProfileCollector where
  cacheAccessCount : CacheEntity × CacheAccess → Nat := fun _ => 0
  totalBytesToRead : Nat := 0
  totalBytesToCache : Nat := 0
  bytesReadFromHits : Nat := 0
  bytesReadFromMisses : Nat := 0

namespace TempProfileCollector

def recordCacheAccess (entity : CacheEntity) (access : CacheAccess) (byteCount : Nat) (c : TempProfileCollector) :
    TempProfileCollector :=
  let c := { c with
    cacheAccessCount :=
      Function.update c.cacheAccessCount (entity, access) (u64 (c.cacheAccessCount (entity, access) + 1)) }
  match entity, access with
  | .data, .cacheHit => { c with bytesReadFromHits := u64 (c.bytesReadFromHits + byteCount) }
  | .data, .cacheMiss => { c with bytesReadFromMisses := u64 (c.bytesReadFromMisses + byteCount) }
  | _, _ => c

def recordActualCacheRead (cacheBytes actualBytes : Nat) (c : TempProfileCollector) : TempProfileCollector :=
  { c with
    totalBytesToRead := u64 (c.totalBytesToRead + actualBytes)
    totalBytesToCache := u64 (c.totalBytesToCache + cacheBytes) }

def reset (_ : TempProfileCollector) : TempProfileCollector := {}

end TempProfileCollector

/-! ## Tasks -/

/-- What a task found of its chunk. -/
inductive Found
  /-- A block, pinned in an in-memory storage. -/
  | block (pinned : Nat)
  /-- The content of the local cache file. -/
  | file (content : PageAlignedDataChunk)
  | nothing
  deriving DecidableEq, Repr

def Found.ofFile : Option PageAlignedDataChunk → Found
  | some content => .file content
  | none => .nothing

def Found.access : Found → CacheAccess
  | .block _ | .file _ => .cacheHit
  | .nothing => .cacheMiss

inductive TaskPc
  | start
  /-- The in-memory layer has no block; before `ReadLocalCacheFile`. -/
  | localFile
  /-- Before `RecordCacheAccess`. -/
  | lookedUp (found : Found)
  | recorded (found : Found)
  /-- The remote read of a miss has returned. -/
  | fetched (content : PageAlignedDataChunk)
  /-- The task has returned, and this is what it wrote to the buffer. -/
  | done (wrote : Nat × Bytes)
  deriving DecidableEq, Repr

def TaskPc.reported : TaskPc → Bool
  | .start | .localFile | .lookedUp _ => false
  | .recorded _ | .fetched _ | .done _ => true

def TaskPc.toReport : TaskPc → Option Found
  | .lookedUp found => some found
  | _ => none

def TaskPc.isDone : TaskPc → Bool
  | .done _ => true
  | _ => false

/-- A task nobody gets in the way of. -/
def runTask {σ : Type} (step : TaskPc → σ → Except Fault (TaskPc × σ)) :
    Nat → TaskPc → σ → Except Fault ((Nat × Bytes) × σ)
  | 0, _, _ => .error .diverges
  | fuel + 1, pc, s => match pc with
    | .done wrote => .ok (wrote, s)
    | pc => do
      let (pc, s) ← step pc s
      runTask step fuel pc s

section Tasks

variable (w : World) (path versionTag : String)

def InMemoryCacheReader.taskStep (env : TaskEnv) (c : CacheReadChunk) :
    TaskPc → DataCacheStorage → Except Fault (TaskPc × DataCacheStorage)
  | .start, storage => match storage.get env.getNow (c.blockKey path) versionTag with
    | (some pinned, storage) => .ok (.lookedUp (.block pinned), storage)
    | (none, storage) => .ok (.lookedUp .nothing, storage)
  | .lookedUp found, storage => .ok (.recorded found, storage)
  | .recorded (.block pinned), storage => do
    let copied ← c.copyBufferToRequestedMemory (storage.pinnedData pinned)
    return (.done copied, storage.release pinned)
  | .recorded .nothing, storage => do
    let content ← w.fetch path c
    return (.fetched content, storage)
  | .fetched content, storage => do
    let copied ← c.copyBufferToRequestedMemory content
    let storage ← storage.put env.putNow env.evicted (c.blockKey path) content versionTag
    return (.done copied, storage)
  -- No task of this reader gets here.
  | .localFile, _ | .recorded (.file _), _ | .done _, _ => .error .assertFailed

def DiskCacheReader.cacheDest (info : RemoteFileCachePathInfo) (env : TaskEnv) (c : CacheReadChunk) :
    Except Fault LocalCacheDestination :=
  resolveLocalCacheDestination w.platform env.uuid info.cacheDirectory
    (getLocalCacheFile info c.alignedStartOffset c.chunkSize) path

def DiskCacheReader.taskStep (config : InstanceConfig) (info : RemoteFileCachePathInfo) (env : TaskEnv)
    (c : CacheReadChunk) : TaskPc → DiskCacheReader → Except Fault (TaskPc × DiskCacheReader)
  | .start, reader => do
    let reader := { reader with files := reader.files.remove env.removed }
    let _ ← cacheDest w path info env c
    match reader.inMemStorage with
    | none => return (.localFile, reader)
    | some storage => match storage.get env.getNow (c.blockKey path) versionTag with
      | (some pinned, storage) => return (.lookedUp (.block pinned), { reader with inMemStorage := some storage })
      | (none, storage) => return (.localFile, { reader with inMemStorage := some storage })
  | .localFile, reader => do
    let dest ← cacheDest w path info env c
    let (found, files) ← if env.canAccessFile then
        reader.files.readLocalCacheFile w dest.destLocalFilepath c.chunkSize versionTag
      else .ok (none, reader.files)
    return (.lookedUp (.ofFile found), { reader with files })
  | .lookedUp found, reader => .ok (.recorded found, reader)
  | .recorded (.block pinned), reader => match reader.inMemStorage with
    | none => .error .nullDeref
    | some storage => do
      let copied ← c.copyBufferToRequestedMemory (storage.pinnedData pinned)
      return (.done copied, { reader with inMemStorage := some (storage.release pinned) })
  | .recorded (.file content), reader => do
    let dest ← cacheDest w path info env c
    let copied ← c.copyBufferToRequestedMemory content
    let (recorded, reader) := reader.recordAccess config env dest.destLocalFilepath
    recorded
    let reader ← reader.memPut env (c.blockKey path) content versionTag
    return (.done copied, reader)
  | .recorded .nothing, reader => do
    let content ← w.fetch path c
    return (.fetched content, reader)
  | .fetched content, reader => do
    let dest ← cacheDest w path info env c
    let copied ← c.copyBufferToRequestedMemory content
    return (.done copied, reader.storeFetched config env dest.destLocalFilepath (c.blockKey path) content versionTag)
  | .done _, _ => .error .assertFailed

end Tasks

/-! ## What a task reports -/

section Reports

variable {w : World} {config : InstanceConfig} {path versionTag : String} {env : TaskEnv} {c : CacheReadChunk}
    {pc pc' : TaskPc}

/-- A task reports in one of its steps and only there. -/
theorem InMemoryCacheReader.taskStep_reported {storage storage' : DataCacheStorage}
    (h : taskStep w path versionTag env c pc storage = .ok (pc', storage')) :
    pc'.reported = (pc.reported || pc.toReport.isSome) := by
  cases pc with
  | start =>
    rw [taskStep] at h
    split at h <;> (cases h; rfl)
  | localFile | done wrote => cases h
  | lookedUp found =>
    cases h
    rfl
  | recorded found =>
    cases found with
    | block pinned =>
      obtain ⟨_, _, h⟩ := except_bind_eq_ok.mp h
      cases h
      rfl
    | file content => cases h
    | nothing =>
      obtain ⟨_, _, h⟩ := except_bind_eq_ok.mp h
      cases h
      rfl
  | fetched content =>
    obtain ⟨_, _, h⟩ := except_bind_eq_ok.mp h
    obtain ⟨_, _, h⟩ := except_bind_eq_ok.mp h
    cases h
    rfl

theorem DiskCacheReader.taskStep_reported {info : RemoteFileCachePathInfo} {reader reader' : DiskCacheReader}
    (h : taskStep w path versionTag config info env c pc reader = .ok (pc', reader')) :
    pc'.reported = (pc.reported || pc.toReport.isSome) := by
  cases pc with
  | start =>
    obtain ⟨_, _, h⟩ := except_bind_eq_ok.mp h
    split at h
    · cases h
      rfl
    · split at h <;> (cases h; rfl)
  | localFile =>
    obtain ⟨_, _, h⟩ := except_bind_eq_ok.mp h
    dsimp only at h
    split at h <;>
      (obtain ⟨_, _, h⟩ := except_bind_eq_ok.mp h
       cases h
       rfl)
  | lookedUp found =>
    cases h
    rfl
  | recorded found =>
    cases found with
    | block pinned =>
      rw [taskStep] at h
      split at h
      · cases h
      · obtain ⟨_, _, h⟩ := except_bind_eq_ok.mp h
        cases h
        rfl
    | file content =>
      obtain ⟨_, _, h⟩ := except_bind_eq_ok.mp h
      obtain ⟨_, _, h⟩ := except_bind_eq_ok.mp h
      obtain ⟨_, _, h⟩ := except_bind_eq_ok.mp h
      obtain ⟨_, _, h⟩ := except_bind_eq_ok.mp h
      cases h
      rfl
    | nothing =>
      obtain ⟨_, _, h⟩ := except_bind_eq_ok.mp h
      cases h
      rfl
  | fetched content =>
    obtain ⟨_, _, h⟩ := except_bind_eq_ok.mp h
    obtain ⟨_, _, h⟩ := except_bind_eq_ok.mp h
    cases h
    rfl
  | done wrote => cases h

end Reports

/-! ## Undisturbed tasks -/

section Undisturbed

variable {w : World} {config : InstanceConfig} {path versionTag : String} {env : TaskEnv} {c : CacheReadChunk}

section Run

variable {σ : Type} {step : TaskPc → σ → Except Fault (TaskPc × σ)} {fuel : Nat} {pc pc' : TaskPc} {s s' : σ}

theorem runTask_done (wrote : Nat × Bytes) : runTask step (fuel + 1) (.done wrote) s = .ok (wrote, s) := rfl

theorem runTask_step (hpc : pc.isDone = false) (h : step pc s = .ok (pc', s')) :
    runTask step (fuel + 1) pc s = runTask step fuel pc' s' := by
  cases pc with
  | done wrote => cases hpc
  | start | localFile | lookedUp found | recorded found | fetched content =>
    rw [runTask, h, ok_bind]
    exact fun _ he => by cases he

/-- A task that is not done takes a step. -/
theorem runTask_inv {out : (Nat × Bytes) × σ} (hpc : pc.isDone = false)
    (h : runTask step (fuel + 1) pc s = .ok out) :
    ∃ pc' s', step pc s = .ok (pc', s') ∧ runTask step fuel pc' s' = .ok out := by
  cases pc with
  | done wrote => cases hpc
  | start | localFile | lookedUp found | recorded found | fetched content =>
    obtain ⟨⟨pc', s'⟩, hstep, hrest⟩ := except_bind_eq_ok.mp h
    exact ⟨pc', s', hstep, hrest⟩

end Run

/-- Undisturbed, a task that returns is its steps. -/
theorem runTask_inMem {storage storage' : DataCacheStorage} {wrote : Nat × Bytes}
    (h : InMemoryCacheReader.processCacheReadChunk w path versionTag env c storage = .ok (wrote, storage')) :
    runTask (InMemoryCacheReader.taskStep w path versionTag env c) 5 .start storage = .ok (wrote, storage') := by
  have hreport : ∀ found s, InMemoryCacheReader.taskStep w path versionTag env c (.lookedUp found) s =
      .ok (.recorded found, s) := fun _ _ => by rw [InMemoryCacheReader.taskStep]
  unfold InMemoryCacheReader.processCacheReadChunk at h
  dsimp only at h
  split at h
  next pinned storage₁ hget =>
    obtain ⟨copied, hcopy, h⟩ := except_bind_eq_ok.mp h
    cases h
    have hstart : InMemoryCacheReader.taskStep w path versionTag env c .start storage =
        .ok (.lookedUp (.block pinned), storage₁) := by simp only [InMemoryCacheReader.taskStep, hget]
    have hcopied : InMemoryCacheReader.taskStep w path versionTag env c (.recorded (.block pinned)) storage₁ =
        .ok (.done wrote, storage₁.release pinned) := by
      rw [InMemoryCacheReader.taskStep, hcopy]
      rfl
    rw [runTask_step rfl hstart, runTask_step rfl (hreport _ _), runTask_step rfl hcopied, runTask_done]
  next storage₁ hget =>
    obtain ⟨content, hfetch, h⟩ := except_bind_eq_ok.mp h
    obtain ⟨copied, hcopy, h⟩ := except_bind_eq_ok.mp h
    obtain ⟨storage₂, hput, h⟩ := except_bind_eq_ok.mp h
    cases h
    have hstart : InMemoryCacheReader.taskStep w path versionTag env c .start storage =
        .ok (.lookedUp .nothing, storage₁) := by simp only [InMemoryCacheReader.taskStep, hget]
    have hfetched : InMemoryCacheReader.taskStep w path versionTag env c (.recorded .nothing) storage₁ =
        .ok (.fetched content, storage₁) := by
      rw [InMemoryCacheReader.taskStep, hfetch]
      rfl
    have hstored : InMemoryCacheReader.taskStep w path versionTag env c (.fetched content) storage₁ =
        .ok (.done wrote, storage') := by
      rw [InMemoryCacheReader.taskStep, hcopy, ok_bind, hput]
      rfl
    rw [runTask_step rfl hstart, runTask_step rfl (hreport _ _), runTask_step rfl hfetched,
      runTask_step rfl hstored,
      runTask_done]

/-- The first step of a task on disk asks the in-memory layer: a hit. -/
theorem DiskCacheReader.taskStep_hit (config : InstanceConfig) {info : RemoteFileCachePathInfo}
    {reader reader' : DiskCacheReader}
    {dest : LocalCacheDestination} {pinned : Nat} {storage : DataCacheStorage}
    (hdest : cacheDest w path info env c = .ok dest)
    (hget : { reader with files := reader.files.remove env.removed }.memGet env.getNow
      (c.blockKey path) versionTag =
      (some (pinned, storage), reader')) :
    reader' = { reader' with inMemStorage := some (storage.release pinned) } ∧
      taskStep w path versionTag config info env c .start reader =
        .ok (.lookedUp (.block pinned), { reader' with inMemStorage := some storage }) := by
  rw [taskStep, hdest, ok_bind]
  unfold memGet at hget
  dsimp only at hget ⊢
  cases hmem : reader.inMemStorage with
  | none => simp [hmem] at hget
  | some before =>
    simp only [hmem] at hget ⊢
    generalize before.get env.getNow (c.blockKey path) versionTag = looked at hget ⊢
    obtain ⟨_ | pinned, storage₁⟩ := looked
    · cases hget
    · cases hget
      exact ⟨rfl, rfl⟩

theorem DiskCacheReader.taskStep_miss (config : InstanceConfig) {info : RemoteFileCachePathInfo}
    {reader reader' : DiskCacheReader}
    {dest : LocalCacheDestination} (hdest : cacheDest w path info env c = .ok dest)
    (hget : { reader with files := reader.files.remove env.removed }.memGet env.getNow
      (c.blockKey path) versionTag =
      (none, reader')) : taskStep w path versionTag config info env c .start reader =
        .ok (.localFile, reader') := by
  rw [taskStep, hdest, ok_bind]
  unfold memGet at hget
  dsimp only at hget ⊢
  cases hmem : reader.inMemStorage with
  | none =>
    simp only [hmem] at hget ⊢
    cases hget
    rfl
  | some before =>
    simp only [hmem] at hget ⊢
    generalize before.get env.getNow (c.blockKey path) versionTag = looked at hget ⊢
    obtain ⟨_ | pinned, storage₁⟩ := looked
    · cases hget
      rfl
    · cases hget

/-- The rest of a task on disk, from what the local file gave on. -/
theorem DiskCacheReader.runTask_found {info : RemoteFileCachePathInfo} {reader reader' : DiskCacheReader}
    {dest : LocalCacheDestination} {found : Option PageAlignedDataChunk} {wrote : Nat × Bytes}
    (hdest : cacheDest w path info env c = .ok dest)
    (h : (match found with
      | some content => do
        let copied ← c.copyBufferToRequestedMemory content
        let (recorded, reader) := reader.recordAccess config env dest.destLocalFilepath
        recorded
        let reader ← reader.memPut env (c.blockKey path) content versionTag
        return (copied, reader)
      | none => do
        let content ← w.fetch path c
        let copied ← c.copyBufferToRequestedMemory content
        return (copied, reader.storeFetched config env dest.destLocalFilepath
          (c.blockKey path) content versionTag)) =
      Except.ok (wrote, reader')) :
    runTask (taskStep w path versionTag config info env c) 4 (.lookedUp (.ofFile found)) reader =
      .ok (wrote, reader') := by
  have hreport : ∀ found r, taskStep w path versionTag config info env c (.lookedUp found) r =
      .ok (.recorded found, r) :=
    fun _ _ => by rw [taskStep]
  rw [runTask_step rfl (hreport _ _)]
  cases found with
  | some content =>
    obtain ⟨copied, hcopy, h⟩ := except_bind_eq_ok.mp h
    dsimp only at h
    obtain ⟨_, hrecorded, h⟩ := except_bind_eq_ok.mp h
    obtain ⟨reader₂, hput, h⟩ := except_bind_eq_ok.mp h
    cases h
    have hcopied : taskStep w path versionTag config info env c (.recorded (.ofFile (some content))) reader =
        .ok (.done wrote, reader') := by
      rw [Found.ofFile, taskStep, hdest, ok_bind, hcopy, ok_bind]
      dsimp only
      rw [hrecorded, ok_bind, hput]
      rfl
    rw [runTask_step rfl hcopied, runTask_done]
  | none =>
    obtain ⟨content, hfetch, h⟩ := except_bind_eq_ok.mp h
    obtain ⟨copied, hcopy, h⟩ := except_bind_eq_ok.mp h
    cases h
    have hfetched : taskStep w path versionTag config info env c (.recorded (.ofFile none)) reader =
        .ok (.fetched content, reader) := by
      rw [Found.ofFile, taskStep, hfetch]
      rfl
    have hstored : taskStep w path versionTag config info env c (.fetched content) reader =
        .ok (.done wrote, reader.storeFetched config env dest.destLocalFilepath
          (c.blockKey path) content versionTag) := by
      rw [taskStep, hdest, ok_bind, hcopy]
      rfl
    rw [runTask_step rfl hfetched, runTask_step rfl hstored, runTask_done]

theorem runTask_onDisk {info : RemoteFileCachePathInfo} {reader reader' : DiskCacheReader} {wrote : Nat × Bytes}
    (h : reader.processCacheReadChunk w config path versionTag info env c = .ok (wrote, reader')) :
    runTask (DiskCacheReader.taskStep w path versionTag config info env c) 6 .start reader =
      .ok (wrote, reader') := by
  unfold DiskCacheReader.processCacheReadChunk at h
  obtain ⟨dest, hdest, h⟩ := except_bind_eq_ok.mp h
  dsimp only at h
  generalize hget : { reader with files := reader.files.remove env.removed }.memGet env.getNow (c.blockKey path)
    versionTag = got at h
  obtain ⟨_ | ⟨pinned, storage⟩, reader₁⟩ := got
  · have hstart := DiskCacheReader.taskStep_miss config hdest hget
    dsimp only at h
    rw [runTask_step rfl hstart]
    split at h
    next hcan =>
      obtain ⟨⟨found, files⟩, hread, h⟩ := except_bind_eq_ok.mp h
      have hlocal : DiskCacheReader.taskStep w path versionTag config info env c .localFile reader₁ =
          .ok (.lookedUp (.ofFile found), { reader₁ with files }) := by
        rw [DiskCacheReader.taskStep, DiskCacheReader.cacheDest, hdest, ok_bind]
        dsimp only
        rw [if_pos hcan, hread]
        rfl
      rw [runTask_step rfl hlocal]
      exact DiskCacheReader.runTask_found hdest h
    next hcannot =>
      have hlocal : DiskCacheReader.taskStep w path versionTag config info env c .localFile reader₁ =
          .ok (.lookedUp .nothing, reader₁) := by
        rw [DiskCacheReader.taskStep, DiskCacheReader.cacheDest, hdest, ok_bind]
        dsimp only
        rw [if_neg hcannot]
        rfl
      rw [runTask_step rfl hlocal]
      exact @DiskCacheReader.runTask_found w config path versionTag env c info reader₁ reader' dest none wrote hdest h
  · obtain ⟨hreader, hstart⟩ := DiskCacheReader.taskStep_hit config hdest hget
    dsimp only at h
    obtain ⟨copied, hcopy, h⟩ := except_bind_eq_ok.mp h
    cases h
    have hreport : DiskCacheReader.taskStep w path versionTag config info env c (.lookedUp (.block pinned))
        { reader' with inMemStorage := some storage } =
          .ok (.recorded (.block pinned), { reader' with inMemStorage := some storage }) := by
      rw [DiskCacheReader.taskStep]
    have hcopied : DiskCacheReader.taskStep w path versionTag config info env c (.recorded (.block pinned))
        { reader' with inMemStorage := some storage } = .ok (.done wrote, reader') := by
      rw [DiskCacheReader.taskStep]
      dsimp only
      rw [hcopy, ok_bind, hreader]
      rfl
    rw [runTask_step rfl hstart, runTask_step rfl hreport, runTask_step rfl hcopied, runTask_done]

end Undisturbed

end ReadCacheFs
