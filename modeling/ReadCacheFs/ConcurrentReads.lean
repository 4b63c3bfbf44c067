/-
Reads of several connections at once are transparent, too.

A read plans or cuts its chunks and leaves a task for each, and the steps of
all tasks come in any order, with opens, removals, settings, clears and
evictions in between. What the tasks of a read have got stays what the file
has (`ActiveRead.Good`), so no step fails (`Transparent.step`), and once all
its tasks are done the read has what its caller asked for.
-/
import ReadCacheFs.ByteStatistics
import ReadCacheFs.ReadPins
import ReadCacheFs.ReopenedReads

namespace ReadCacheFs

open Lib

variable {w : World} {path : String} {c : CacheReadChunk} {pc : TaskPc}

/-! ## Plans -/

/-- The chunk lies in its file and has its place in the buffer. -/
structure CacheReadChunk.CutFrom (c : CacheReadChunk) (start fileSize : Nat) : Prop where
  addr : c.requestedStartAddr = c.requestedStartOffset - start
  fits : c.Fits fileSize

def PlanPc.CutFrom (request : ColumnChunkPlanRequest) : PlanPc → Prop
  | .start => True
  | .find _ chunks | .nextStart _ chunks => ∀ c ∈ chunks, c.CutFrom request.requestedStartOffset request.fileSize
  | .done res => ∀ chunks, res = .ok chunks → ∀ c ∈ chunks, c.CutFrom request.requestedStartOffset request.fileSize

section Plan

variable {request : ColumnChunkPlanRequest} {chunks : List CacheReadChunk} {pos : Nat}

theorem planEntry_cutFrom (h : ReadRequestOK request) {es sz : Nat} (he : planEntry request pos es sz = some c) :
    c.CutFrom request.requestedStartOffset request.fileSize := by
  have hlt := h.size_lt
  have hpos := h.pos
  have hfits := h.fits
  unfold planEntry at he
  split at he
  · cases he
  next hin =>
    have hsub : u64Sub request.fileSize es = request.fileSize - es := u64Sub_eq (by omega) (by omega)
    have hwrap : u64 (es + min sz (request.fileSize - es)) = es + min sz (request.fileSize - es) :=
      u64_eq (by omega)
    rw [if_pos (by omega : 0 < request.fileSize), hsub] at he
    dsimp only at he
    rw [hwrap] at he
    repeat' split at he
    all_goals cases he
    refine ⟨rfl, ?_, ?_, ?_, ?_⟩ <;> dsimp only <;> omega

theorem schedule_cutFrom (h : ReadRequestOK request)
    (hc : ∀ c ∈ chunks, c.CutFrom request.requestedStartOffset request.fileSize) :
    (PlanPc.done (schedule request chunks)).CutFrom request := by
  intro scheduled hs
  unfold schedule at hs
  split at hs
  · obtain ⟨grid, hgrid, hcuts⟩ := fixedGridChunks_cuts (⟨h.pos, h.fits, h.size_lt⟩ : RequestOK _ _ _)
      (⟨h.block, h.block_le⟩ : BlockSizeOK request.maxGapEntrySize)
    rw [hgrid] at hs
    cases hs
    exact fun c hc => ⟨hcuts.addr c hc, hcuts.fits c hc⟩
  · cases hs
    exact hc

theorem planTop_cutFrom (h : ReadRequestOK request)
    (hc : ∀ c ∈ chunks, c.CutFrom request.requestedStartOffset request.fileSize) :
    (planTop request pos chunks).CutFrom request := by
  unfold planTop
  split
  · exact hc
  · exact schedule_cutFrom h hc

theorem planAdvance_cutFrom (h : ReadRequestOK request) (entry : Nat × Nat)
    (hc : ∀ c ∈ chunks, c.CutFrom request.requestedStartOffset request.fileSize) :
    (planAdvance request pos chunks entry).CutFrom request := by
  unfold planAdvance
  split
  · exact schedule_cutFrom h hc
  next c he =>
    refine planTop_cutFrom h fun d hd => ?_
    rcases List.mem_append.mp hd with hd | hd
    · exact hc d hd
    · rw [List.mem_singleton.mp hd]
      exact planEntry_cutFrom h he

theorem planRead_cutFrom (h : ReadRequestOK request) {l : Layouts} {pc pc' : PlanPc} (hpc : pc.CutFrom request)
    (hr : planRead path request l pc = some pc') : pc'.CutFrom request := by
  cases pc with
  | start =>
    cases hr
    split
    · exact planTop_cutFrom h (by simp)
    · exact schedule_cutFrom h (by simp)
  | find pos chunks =>
    cases hr
    split
    · exact planAdvance_cutFrom h _ hpc
    · exact hpc
  | nextStart pos chunks =>
    cases hr
    exact planAdvance_cutFrom h _ hpc
  | done res => cases hr

theorem planRead_total {pc : PlanPc} (hpc : ∀ res, pc ≠ .done res) (l : Layouts) :
    ∃ pc', planRead path request l pc = some pc' := by
  cases pc with
  | start | find | nextStart => exact ⟨_, rfl⟩
  | done res => exact absurd rfl (hpc res)

end Plan

/-! ## Reads -/

def ReaderUse.isOnDisk : ReaderUse → Bool
  | .inMem => false
  | .onDisk _ => true

def ReaderUse.Ready (w : World) (fs : CacheFileSystem) (path : String) : ReaderUse → Prop
  | .inMem => fs.inMemStorage.isSome = true
  | .onDisk info => ∃ dirs, buildRemoteFileCachePathInfo w.platform dirs path = .ok info

namespace ActiveRead

def written (tasks : List (CacheReadChunk × TaskPc)) : List (Nat × Bytes) := tasks.filterMap (·.2.wrote?)

/-- In whatever order the tasks wrote, the buffer has what was asked for. -/
def Returns (w : World) (r : ActiveRead) : Prop :=
  ∀ buffer : Bytes, r.requestedBytesToRead ≤ buffer.length → ∀ order, order.Perm r.tasks →
    writes buffer (written order) = writeAt buffer 0 (slice (w.remote r.path) r.requestedStartOffset r.requestedBytesToRead)

structure PlanGood (w : World) (r : ActiveRead) (request : ColumnChunkPlanRequest) (pc : PlanPc) : Prop where
  ok : ReadRequestOK request
  start : request.requestedStartOffset = r.requestedStartOffset
  bytes : request.requestedBytesToRead = r.requestedBytesToRead
  fileSize : request.fileSize = (w.remote r.path).length
  running : ∀ res, pc ≠ .done res
  sound : pc.Sound request
  cut : pc.CutFrom request

/-- The tasks tile the read, and what they have got is what the file has. -/
structure TasksGood (w : World) (fs : CacheFileSystem) (r : ActiveRead)
    (tasks : List (CacheReadChunk × TaskPc)) : Prop where
  cuts : CutsRequest (tasks.map (·.1)) r.requestedStartOffset r.requestedBytesToRead (w.remote r.path).length
  good : ∀ t ∈ tasks, t.2.Good w.remote r.path t.1 (r.reader.storage fs)
  atFile : ∀ t ∈ tasks, t.2.atFile = true → r.reader.isOnDisk = true

structure Good (w : World) (fs : CacheFileSystem) (r : ActiveRead) : Prop where
  inFile : r.requestedStartOffset + r.requestedBytesToRead ≤ (w.remote r.path).length
  reader : r.reader.Ready w fs r.path
  phase : match r.phase with
    | .planning request pc => r.PlanGood w request pc
    | .running tasks => r.TasksGood w fs tasks

variable {fs fs' : CacheFileSystem} {r : ActiveRead} {j : Nat} {pc' : TaskPc}

theorem Good.keep (h : r.Good w fs)
    (hkeep : KeepsPins (fun p => ∃ t ∈ r.tasks, p ∈ t.2.pin) (r.reader.storage fs) (r.reader.storage fs')) :
    r.Good w fs' := by
  obtain ⟨handle, path, versionTag, reader, start, n, phase⟩ := r
  refine ⟨h.inFile, ?_, ?_⟩
  · cases reader with
    | inMem => exact hkeep.built h.reader
    | onDisk info => exact h.reader
  · cases phase with
    | planning request pc => exact { (h.phase : PlanGood w _ request pc) with }
    | running tasks =>
      have htasks : TasksGood w fs _ tasks := h.phase
      exact { htasks with good := fun t ht => (htasks.good t ht).keep (hkeep.imp fun p hp => ⟨t, ht, hp⟩) }

theorem Good.keepAll (h : r.Good w fs) (hkeep : fs.KeepsAllPins fs') : r.Good w fs' :=
  h.keep ((hkeep r.reader).imp fun _ _ => trivial)

theorem Good.returns (h : r.Good w fs) (hdone : r.isDone = true) : r.Returns w := by
  obtain ⟨handle, path, versionTag, reader, start, n, phase⟩ := r
  cases phase with
  | planning request pc => cases hdone
  | running tasks =>
    have htasks : TasksGood w fs _ tasks := h.phase
    intro buffer hbuf order horder
    have horder : order.Perm tasks := horder
    have hall : ∀ t ∈ order, t.2.wrote? =
        some (t.1.requestedStartOffset - start,
          slice (w.remote path) t.1.requestedStartOffset t.1.bytesToCopy) := by
      intro t ht
      have hmem := horder.mem_iff.mp ht
      have hgood := htasks.good t hmem
      have hend : t.2.isDone = true := List.all_eq_true.mp hdone t hmem
      have haddr := htasks.cuts.addr t.1 (List.mem_map_of_mem hmem)
      obtain ⟨c, pc⟩ := t
      cases pc with
      | done wrote =>
        have hwrote : wrote = _ := hgood
        rw [TaskPc.wrote?, hwrote]
        exact congrArg some (Prod.ext haddr rfl)
      | start | localFile | lookedUp | recorded | fetched => cases hend
    have hwritten : written order = ((order.map (·.1)).map CacheReadChunk.copyRange).map fun range =>
        (range.1 - start, slice (w.remote path) range.1 range.2) := by
      rw [written, List.filterMap_congr hall, List.filterMap_eq_map', List.map_map, List.map_map]
      rfl
    rw [hwritten]
    exact writes_tiles htasks.cuts.tiles ((horder.map _).map _) h.inFile hbuf

theorem Good.scheduled {handle start n : Nat} {path versionTag : String} {reader : ReaderUse}
    {chunks : List CacheReadChunk} (hin : start + n ≤ (w.remote path).length)
    (hready : reader.Ready w fs path) (hcuts : CutsRequest chunks start n (w.remote path).length) :
    Good w fs ⟨handle, path, versionTag, reader, start, n, .scheduled chunks⟩ := by
  refine ⟨hin, hready, ⟨?_, ?_, ?_⟩⟩
  · rw [ReadPhase.scheduled_chunks]
    exact hcuts
  · intro t ht
    obtain ⟨c, _, rfl⟩ := List.mem_map.mp ht
    trivial
  · intro t ht hfile
    obtain ⟨c, _, rfl⟩ := List.mem_map.mp ht
    cases hfile

theorem Good.task (h : r.Good w fs) (hsized : w.remote.Sized) (hp : w.platform.OK) (hfs : fs.MirrorsRemote w)
    (hj : r.tasks[j]? = some (c, pc)) (hdone : pc.isDone = false) (env : TaskEnv) :
    ∃ pc' fs', r.taskStep w env c pc fs = .ok (pc', fs') ∧ fs'.MirrorsRemote w ∧ fs.KeepsAllPins fs' ∧
      (r.setTask j (c, pc')).Good w fs' := by
  have hmem := List.mem_of_getElem? hj
  obtain ⟨handle, path, versionTag, reader, start, n, phase⟩ := r
  cases phase with
  | planning request pc => cases hj
  | running tasks =>
    have hj : tasks[j]? = some (c, pc) := hj
    have htasks : TasksGood w fs _ tasks := h.phase
    have hfit := htasks.cuts.fits c (List.mem_map_of_mem hmem)
    have hgood := htasks.good _ hmem
    have hfile := htasks.atFile _ hmem
    -- The read with the task in its new place.
    have hset : ∀ {pc' : TaskPc} {fs' : CacheFileSystem}, fs.KeepsAllPins fs' →
        pc'.Good w.remote path c (reader.storage fs') → (pc'.atFile = true → reader.isOnDisk = true) →
        Good w fs' (setTask ⟨handle, path, versionTag, reader, start, n, .running tasks⟩ j (c, pc')) := by
      intro pc' fs' hkeep hgood' hfile'
      have hkept := h.keepAll hkeep
      have hktasks : TasksGood w fs' _ tasks := hkept.phase
      have hchunk : (tasks.map (·.1))[j]? = some c := by
        rw [List.getElem?_map, hj]
        rfl
      refine ⟨h.inFile, hkept.reader, ⟨?_, fun t ht => ?_, fun t ht => ?_⟩⟩
      · change CutsRequest ((tasks.set j (c, pc')).map (·.1)) start n (w.remote path).length
        rw [List.map_set, set_eq_self hchunk]
        exact htasks.cuts
      · rcases List.mem_or_eq_of_mem_set ht with ht | rfl
        · exact hktasks.good t ht
        · exact hgood'
      · rcases List.mem_or_eq_of_mem_set ht with ht | rfl
        · exact hktasks.atFile t ht
        · exact hfile'
    cases reader with
    | inMem =>
      obtain ⟨storage, hstorage⟩ := Option.isSome_iff_exists.mp h.reader
      have hatFile : pc.atFile = false := by
        cases hat : pc.atFile with
        | false => rfl
        | true => cases hfile hat
      dsimp only [ReaderUse.storage] at hgood
      rw [hstorage] at hgood
      obtain ⟨pc', storage', hstep, hs', hgood', hat', hkeep⟩ := InMemoryCacheReader.taskStep_good hsized
        (hfs.storage storage hstorage) hfit versionTag env hgood hdone hatFile
      have hall : fs.KeepsAllPins { fs with inMemStorage := some storage' } :=
        .of (by rw [hstorage]; exact hkeep) (.refl _ _)
      refine ⟨pc', { fs with inMemStorage := some storage' }, ?_, { hfs with storage := .some hs' }, hall,
        hset hall hgood' fun hat => absurd hat (by simp [hat'])⟩
      rw [ActiveRead.taskStep]
      dsimp only
      rw [hstorage]
      dsimp only
      rw [hstep]
      rfl
    | onDisk info =>
      obtain ⟨dirs, hi⟩ := h.reader
      obtain ⟨pc', reader', hstep, hr', hgood', hkeep⟩ :=
        DiskCacheReader.taskStep_good hsized hp hfs.config.distinct hfs.disk hi hfit versionTag env hgood hdone
      have hall : fs.KeepsAllPins { fs with diskReader := reader' } := .of (.refl _ _) hkeep
      refine ⟨pc', { fs with diskReader := reader' }, ?_, { hfs with disk := hr' }, hall,
        hset hall hgood' fun _ => rfl⟩
      rw [ActiveRead.taskStep]
      dsimp only
      rw [hstep]
      rfl

end ActiveRead

/-! ## Steps -/

/-- A read that begins is good, and begins without a fault. -/
theorem CacheFileSystem.MirrorsRemote.beginRead {fs : CacheFileSystem} (h : fs.MirrorsRemote w)
    (hlayer : fs.diskReader.LayerOK) (hsized : w.remote.Sized) (env : ReadEnv) (handle : Nat) {location n : Nat}
    (hin : location + n ≤ (w.remote path).length) :
    ∃ read fs', fs.beginRead w env handle path location n (w.remote path).length = .ok (read, fs') ∧
      fs'.MirrorsRemote w ∧
      fs.KeepsAllPins fs' ∧ ∀ r, read = some r →
        r.Good w fs' ∧ r.path = path ∧ r.requestedStartOffset = location ∧ r.requestedBytesToRead = n := by
  unfold CacheFileSystem.beginRead
  dsimp only
  split
  · refine ⟨none, fs, ?_, h, .of_eq rfl rfl, fun r hr => by cases hr⟩
    rw [Remote.read, if_pos hin]
    rfl
  next hinMem =>
    split
    · exact ⟨none, fs, rfl, h, .of_eq rfl rfl, fun r hr => by cases hr⟩
    next hn =>
      have hreq : RequestOK location n (w.remote path).length := ⟨Nat.pos_of_ne_zero hn, hin, hsized path⟩
      obtain ⟨storage, hinit, hs⟩ := InMemoryCacheReader.initStorage_spec (w := w) h.config hinMem h.storage
      have hkeep : fs.KeepsAllPins { fs with inMemStorage := some storage } := by
        refine .of ?_ (.refl _ _)
        cases hmem : fs.inMemStorage with
        | none => exact .of_none _ _
        | some s =>
          rw [hmem] at hinit
          cases hinit
          exact .refl _ _
      have hfs : MirrorsRemote w { fs with inMemStorage := some storage } := { h with storage := .some hs }
      rw [hinit, ok_bind, CacheFileSystem.beginPhase]
      split
      · refine ⟨_, _, rfl, hfs, hkeep, fun r hr => ?_⟩
        cases hr
        exact ⟨⟨hin, rfl, ⟨⟨hreq.pos, hreq.fits, hreq.sized, h.blockSize.pos, h.blockSize.le⟩, rfl, rfl, rfl,
          fun res he => (by cases he), trivial, trivial⟩⟩, rfl, rfl, rfl⟩
      · obtain ⟨grid, hgrid, hcuts⟩ := fixedGridChunks_cuts hreq h.blockSize
        rw [hgrid]
        refine ⟨_, _, rfl, hfs, hkeep, fun r hr => ?_⟩
        cases hr
        exact ⟨.scheduled hin rfl hcuts, rfl, rfl, rfl⟩
  next honDisk =>
    split
    · exact ⟨none, fs, rfl, h, .of_eq rfl rfl, fun r hr => by cases hr⟩
    next hn =>
      have hreq : RequestOK location n (w.remote path).length := ⟨Nat.pos_of_ne_zero hn, hin, hsized path⟩
      obtain ⟨d, hd⟩ :=
        localCacheDestination_total (p := w.platform) (h.config.directories honDisk)
          (h.config.noSlash honDisk) "" path 0 0
      obtain ⟨info, hi, _⟩ := localCacheDestination_ok hd
      obtain ⟨grid, hgrid, hcuts⟩ := fixedGridChunks_cuts hreq h.blockSize
      rw [hi, ok_bind, hgrid, ok_bind]
      refine ⟨_, _, rfl, { h with disk := h.disk.init _ }, .of (.refl _ _) ?_, fun r hr => ?_⟩
      · dsimp only [DiskCacheReader.init]
        split
        · exact .refl _ _
        next hnot =>
          rw [hlayer.unbuilt (Bool.eq_false_iff.mpr hnot)]
          exact .of_none _ _
      · cases hr
        exact ⟨.scheduled hin ⟨_, hi⟩ hcuts, rfl, rfl, rfl⟩

structure ActiveRead.Asks (w : World) (fs : CacheFileSystem) (handle nrBytes location : Nat)
    (r : ActiveRead) : Prop where
  path : fs.handles[handle]?.map (·.path) = some r.path
  start : r.requestedStartOffset = location
  bytes : r.requestedBytesToRead = min nrBytes ((w.remote r.path).length - location)

namespace ProfileState

/-- A step keeps all pins, and the reads after it are those before it or good. -/
structure GoodStep (w : World) (s s' : ProfileState) : Prop where
  fs : s'.fs.MirrorsRemote w
  pins : s.fs.KeepsAllPins s'.fs
  reads : ∀ k, ∀ r ∈ (s'.connections k).active, r ∈ (s.connections k).active ∨ r.Good w s'.fs

variable {s : ProfileState} {k i j : Nat} {r : ActiveRead}

theorem startRead_good (h : s.fs.MirrorsRemote w) (hlayer : s.fs.diskReader.LayerOK)
    (hsized : w.remote.Sized) (k : Nat) {handle : Nat} (hhandle : handle < s.fs.handles.length)
    (nrBytes location : Nat) (env : ReadEnv) :
    ∃ s', s.startRead w k handle nrBytes location env = some s' ∧ s.GoodStep w s' ∧
      ∀ k', ∀ r ∈ (s'.connections k').active, r ∈ (s.connections k').active ∨
        r.Asks w s.fs handle nrBytes location := by
  obtain ⟨⟨path, position⟩, hget⟩ : ∃ hd, s.fs.handles[handle]? = some hd := ⟨_, List.getElem?_eq_getElem hhandle⟩
  obtain ⟨metadataCache, hstat, hcache⟩ := CacheFileSystem.getFileSize_spec h.metadata env path
  have hfs : CacheFileSystem.MirrorsRemote w { s.fs with metadataCache } := { h with metadata := hcache }
  have hold : ∀ k' r', r' ∈ (({ s with fs := { s.fs with metadataCache } }.onConnection k
      (Connection.recordStat (s.fs.statAccess env path))).connections k').active →
        r' ∈ (s.connections k').active := by
    intro k' r' hr'
    rcases active_onConnection hr' with ⟨rfl, hr'⟩ | hr'
    · rwa [active_recordStat] at hr'
    · exact hr'
  rw [ProfileState.startRead, hget, Option.bind_some, startReadOf]
  dsimp only
  rw [hstat]
  dsimp only
  split
  · exact ⟨_, rfl, ⟨hfs, .of_eq rfl rfl, fun k' r' hr' => .inl (hold k' r' hr')⟩,
      fun k' r' hr' => .inl (hold k' r' hr')⟩
  next hloc =>
    have hin : location + min nrBytes ((w.remote path).length - location) ≤ (w.remote path).length := by omega
    split
    · rw [Remote.read, if_pos hin]
      exact ⟨_, rfl, ⟨hfs, .of_eq rfl rfl, fun k' r' hr' => .inl (hold k' r' hr')⟩,
        fun k' r' hr' => .inl (hold k' r' hr')⟩
    · obtain ⟨read, fs', hbegin, hfs', hkeep, hread⟩ := hfs.beginRead hlayer hsized env handle hin
      rw [hbegin]
      have hpins : s.fs.KeepsAllPins fs' := fun reader => by
        have := hkeep reader
        cases reader <;> exact this
      cases read with
      | none =>
        exact ⟨_, rfl, ⟨hfs', hpins, fun k' r' hr' => .inl (hold k' r' hr')⟩,
          fun k' r' hr' => .inl (hold k' r' hr')⟩
      | some r =>
        obtain ⟨hgood, hpath, hstart, hbytes⟩ := hread r rfl
        have hnew : ∀ k' r', r' ∈ ((({ s with fs := { s.fs with metadataCache } }.onConnection k
            (Connection.recordStat (s.fs.statAccess env path))).onConnection k
              (Connection.start r)).connections k').active →
            r' ∈ (s.connections k').active ∨ r' = r := by
          intro k' r' hr'
          rcases active_onConnection hr' with ⟨rfl, hr'⟩ | hr'
          · rcases List.mem_append.mp hr' with hr' | hr'
            · exact .inl (hold k' r' hr')
            · exact .inr (List.mem_singleton.mp hr')
          · exact .inl (hold k' r' hr')
        refine ⟨_, rfl, ⟨hfs', hpins, fun k' r' hr' => ?_⟩, fun k' r' hr' => ?_⟩
        · rcases hnew k' r' hr' with hr' | rfl
          · exact .inl hr'
          · exact .inr hgood
        · rcases hnew k' r' hr' with hr' | rfl
          · exact .inl hr'
          · exact .inr ⟨by rw [hget, hpath]; rfl, hstart, by rw [hbytes, hpath]⟩

theorem plan_good (h : s.fs.MirrorsRemote w) (hr : s.readAt k i = some r) (hgood : r.Good w s.fs)
    (hplan : r.plan.isSome = true) (hpeace : PlansInPeace s (.plan k i)) :
    ∃ s', s.plan k i = some s' ∧ s.GoodStep w s' := by
  obtain ⟨handle, path, versionTag, reader, start, n, phase⟩ := r
  have hmem := List.mem_of_getElem? hr
  cases phase with
  | running tasks => cases hplan
  | planning request pc =>
    have hp : ActiveRead.PlanGood w _ request pc := hgood.phase
    obtain ⟨pc', hread⟩ : ∃ pc', planRead path request s.fs.layouts pc = some pc' :=
      planRead_total hp.running s.fs.layouts
    have hsound := planRead_sound hp.ok h.layouts hp.sound (hpeace _ hr pc rfl).noExtentAppears hread
    have hcut := planRead_cutFrom hp.ok hp.cut hread
    -- The read in its new phase.
    have hset : ∀ r' : ActiveRead, r'.Good w s.fs →
        s.GoodStep w (s.onConnection k (Connection.setRead i r')) := by
      intro r' hr'
      refine ⟨h, .of_eq rfl rfl, fun k' q hq => ?_⟩
      rcases active_onConnection hq with ⟨rfl, hq⟩ | hq
      · rcases List.mem_or_eq_of_mem_set hq with hq | rfl
        · exact .inl hq
        · exact .inr hr'
      · exact .inl hq
    rw [ProfileState.plan, hr, Option.bind_some]
    dsimp only
    rw [hread, Option.bind_some]
    cases pc' with
    | done res =>
      obtain ⟨chunks, rfl, htiles⟩ := hsound
      refine ⟨_, rfl, hset _ (.scheduled hgood.inFile hgood.reader ⟨?_, ?_, ?_⟩)⟩
      · rw [hp.ok.plan.reqEnd_eq, hp.start, hp.bytes] at htiles
        exact htiles
      · intro c hc
        rw [(hcut chunks rfl c hc).addr, hp.start]
      · intro c hc
        have hfits := (hcut chunks rfl c hc).fits
        rw [hp.fileSize] at hfits
        exact hfits
    | start | find | nextStart =>
      exact ⟨_, rfl, hset _ ⟨hgood.inFile, hgood.reader, hp.ok, hp.start, hp.bytes, hp.fileSize,
        fun res he => (by cases he),
        hsound, hcut⟩⟩

theorem task_good (h : s.fs.MirrorsRemote w) (hsized : w.remote.Sized) (hp : w.platform.OK)
    (hr : s.readAt k i = some r) (hgood : r.Good w s.fs) {c : CacheReadChunk} {pc : TaskPc}
    (hj : r.tasks[j]? = some (c, pc)) (hdone : pc.isDone = false) (env : TaskEnv) :
    ∃ s', s.task w k i j env = some s' ∧ s.GoodStep w s' := by
  obtain ⟨pc', fs', hstep, hfs, hkeep, hgood'⟩ := hgood.task hsized hp h hj hdone env
  rw [ProfileState.task, hr, Option.bind_some, hj, Option.bind_some]
  dsimp only
  rw [hstep]
  refine ⟨_, rfl, hfs, hkeep, fun k' q hq => ?_⟩
  rcases active_onConnection hq with ⟨rfl, hq⟩ | hq
  · rcases List.mem_or_eq_of_mem_set hq with hq | rfl
    · rw [active_recordFound] at hq
      exact .inl hq
    · exact .inr hgood'
  · exact .inl hq

end ProfileState

/-! ## Runs -/

namespace OpenAct

def OK : OpenAct → Prop
  | .other act => act.OK
  | _ => True

/-- There is such a read or handle, and it is at that point. -/
def enabled (s : OpenState) : OpenAct → Bool
  | .other (.startRead _ handle _ _ _) => handle < s.fs.handles.length
  | .other (.plan k i) => (s.reads.readAt k i).any (·.plan.isSome)
  | .other (.task k i j _) => (s.reads.readAt k i).any fun r => r.tasks[j]?.any fun t => !t.2.isDone
  | .other (.finishRead k i) => (s.reads.readAt k i).any (·.isDone)
  | .other (.reset k) => (s.active k).isEmpty
  | .other (.session act) => !(ProfileAct.session act).opensOrReads
  | .openFile .. | .setClearCacheOnWrite _ | .removeFiles .. => true

/-- No registration comes between two questions of a plan (`PlanRace`). -/
def InPeace (s : OpenState) : OpenAct → Prop
  | .other act => PlansInPeace s.reads act
  | _ => True

instance InPeace.decidable (s : OpenState) : ∀ a : OpenAct, Decidable (a.InPeace s)
  | .other act => inferInstanceAs (Decidable (PlansInPeace s.reads act))
  | .openFile .. | .setClearCacheOnWrite _ | .removeFiles .. => .isTrue trivial

/-- A change of the block size drains no block a task has pinned (`PinnedBlocks`). -/
def SparesPins (s : OpenState) : OpenAct → Prop
  | .other (.session (.setCacheBlockSize ..)) => ∀ k, ∀ r ∈ s.active k, ∀ t ∈ r.tasks, ∀ p ∈ t.2.pin,
    ∀ storage, r.reader.storage s.fs = some storage → p ∉ storage.drains
  | _ => True

structure Calm (s : OpenState) (a : OpenAct) : Prop where
  enabled : a.enabled s = true
  inPeace : a.InPeace s
  pins : a.SparesPins s

end OpenAct

namespace OpenState

variable {s s' : OpenState} {a : OpenAct}

/-- The caches hold what the remote files have, and so do the reads in flight. -/
structure Transparent (w : World) (s : OpenState) : Prop where
  sound : s.Sound w
  fs : s.fs.MirrorsRemote w
  reads : ∀ k, ∀ r ∈ s.active k, r.Good w s.fs

theorem Transparent.keep (h : s.Transparent w) (hp : w.platform.OK) (hs : openStep w s a = some s')
    (hfs : s'.fs.MirrorsRemote w) (hpins : s.fs.KeepsAllPins s'.fs)
    (hreads : ∀ k, ∀ r ∈ s'.active k, r ∈ s.active k ∨ r.Good w s'.fs) : s'.Transparent w := by
  refine ⟨h.sound.step hp hs, hfs, fun k r hr => ?_⟩
  rcases hreads k r hr with hr | hr
  · exact (h.reads k r hr).keepAll hpins
  · exact hr

theorem Transparent.goodStep (h : s.Transparent w) (hp : w.platform.OK) {act : ProfileAct}
    {reads : ProfileState} (hact : act.opensOrReads = false)
    (hstep : profileStep w s.reads act = some reads) (hgood : s.reads.GoodStep w reads) :
    ∃ s', openStep w s (.other act) = some s' ∧ s'.Transparent w := by
  have hs : openStep w s (.other act) = some { s with reads } := by
    rw [openStep, hact, hstep]
    rfl
  exact ⟨_, hs, h.keep hp hs hgood.fs hgood.pins hgood.reads⟩

/-- A session may do anything else, and a change of the block size may come where it drains no pin. -/
theorem Transparent.session (h : s.Transparent w) (hsized : w.remote.Sized) (hp : w.platform.OK)
    {act : FsAct} (ha : act.OK) (hact : (ProfileAct.session act).opensOrReads = false)
    (hspares : (OpenAct.other (.session act)).SparesPins s) :
    ∃ s', openStep w s (.other (.session act)) = some s' ∧ s'.Transparent w := by
  obtain ⟨fs', hstep, hfs'⟩ := fsStep_spec hsized hp ha h.fs
  have hs : openStep w s (.other (.session act)) = some { s with reads := { s.reads with fs := fs' } } := by
    rw [openStep, hact, profileStep, hstep]
    rfl
  refine ⟨_, hs, h.sound.step hp hs, hfs', fun k r hr => (h.reads k r hr).keep ?_⟩
  by_cases hsize : ∃ newBlockSize inMemEnv diskEnv, act = .setCacheBlockSize newBlockSize inMemEnv diskEnv
  · obtain ⟨newBlockSize, inMemEnv, diskEnv, rfl⟩ := hsize
    refine (h.fs.setCacheBlockSize_keepsPins hstep r.reader).imp fun p hheld storage hstorage => ?_
    obtain ⟨t, ht, hpin⟩ := hheld
    exact hspares k r hr t ht p hpin storage hstorage
  · have hkeep := CacheFileSystem.fsStep_keepsPins hact (fun n e e' he => hsize ⟨n, e, e', he⟩) hstep
    exact (hkeep r.reader).imp fun _ _ => trivial

/-- **A step in any state.** It does not fail, and leaves the caches and the reads in flight good. -/
theorem Transparent.step (h : s.Transparent w) (hsized : w.remote.Sized) (hp : w.platform.OK) (ha : a.OK)
    (hcalm : a.Calm s) : ∃ s', openStep w s a = some s' ∧ s'.Transparent w := by
  have henabled := hcalm.enabled
  cases a with
  | openFile flags path hash =>
    obtain ⟨fs', hopen, hfs'⟩ := h.fs.openFileExtended s.clearCacheOnWrite flags path hash
    have hs : openStep w s (.openFile flags path hash) = some (s.withFs fs') := by
      rw [openStep, hopen]
      rfl
    exact ⟨_, hs, h.keep hp hs hfs' (CacheFileSystem.openFileExtended_keepsPins hopen) fun k r hr => .inl hr⟩
  | setClearCacheOnWrite value =>
    exact ⟨_, rfl, h.keep (a := .setClearCacheOnWrite value) hp rfl h.fs (.of_eq rfl rfl) fun k r hr => .inl hr⟩
  | removeFiles filenames hash =>
    obtain ⟨fs', hclear, hfs'⟩ := h.fs.clearCacheFiles hash filenames
    have hs : openStep w s (.removeFiles filenames hash) = some (s.withFs fs') := by
      rw [openStep, hclear]
      rfl
    exact ⟨_, hs, h.keep hp hs hfs' (CacheFileSystem.clearCacheFiles_keepsPins hclear) fun k r hr => .inl hr⟩
  | other act =>
    cases act with
    | startRead k handle nrBytes location env =>
      obtain ⟨reads, hstep, hgood, _⟩ := ProfileState.startRead_good h.fs h.sound.fs.disk hsized k
        (of_decide_eq_true henabled) nrBytes location env
      exact h.goodStep hp rfl hstep hgood
    | plan k i =>
      obtain ⟨r, hr, hplan⟩ := (Option.any_eq_true _ _).mp henabled
      obtain ⟨reads, hstep, hgood⟩ :=
        ProfileState.plan_good h.fs hr (h.reads k r (List.mem_of_getElem? hr)) hplan hcalm.inPeace
      exact h.goodStep hp rfl hstep hgood
    | task k i j env =>
      obtain ⟨r, hr, htask⟩ := (Option.any_eq_true _ _).mp henabled
      obtain ⟨⟨c, pc⟩, hj, hdone⟩ := (Option.any_eq_true _ _).mp htask
      obtain ⟨reads, hstep, hgood⟩ := ProfileState.task_good h.fs hsized hp hr
        (h.reads k r (List.mem_of_getElem? hr)) hj (by simpa using hdone) env
      exact h.goodStep hp rfl hstep hgood
    | finishRead k i =>
      obtain ⟨r, hr, hdone⟩ := (Option.any_eq_true _ _).mp henabled
      have hstep : profileStep w s.reads (.finishRead k i) =
          some (s.reads.onConnection k (Connection.finish i r)) := by
        rw [profileStep, ProfileState.finishRead, hr, Option.bind_some, if_pos hdone]
      refine h.goodStep hp rfl hstep ⟨h.fs, .of_eq rfl rfl, fun k' q hq => .inl ?_⟩
      rcases ProfileState.active_onConnection hq with ⟨rfl, hq⟩ | hq
      · exact List.mem_of_mem_eraseIdx hq
      · exact hq
    | reset k =>
      have hstep : profileStep w s.reads (.reset k) = some (s.reads.onConnection k Connection.reset) := by
        rw [profileStep]
        exact if_pos henabled
      refine h.goodStep hp rfl hstep ⟨h.fs, .of_eq rfl rfl, fun k' q hq => .inl ?_⟩
      rcases ProfileState.active_onConnection hq with ⟨rfl, hq⟩ | hq <;> exact hq
    | session act => exact h.session hsized hp ha (by simpa [OpenAct.enabled] using henabled) hcalm.pins

theorem Transparent.run (hsized : w.remote.Sized) (hp : w.platform.OK) {as : List OpenAct} (has : ∀ a ∈ as, a.OK)
    (h : s.Transparent w) (hcalm : Guarded (openStep w) (fun s a => a.Calm s) s as) :
    ∃ s', exec (openStep w) s as = some s' ∧ s'.Transparent w := by
  induction as generalizing s with
  | nil => exact ⟨s, rfl, h⟩
  | cons a as ih =>
    obtain ⟨t, ht, h'⟩ := h.step hsized hp (has a (by simp)) hcalm.1
    obtain ⟨s', hrun, hs'⟩ := ih (fun b hb => has b (by simp [hb])) h' (hcalm.2 t ht)
    exact ⟨s', exec_cons.mpr ⟨t, ht, hrun⟩, hs'⟩

end OpenState

end ReadCacheFs
