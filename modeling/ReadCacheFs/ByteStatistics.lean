/-
The byte statistics of a connection: what its `TempProfileCollector` says of
the reads that went through the caching readers.

The counters are `uint64_t`, so what they say is what the reads add up to
modulo `2^64`. `Connection.Accounts` is that, with what the reads in flight
have reported so far; each step of a read keeps it.
-/
import ReadCacheFs.ProfiledReads

namespace ReadCacheFs

open Lib

/-! ## What the reads add up to -/

def FinishedRead.cached (r : FinishedRead) : Nat := (r.chunks.map (·.chunkSize)).sum

def reportedBytes (t : CacheReadChunk × TaskPc) : Nat := if t.2.reported then t.1.bytesToCopy else 0

def ActiveRead.reported (r : ActiveRead) : Nat := (r.tasks.map reportedBytes).sum

def ActiveRead.OK (r : ActiveRead) : Prop :=
  match r.phase with
  | .planning request pc => ReadRequestOK request ∧ request.requestedBytesToRead = r.requestedBytesToRead ∧
      pc.Sound request ∧ pc.Inner
  | .running tasks => ChunksOf r.requestedBytesToRead (tasks.map (·.1))

/-! A read by itself. -/

/-- A step of a task reports its chunk if it was about to. -/
theorem reportedBytes_step (chunk : CacheReadChunk) {pc pc' : TaskPc}
    (hpc' : pc'.reported = (pc.reported || pc.toReport.isSome)) :
    reportedBytes (chunk, pc') =
      reportedBytes (chunk, pc) + if pc.toReport.isSome then chunk.bytesToCopy else 0 := by
  unfold reportedBytes
  dsimp only
  rw [hpc']
  cases pc <;> simp [TaskPc.reported, TaskPc.toReport]

namespace ActiveRead

variable {r : ActiveRead} {j : Nat}

theorem reported_scheduled {chunks : List CacheReadChunk} (hr : r.phase = .scheduled chunks) :
    r.reported = 0 := by
  rw [reported, tasks, hr]
  refine List.sum_eq_zero fun n hn => ?_
  obtain ⟨t, ht, rfl⟩ := List.mem_map.mp hn
  obtain ⟨_, _, rfl⟩ := List.mem_map.mp ht
  rfl

theorem OK.setTask (h : r.OK) {chunk : CacheReadChunk} {pc : TaskPc} (hj : r.tasks[j]? = some (chunk, pc))
    (pc' : TaskPc) :
    (r.setTask j (chunk, pc')).OK := by
  obtain ⟨handle, path, versionTag, reader, start, n, phase⟩ := r
  cases phase with
  | planning request plan => cases hj
  | running tasks =>
    have hchunk : (tasks.map (·.1))[j]? = some chunk := by
      rw [List.getElem?_map, show tasks[j]? = some (chunk, pc) from hj]
      rfl
    change ChunksOf n ((tasks.set j (chunk, pc')).map (·.1))
    rw [List.map_set, set_eq_self hchunk]
    exact h

theorem OK.reported (h : r.OK) (hdone : r.isDone = true) :
    r.reported = r.requestedBytesToRead ∧ r.requestedBytesToRead ≤ r.finish.cached := by
  obtain ⟨handle, path, versionTag, reader, start, n, phase⟩ := r
  cases phase with
  | planning request plan => cases hdone
  | running tasks =>
    have hchunks : ChunksOf n (tasks.map (·.1)) := h
    refine ⟨?_, hchunks.le⟩
    change (tasks.map reportedBytes).sum = n
    rw [← hchunks.sum, List.map_map]
    refine congrArg List.sum (List.map_congr_left fun t ht => ?_)
    have htask := List.all_eq_true.mp hdone t ht
    obtain ⟨chunk, pc⟩ := t
    cases pc with
    | done wrote => rfl
    | start | localFile | lookedUp found | recorded found | fetched content => cases htask

end ActiveRead

namespace Connection

def returned (c : Connection) : Nat := (c.finished.map (·.returned)).sum

/-- The bytes of the entries they went through. -/
def cached (c : Connection) : Nat := (c.finished.map FinishedRead.cached).sum

def reported (c : Connection) : Nat := (c.active.map ActiveRead.reported).sum

/-- The counters, modulo `2^64`, are those of the reads since the last
`Reset`. Hits and misses run ahead by what the reads in flight have reported. -/
structure Accounts (c : Connection) : Prop where
  split : ∃ hits misses, c.collector.bytesReadFromHits = u64 hits ∧ c.collector.bytesReadFromMisses = u64 misses ∧
    hits + misses = c.returned + c.reported
  toRead : c.collector.totalBytesToRead = u64 c.returned
  toCache : c.collector.totalBytesToCache = u64 c.cached
  active : ∀ r ∈ c.active, r.OK
  finished : ∀ r ∈ c.finished, r.returned ≤ r.cached

variable {c : Connection} {r r' : ActiveRead} {i j : Nat}

theorem Accounts.new : Accounts {} where
  split := ⟨0, 0, rfl, rfl, rfl⟩
  toRead := rfl
  toCache := rfl
  active _ hr := by cases hr
  finished _ hr := by cases hr

theorem Accounts.recordStat (h : c.Accounts) (access : Option CacheAccess) : (c.recordStat access).Accounts := by
  cases access with
  | none => exact h
  | some access => exact { h with }

theorem Accounts.start (h : c.Accounts) (hr : r.OK) (hnone : r.reported = 0) : (c.start r).Accounts := by
  have hreported : (c.start r).reported = c.reported := by
    rw [reported, Connection.start, List.map_append, List.sum_append]
    simpa [reported] using hnone
  refine { h with split := ?_, active := fun q hq => ?_ }
  · obtain ⟨hits, misses, hh, hm, hsum⟩ := h.split
    exact ⟨hits, misses, hh, hm, by rw [hreported]; exact hsum⟩
  · rcases List.mem_append.mp hq with hq | hq
    · exact h.active q hq
    · rw [List.mem_singleton.mp hq]
      exact hr

theorem active_setRead (hactive : ∀ q ∈ c.active, q.OK) (hr' : r'.OK) : ∀ q ∈ (c.setRead i r').active, q.OK := by
  intro q hq
  rcases List.mem_or_eq_of_mem_set hq with hq | rfl
  · exact hactive q hq
  · exact hr'

theorem reported_setRead (hi : c.active[i]? = some r) (r' : ActiveRead) :
    (c.setRead i r').reported + r.reported = c.reported + r'.reported :=
  sum_map_set_add hi r'

theorem Accounts.setRead (h : c.Accounts) (hi : c.active[i]? = some r) (hr' : r'.OK)
    (hsame : r'.reported = r.reported) :
    (c.setRead i r').Accounts := by
  have hset := reported_setRead hi r'
  refine { h with split := ?_, active := active_setRead h.active hr' }
  obtain ⟨hits, misses, hh, hm, hsum⟩ := h.split
  refine ⟨hits, misses, hh, hm, ?_⟩
  change _ = c.returned + _
  omega

/-- What a step of a task adds to the counters. -/
theorem recordFound_spec (c : Connection) (chunk : CacheReadChunk) (found : Option Found) {hits misses : Nat}
    (hh : c.collector.bytesReadFromHits = u64 hits) (hm : c.collector.bytesReadFromMisses = u64 misses) :
    ∃ collector, c.recordFound chunk found = { c with collector } ∧
      collector.totalBytesToRead = c.collector.totalBytesToRead ∧
      collector.totalBytesToCache = c.collector.totalBytesToCache ∧
      ∃ hits' misses', collector.bytesReadFromHits = u64 hits' ∧ collector.bytesReadFromMisses = u64 misses' ∧
        hits' + misses' = hits + misses + if found.isSome then chunk.bytesToCopy else 0 := by
  cases found with
  | none => exact ⟨_, rfl, rfl, rfl, hits, misses, hh, hm, rfl⟩
  | some found =>
    refine ⟨_, rfl, ?_⟩
    cases found with
    | block pinned | file content =>
      refine ⟨rfl, rfl, hits + chunk.bytesToCopy, misses, ?_, hm, by rw [Option.isSome_some, if_pos rfl]; omega⟩
      rw [← u64_add, ← hh]
      rfl
    | nothing =>
      refine ⟨rfl, rfl, hits, misses + chunk.bytesToCopy, hh, ?_, by rw [Option.isSome_some, if_pos rfl]; omega⟩
      rw [← u64_add, ← hm]
      rfl

theorem Accounts.task (h : c.Accounts) (hi : c.active[i]? = some r) {chunk : CacheReadChunk} {pc pc' : TaskPc}
    (hj : r.tasks[j]? = some (chunk, pc)) (hpc' : pc'.reported = (pc.reported || pc.toReport.isSome)) :
    ((c.recordFound chunk pc.toReport).setRead i (r.setTask j (chunk, pc'))).Accounts := by
  obtain ⟨hits, misses, hh, hm, hsum⟩ := h.split
  obtain ⟨collector, hrec, hread, hcache, hits', misses', hh', hm', hsum'⟩ :=
    recordFound_spec c chunk pc.toReport hh hm
  have hset := reported_setRead hi (r.setTask j (chunk, pc'))
  have htask : (r.setTask j (chunk, pc')).reported + reportedBytes (chunk, pc) =
      r.reported + reportedBytes (chunk, pc') :=
    sum_map_set_add hj _
  have hstep := reportedBytes_step chunk hpc'
  rw [hrec]
  refine ⟨⟨hits', misses', hh', hm', ?_⟩, hread.trans h.toRead, hcache.trans h.toCache,
    active_setRead h.active ((h.active r (List.mem_of_getElem? hi)).setTask hj pc'), h.finished⟩
  change _ = c.returned + (c.setRead i (r.setTask j (chunk, pc'))).reported
  omega

theorem Accounts.finish (h : c.Accounts) (hi : c.active[i]? = some r) (hdone : r.isDone = true) :
    (c.finish i r).Accounts := by
  obtain ⟨hits, misses, hh, hm, hsum⟩ := h.split
  obtain ⟨hreported, hle⟩ := (h.active r (List.mem_of_getElem? hi)).reported hdone
  have herase : (c.finish i r).reported + r.reported = c.reported := sum_map_eraseIdx_add hi
  have hreturned : (c.finish i r).returned = c.returned + r.requestedBytesToRead := by
    rw [returned, Connection.finish, List.map_append, List.sum_append]
    rfl
  have hcached : (c.finish i r).cached = c.cached + r.finish.cached := by
    rw [cached, Connection.finish, List.map_append, List.sum_append]
    rfl
  refine ⟨⟨hits, misses, hh, hm, by omega⟩, ?_, ?_, fun q hq => h.active q (List.mem_of_mem_eraseIdx hq),
    fun q hq => ?_⟩
  · rw [hreturned, ← u64_add, ← h.toRead]
    rfl
  · change u64 (c.collector.totalBytesToCache + totalBytesToCache (r.tasks.map (·.1))) = _
    rw [hcached, h.toCache, u64_add, totalBytesToCache_eq, Nat.add_comm, u64_add, Nat.add_comm]
    rfl
  · rcases List.mem_append.mp hq with hq | hq
    · exact h.finished q hq
    · rw [List.mem_singleton.mp hq]
      exact hle

theorem Accounts.reset (h : c.Accounts) (hidle : c.active = []) : c.reset.Accounts where
  split := ⟨0, 0, rfl, rfl, by simp [returned, reported, Connection.reset, hidle]⟩
  toRead := rfl
  toCache := rfl
  active := h.active
  finished _ hr := by cases hr

end Connection

/-! ## Every run -/

section Machine

variable {w : World} {s s' : ProfileState} {k i j : Nat}

/-- Once a chunk is planned, no extent starts where `NextStart` is asked. -/
def PlanPc.InPeace (path : String) (l : Layouts) : PlanPc → Prop
  | .nextStart pos chunks => chunks ≠ [] → ∀ e ∈ (l.lookup path).getD [], e.offset ≠ pos
  | .start | .find _ _ | .done _ => True

instance PlanPc.InPeace.decidable (path : String) (l : Layouts) : ∀ pc : PlanPc, Decidable (pc.InPeace path l)
  | .nextStart pos chunks => inferInstanceAs (Decidable
    (chunks ≠ [] → ∀ e ∈ (l.lookup path).getD [], e.offset ≠ pos))
  | .start | .find _ _ | .done _ => .isTrue trivial

theorem PlanPc.InPeace.noExtentAppears {path : String} {l : Layouts} {pc : PlanPc} (h : pc.InPeace path l) :
    NoExtentAppears path ⟨l, pc⟩ .read := by
  intro pos chunks _ hpc hne extents hx e he
  dsimp only at hpc hx
  subst hpc
  exact h hne e (by simpa [hx] using he)

def ActiveRead.plan (r : ActiveRead) : Option PlanPc :=
  match r.phase with
  | .planning _ pc => some pc
  | .running _ => none

/-- The layout of a read that plans gains no extent where it is about to ask
for the next one (`PlanRace`). -/
def PlansInPeace (s : ProfileState) : ProfileAct → Prop
  | .plan k i => ∀ r ∈ s.readAt k i, ∀ pc ∈ r.plan, pc.InPeace r.path s.fs.layouts
  | _ => True

instance PlansInPeace.decidable (s : ProfileState) : ∀ a, Decidable (PlansInPeace s a)
  | .plan k i => inferInstanceAs (Decidable (∀ r ∈ s.readAt k i, ∀ pc ∈ r.plan, pc.InPeace r.path s.fs.layouts))
  | .startRead .. | .task .. | .finishRead .. | .reset _ | .session _ => .isTrue trivial

def ProfileAct.OK : ProfileAct → Prop
  | .session act => act.OK
  | _ => True

structure ProfileState.Balanced (w : World) (s : ProfileState) : Prop where
  fs : s.fs.Cuttable w
  connections : ∀ k, (s.connections k).Accounts

theorem ActiveRead.taskStep_spec {env : TaskEnv} {r : ActiveRead} {chunk : CacheReadChunk} {pc pc' : TaskPc}
    {fs fs' : CacheFileSystem} (hs : r.taskStep w env chunk pc fs = .ok (pc', fs')) (h : fs.Cuttable w) :
    fs'.Cuttable w ∧ pc'.reported = (pc.reported || pc.toReport.isSome) := by
  unfold ActiveRead.taskStep at hs
  split at hs
  · split at hs
    · cases hs
    · obtain ⟨⟨_, _⟩, hstep, hs⟩ := except_map_eq_ok.mp hs
      cases hs
      exact ⟨{ h with }, InMemoryCacheReader.taskStep_reported hstep⟩
  · obtain ⟨⟨_, _⟩, hstep, hs⟩ := except_map_eq_ok.mp hs
    cases hs
    exact ⟨{ h with }, DiskCacheReader.taskStep_reported hstep⟩

theorem ActiveRead.ok_scheduled {handle start n : Nat} {chunks : List CacheReadChunk} {path versionTag : String}
    {reader : ReaderUse} (h : ChunksOf n chunks) :
    ActiveRead.OK ⟨handle, path, versionTag, reader, start, n, .scheduled chunks⟩ := by
  change ChunksOf n ((chunks.map (·, TaskPc.start)).map (·.1))
  rw [List.map_map, show (Prod.fst ∘ fun c : CacheReadChunk => (c, TaskPc.start)) = id from rfl, List.map_id]
  exact h

/-- A read that begins asks for bytes inside its file and has reported nothing. -/
theorem beginRead_spec {env : ReadEnv} {handle : Nat} {path : String} {location n fileSize : Nat}
    {fs fs' : CacheFileSystem} {read : Option ActiveRead} (h : fs.Cuttable w)
    (hfits : location + n ≤ fileSize) (hsize : fileSize < 2 ^ 63)
    (hb : fs.beginRead w env handle path location n fileSize = .ok (read, fs')) :
    fs'.Cuttable w ∧ ∀ r, read = some r → r.OK ∧ r.reported = 0 := by
  unfold CacheFileSystem.beginRead at hb
  dsimp only at hb
  split at hb
  · obtain ⟨_, _, hb⟩ := except_map_eq_ok.mp hb
    cases hb
    exact ⟨h, fun r hr => by cases hr⟩
  · split at hb
    · cases hb
      exact ⟨h, fun r hr => by cases hr⟩
    next hn =>
      have hreq : RequestOK location n fileSize := ⟨Nat.pos_of_ne_zero hn, hfits, hsize⟩
      obtain ⟨_, _, hb⟩ := except_bind_eq_ok.mp hb
      obtain ⟨phase, hphase, hb⟩ := except_bind_eq_ok.mp hb
      cases hb
      refine ⟨{ h with }, fun r hr => ?_⟩
      cases hr
      unfold CacheFileSystem.beginPhase at hphase
      split at hphase
      · cases hphase
        exact ⟨⟨⟨hreq.pos, hreq.fits, hreq.sized, h.blockSize.pos, h.blockSize.le⟩, rfl, trivial, trivial⟩, rfl⟩
      · obtain ⟨grid, hgrid, hphase⟩ := except_map_eq_ok.mp hphase
        cases hphase
        obtain ⟨grid', hok, hcuts⟩ := fixedGridChunks_cuts hreq h.blockSize
        cases hgrid.symm.trans hok
        exact ⟨ActiveRead.ok_scheduled hcuts.chunksOf, ActiveRead.reported_scheduled rfl⟩
  · split at hb
    · cases hb
      exact ⟨h, fun r hr => by cases hr⟩
    next hn =>
      have hreq : RequestOK location n fileSize := ⟨Nat.pos_of_ne_zero hn, hfits, hsize⟩
      obtain ⟨_, _, hb⟩ := except_bind_eq_ok.mp hb
      obtain ⟨grid, hgrid, hb⟩ := except_bind_eq_ok.mp hb
      cases hb
      refine ⟨{ h with }, fun r hr => ?_⟩
      cases hr
      obtain ⟨grid', hok, hcuts⟩ := fixedGridChunks_cuts hreq h.blockSize
      cases hgrid.symm.trans hok
      exact ⟨ActiveRead.ok_scheduled hcuts.chunksOf, ActiveRead.reported_scheduled rfl⟩

namespace ProfileState

theorem Balanced.onConnection (h : s.Balanced w) {f : Connection → Connection}
    (hf : (f (s.connections k)).Accounts) :
    (s.onConnection k f).Balanced w := by
  refine ⟨h.fs, fun k' => ?_⟩
  dsimp only [ProfileState.onConnection]
  by_cases hk : k' = k
  · subst hk
    rw [Function.update_self]
    exact hf
  · rw [Function.update_of_ne hk]
    exact h.connections k'

theorem Balanced.startRead (h : s.Balanced w) (hsized : w.remote.Sized) {handle nrBytes location : Nat}
    {env : ReadEnv} (hs : s.startRead w k handle nrBytes location env = some s') : s'.Balanced w := by
  obtain ⟨⟨path, _⟩, _, hs⟩ := Option.bind_eq_some_iff.mp hs
  obtain ⟨hsize, hfs⟩ := h.fs.getFileSize env path
  unfold ProfileState.startReadOf at hs
  dsimp only at hs
  generalize s.fs.getFileSize w env path = stat at hsize hfs hs
  obtain ⟨fileSize, fs⟩ := stat
  dsimp only at hsize hfs hs
  subst hsize
  have h₁ : Balanced w ({ s with fs }.onConnection k (Connection.recordStat (s.fs.statAccess env path))) :=
    (⟨hfs, h.connections⟩ : Balanced w { s with fs }).onConnection ((h.connections k).recordStat _)
  split at hs
  · cases hs
    exact h₁
  next hloc =>
    split at hs
    · obtain ⟨_, _, hs⟩ := Option.map_eq_some_iff.mp hs
      cases hs
      exact h₁
    · obtain ⟨⟨read, fs'⟩, hbegin, hs⟩ := Option.map_eq_some_iff.mp hs
      obtain ⟨hfs', hread⟩ := beginRead_spec hfs (by omega) (hsized path) (toOption_eq_some.mp hbegin)
      have h₂ : Balanced w
          { fs := fs'
            connections := (({ s with fs } : ProfileState).onConnection k
              (Connection.recordStat (s.fs.statAccess env path))).connections } := ⟨hfs', h₁.connections⟩
      cases read with
      | none =>
        cases hs
        exact h₂
      | some r =>
        cases hs
        obtain ⟨hr, hnone⟩ := hread r rfl
        exact h₂.onConnection ((h₂.connections k).start hr hnone)

theorem Balanced.plan (h : s.Balanced w) (hg : PlansInPeace s (.plan k i)) (hs : s.plan k i = some s') :
    s'.Balanced w := by
  obtain ⟨r, hr, hs⟩ := Option.bind_eq_some_iff.mp hs
  have hok := (h.connections k).active r (List.mem_of_getElem? hr)
  split at hs
  · cases hs
  next request pc hphase =>
    obtain ⟨pc', hread, hs⟩ := Option.bind_eq_some_iff.mp hs
    unfold ActiveRead.OK at hok
    rw [hphase] at hok
    obtain ⟨hreq, hn, hsound, hinner⟩ := hok
    have hnone : r.reported = 0 := by simp [ActiveRead.reported, ActiveRead.tasks, hphase]
    have hplan : pc ∈ r.plan := by simp [ActiveRead.plan, hphase]
    have hsound' := planRead_sound hreq h.fs.layouts hsound (hg r hr pc hplan).noExtentAppears hread
    have hinner' := planRead_inner hreq hinner hread
    split at hs
    next chunks =>
      cases hs
      obtain ⟨_, hchunks, htiles⟩ := hsound'
      cases hchunks
      rw [hreq.plan.reqEnd_eq, hn] at htiles
      refine h.onConnection ((h.connections k).setRead hr (ActiveRead.ok_scheduled ?_) ?_)
      · exact .of_tiles htiles (hinner' chunks rfl)
      · rw [hnone]
        exact ActiveRead.reported_scheduled rfl
    · cases hs
    · cases hs
      refine h.onConnection ((h.connections k).setRead hr ⟨hreq, hn, hsound', hinner'⟩ ?_)
      rw [hnone]
      rfl

theorem Balanced.task (h : s.Balanced w) {env : TaskEnv} (hs : s.task w k i j env = some s') : s'.Balanced w := by
  obtain ⟨r, hr, hs⟩ := Option.bind_eq_some_iff.mp hs
  obtain ⟨⟨chunk, pc⟩, hj, hs⟩ := Option.bind_eq_some_iff.mp hs
  obtain ⟨⟨pc', fs⟩, hstep, hs⟩ := Option.map_eq_some_iff.mp hs
  cases hs
  obtain ⟨hfs, hreported⟩ := ActiveRead.taskStep_spec (toOption_eq_some.mp hstep) h.fs
  exact (⟨hfs, h.connections⟩ : Balanced w { s with fs }).onConnection ((h.connections k).task hr hj hreported)

theorem Balanced.finishRead (h : s.Balanced w) (hs : s.finishRead k i = some s') : s'.Balanced w := by
  obtain ⟨r, hr, hs⟩ := Option.bind_eq_some_iff.mp hs
  split at hs
  next hdone =>
    cases hs
    exact h.onConnection ((h.connections k).finish hr hdone)
  · cases hs

/-- What one step preserves. -/
theorem Balanced.step (h : s.Balanced w) (hsized : w.remote.Sized) {a : ProfileAct} (ha : a.OK)
    (hg : PlansInPeace s a) (hs : profileStep w s a = some s') : s'.Balanced w := by
  cases a with
  | startRead k handle nrBytes location env => exact h.startRead hsized hs
  | plan k i => exact h.plan hg hs
  | task k i j env => exact h.task hs
  | finishRead k i => exact h.finishRead hs
  | reset k =>
    unfold profileStep at hs
    dsimp only at hs
    split at hs
    next hidle =>
      cases hs
      exact h.onConnection ((h.connections k).reset (List.isEmpty_iff.mp hidle))
    · cases hs
  | session act =>
    obtain ⟨fs, hstep, hs⟩ := Option.map_eq_some_iff.mp hs
    cases hs
    exact ⟨h.fs.fsStep ha (toOption_eq_some.mp hstep), h.connections⟩

theorem Balanced.run (h : s.Balanced w) (hsized : w.remote.Sized) {as : List ProfileAct} (has : ∀ a ∈ as, a.OK)
    (hg : Guarded (profileStep w) PlansInPeace s as) (hx : exec (profileStep w) s as = some s') : s'.Balanced w :=
  exec_guarded_invariant (fun _ _ _ h hGa hs => Balanced.step h hsized hGa.1 hGa.2 hs)
    (hg.imp fun _ a ha hGa => And.intro (has a ha) hGa) hx h

theorem Balanced.start {config : InstanceConfig} (hb : BlockSizeOK config.cacheBlockSize)
    (metadataConfig : MetadataConfig) (files : LocalFiles) :
    Balanced w { fs := { config, metadataConfig, diskReader := { files } } } where
  fs := ⟨hb, .empty, fun _ hn => by cases hn⟩
  connections _ := .new

end ProfileState

end Machine

namespace Connection

variable {c : Connection}

theorem Accounts.idle (h : c.Accounts) (hidle : c.active = []) :
    u64 (c.collector.bytesReadFromHits + c.collector.bytesReadFromMisses) = c.collector.totalBytesToRead := by
  obtain ⟨hits, misses, hh, hm, hsum⟩ := h.split
  have hreported : c.reported = 0 := by simp [reported, hidle]
  rw [hh, hm, h.toRead, u64_add, Nat.add_comm, u64_add, Nat.add_comm, hsum, hreported, Nat.add_zero]

theorem Accounts.idle_exact (h : c.Accounts) (hidle : c.active = []) (hfits : c.returned < 2 ^ 64) :
    c.collector.bytesReadFromHits + c.collector.bytesReadFromMisses = c.collector.totalBytesToRead ∧
      c.collector.totalBytesToRead = c.returned := by
  obtain ⟨hits, misses, hh, hm, hsum⟩ := h.split
  have hreported : c.reported = 0 := by simp [reported, hidle]
  rw [hh, hm, h.toRead, u64_eq (by omega : hits < _), u64_eq (by omega : misses < _), u64_eq hfits]
  omega

theorem Accounts.returned_le (h : c.Accounts) : c.returned ≤ c.cached := by
  rw [returned, cached]
  exact List.sum_le_sum h.finished

theorem Accounts.toRead_le (h : c.Accounts) (hfits : c.cached < 2 ^ 64) :
    c.collector.totalBytesToRead ≤ c.collector.totalBytesToCache := by
  have hle := h.returned_le
  rw [h.toRead, h.toCache, u64_eq (by omega), u64_eq hfits]
  exact hle

theorem Accounts.ahead (h : c.Accounts) :
    u64 (c.collector.bytesReadFromHits + c.collector.bytesReadFromMisses) =
      u64 (c.collector.totalBytesToRead + c.reported) := by
  obtain ⟨hits, misses, hh, hm, hsum⟩ := h.split
  rw [hh, hm, h.toRead, u64_add, Nat.add_comm, u64_add, Nat.add_comm, hsum, u64_add]

end Connection

/-- **Byte statistics balance.** In every run, whichever readers and chunkings
its reads go through and however their tasks interleave: what a connection's
collector has from hits and misses is, modulo `2^64`, what its reads returned
and what those in flight have reported. With none in flight the statistics
balance, in numbers as long as the counters do not wrap. -/
theorem byte_statistics_balance (w : World) (hsized : w.remote.Sized) (config : InstanceConfig)
    (hb : BlockSizeOK config.cacheBlockSize) (metadataConfig : MetadataConfig) (files : LocalFiles)
    (as : List ProfileAct) (has : ∀ a ∈ as, a.OK) (s : ProfileState)
    (hx : exec (profileStep w) { fs := { config, metadataConfig, diskReader := { files } } } as = some s)
    (hg : Guarded (profileStep w) PlansInPeace { fs := { config, metadataConfig, diskReader := { files } } } as)
    (k : Nat) :
    let c := s.connections k
    u64 (c.collector.bytesReadFromHits + c.collector.bytesReadFromMisses) =
        u64 (c.collector.totalBytesToRead + c.reported) ∧
      c.collector.totalBytesToRead = u64 c.returned ∧
      (c.active = [] →
        u64 (c.collector.bytesReadFromHits + c.collector.bytesReadFromMisses) = c.collector.totalBytesToRead ∧
        (c.returned < 2 ^ 64 →
          c.collector.bytesReadFromHits + c.collector.bytesReadFromMisses = c.collector.totalBytesToRead ∧
          c.collector.totalBytesToRead = c.returned) ∧
        (c.cached < 2 ^ 64 → c.collector.totalBytesToRead ≤ c.collector.totalBytesToCache)) := by
  have hbal : s.Balanced w := (ProfileState.Balanced.start hb metadataConfig files).run hsized has hg hx
  have h := hbal.connections k
  exact ⟨h.ahead, h.toRead, fun hidle => ⟨h.idle hidle, h.idle_exact hidle, h.toRead_le⟩⟩

/-! ## Small runs -/

def statisticsConfig : InstanceConfig := { invalidationConfig with cacheType := .inMem, chunking := .columnChunk }

def statisticsStart : ProfileState := { fs := { config := statisticsConfig } }

/-- A read by column chunks, and one on disk that is in flight when it returns. -/
def interleavedReads : List ProfileAct :=
  [ .session (.openFile "s3://b/x"), .session (.registerLayout "s3://b/x" [⟨0, 3⟩] [⟨0, 3⟩]), .startRead 0 0 3 1 {}
  , .plan 0 0, .plan 0 0, .session (.configure invalidationConfig {}), .startRead 1 0 4 0 {}, .plan 0 0, .task 1 0 0 {}, .plan 0 0
  , .task 0 0 1 {}, .task 0 0 0 {}, .task 1 0 0 {}, .task 0 0 1 {}, .task 0 0 1 {}, .task 1 0 0 {}, .task 0 0 0 {}
  , .task 0 0 0 {}, .task 0 0 0 {}, .task 0 0 1 {}, .finishRead 0 0 ]

theorem byte_statistics_interleaved :
    ∃ s, exec (profileStep invalidationWorld) statisticsStart interleavedReads = some s ∧
      (s.connections 0).collector.bytesReadFromHits + (s.connections 0).collector.bytesReadFromMisses =
        (s.connections 0).collector.totalBytesToRead ∧
      (s.connections 0).collector.totalBytesToRead ≤ (s.connections 0).collector.totalBytesToCache := by
  have hrun : (exec (profileStep invalidationWorld) statisticsStart interleavedReads).map (fun s =>
      ((s.connections 0).active.isEmpty, (s.connections 0).returned, (s.connections 0).cached)) =
        some (true, 3, 4) := by
    decide +kernel
  obtain ⟨s, hs, hend⟩ := Option.map_eq_some_iff.mp hrun
  obtain ⟨hidle, hreturned, hcached⟩ : _ ∧ _ ∧ _ := by simpa using hend
  have hbal := byte_statistics_balance invalidationWorld (fun _ => by simp [invalidationWorld]) statisticsConfig
    ⟨by decide, by decide⟩ {} (fun _ => none) interleavedReads ?_ s hs (by decide +kernel) 0
  · obtain ⟨_, _, hbal⟩ := hbal
    obtain ⟨_, hexact, hle⟩ := hbal hidle
    exact ⟨s, hs, (hexact (by omega)).1, hle (by omega)⟩
  · simp [interleavedReads, ProfileAct.OK, FsAct.OK, SortsTo, FileExtent.NoWrap, invalidationConfig_ok]

/-! ## Where they do not balance -/

section Wrap

variable {w : World} {s : ProfileState} {k i j : Nat} {r : ActiveRead}

namespace ActiveRead

theorem setTask_setTask (t t' : CacheReadChunk × TaskPc) : (r.setTask j t).setTask j t' = r.setTask j t' := by
  simp [setTask, tasks]

theorem tasks_setTask {t : CacheReadChunk × TaskPc} (hj : r.tasks[j]? = some t) (t' : CacheReadChunk × TaskPc) :
    (r.setTask j t').tasks[j]? = some t' :=
  (getElem?_set_iff hj).mpr (.inl ⟨rfl, rfl⟩)

theorem setTask_self {t : CacheReadChunk × TaskPc} (hj : r.tasks[j]? = some t) : r.setTask j t = r := by
  obtain ⟨handle, path, versionTag, reader, start, n, phase⟩ := r
  cases phase with
  | planning request plan => cases hj
  | running tasks => simp [setTask, ActiveRead.tasks, set_eq_self (show tasks[j]? = some t from hj)]

end ActiveRead

/-- One step of a task of the in-memory reader. -/
theorem profileStep_task {env : TaskEnv} {chunk : CacheReadChunk} {pc pc' : TaskPc}
    {storage storage' : DataCacheStorage} (hreader : r.reader = .inMem) (hread : s.readAt k i = some r)
    (hj : r.tasks[j]? = some (chunk, pc)) (hstorage : s.fs.inMemStorage = some storage)
    (hstep : InMemoryCacheReader.taskStep w r.path r.versionTag env chunk pc storage = .ok (pc', storage')) :
    profileStep w s (.task k i j env) = some
      (({ s with fs := { s.fs with inMemStorage := some storage' } } : ProfileState).onConnection k fun c =>
        (c.recordFound chunk pc.toReport).setRead i (r.setTask j (chunk, pc'))) := by
  simp [profileStep, ProfileState.task, hread, hj, ActiveRead.taskStep, hreader, hstorage, hstep, Except.map,
    Except.toOption]

theorem exec_task {env : TaskEnv} {chunk : CacheReadChunk} {wrote : Nat × Bytes}
    {storage' : DataCacheStorage} {fuel : Nat} {pc : TaskPc} {storage : DataCacheStorage}
    (hreader : r.reader = .inMem) (hread : s.readAt k i = some r) (hj : r.tasks[j]? = some (chunk, pc))
    (hstorage : s.fs.inMemStorage = some storage)
    (hrun : runTask (InMemoryCacheReader.taskStep w r.path r.versionTag env chunk) fuel pc storage =
      .ok (wrote, storage')) :
    ∃ n s', exec (profileStep w) s (List.replicate n (.task k i j env)) = some s' ∧
      s'.fs = { s.fs with inMemStorage := some storage' } ∧
        (s'.connections k).finished = (s.connections k).finished ∧
      (s'.connections k).active = (s.connections k).active.set i (r.setTask j (chunk, .done wrote)) := by
  induction fuel generalizing s r pc storage with
  | zero => cases hrun
  | succ fuel ih =>
    cases hpc : pc.isDone with
    | true =>
      obtain ⟨wrote', rfl⟩ : ∃ wrote', pc = .done wrote' := by
        cases pc <;> first | exact ⟨_, rfl⟩ | cases hpc
      cases hrun
      exact ⟨0, s, rfl, by rw [← hstorage], rfl, by rw [ActiveRead.setTask_self hj, set_eq_self hread]⟩
    | false =>
      obtain ⟨pc', storage₁, hstep, hrest⟩ := runTask_inv hpc hrun
      have hact := profileStep_task hreader hread hj hstorage hstep
      generalize hs₁ : ({ s with fs := { s.fs with inMemStorage := some storage₁ } } : ProfileState).onConnection k
        (fun c => (c.recordFound chunk pc.toReport).setRead i (r.setTask j (chunk, pc'))) = s₁ at hact
      have hconn : (s₁.connections k).finished = (s.connections k).finished ∧
          (s₁.connections k).active = (s.connections k).active.set i (r.setTask j (chunk, pc')) := by
        subst hs₁
        cases hfound : pc.toReport <;>
          simp [ProfileState.onConnection, Connection.recordFound, Connection.setRead]
      have hread₁ : s₁.readAt k i = some (r.setTask j (chunk, pc')) := by
        rw [ProfileState.readAt, hconn.2]
        exact (getElem?_set_iff hread).mpr (.inl ⟨rfl, rfl⟩)
      obtain ⟨n, s', hexec, hfs, hfinished, hactive⟩ := ih (r := r.setTask j (chunk, pc')) hreader hread₁
        (ActiveRead.tasks_setTask hj _) (by subst hs₁; rfl) hrest
      refine ⟨n + 1, s', ?_, ?_, hfinished.trans hconn.1, ?_⟩
      · rw [List.replicate_succ]
        exact exec_cons.mpr ⟨s₁, hact, hexec⟩
      · rw [hfs, ← hs₁]
        rfl
      · rw [hactive, hconn.2, List.set_set, ActiveRead.setTask_setTask]

theorem profileStep_startRead {env : ReadEnv} {handle nrBytes location fileSize : Nat} {h : FileHandle}
    {fs fs' : CacheFileSystem} (hh : s.fs.handles[handle]? = some h)
    (hstat : s.fs.getFileSize w env h.path = (fileSize, fs)) (hloc : location < fileSize)
    (hexcl : env.matchAnyExclusion = false)
    (hbegin : fs.beginRead w env handle h.path location (min nrBytes (fileSize - location)) fileSize =
      .ok (some r, fs')) :
    profileStep w s (.startRead k handle nrBytes location env) = some
      { fs := fs'
        connections := Function.update s.connections k
          (((s.connections k).recordStat (s.fs.statAccess env h.path)).start r) } := by
  simp [profileStep, ProfileState.startRead, ProfileState.startReadOf, hh, hstat, hloc, hexcl, hbegin,
    Except.toOption, ProfileState.onConnection]

/-- Between one-byte reads of a file that is one block: `m` of them so far. -/
structure AfterReads (w : World) (path : String) (block m : Nat) (s : ProfileState) : Prop where
  handle : ∃ h, s.fs.handles[0]? = some h ∧ h.path = path
  fs : s.fs.MirrorsRemote w
  cacheType : s.fs.config.cacheType = .inMem
  chunking : s.fs.config.chunking = .fixed
  blockSize : s.fs.config.cacheBlockSize = block
  active : (s.connections 0).active = []
  finished : (s.connections 0).finished = List.replicate m ⟨1, [gridChunk 0 1 block block 0]⟩

theorem fixedGridChunks_one {block : Nat} (hb : BlockSizeOK block) (hlt : block < 2 ^ 63) :
    ∃ grid, fixedGridChunks 0 1 block block = .ok grid ∧ grid.chunks = [gridChunk 0 1 block block 0] ∧
      (gridChunk 0 1 block block 0).Fits block := by
  have hpos := hb.pos
  obtain ⟨grid, hok, hcuts⟩ := fixedGridChunks_cuts (⟨by omega, by omega, hlt⟩ : RequestOK 0 1 block) hb
  obtain ⟨grid', hok', hchunks⟩ :=
    fixedGridChunks_eq (⟨by omega, by omega, hpos, by omega, by omega⟩ : GridRequest 0 1 block block)
  cases hok.symm.trans hok'
  have hone : grid.chunks = [gridChunk 0 1 block block 0] := by simp [hchunks, gridBlocks, gridCount]
  exact ⟨grid, hok, hone, hcuts.fits _ (by simp [hone])⟩

theorem AfterReads.read {block m : Nat} {path : String} (h : AfterReads w path block m s)
    (hsized : w.remote.Sized) (hsize : (w.remote path).length = block) :
    ∃ as s', exec (profileStep w) s as = some s' ∧ AfterReads w path block (m + 1) s' ∧
      ∀ a ∈ as, a.OK ∧ ∀ s, PlansInPeace s a := by
  have hlt : block < 2 ^ 63 := hsize ▸ hsized path
  have hb : BlockSizeOK block := h.blockSize ▸ h.fs.blockSize
  have hpos := hb.pos
  obtain ⟨hd, hhandle, rfl⟩ := h.handle
  obtain ⟨metadataCache, hstat, hsizes⟩ := CacheFileSystem.getFileSize_spec h.fs.metadata {} hd.path
  obtain ⟨storage, hinit, hstorage⟩ := InMemoryCacheReader.initStorage_spec h.fs.config h.cacheType h.fs.storage
  obtain ⟨grid, hgrid, hchunks, hfits⟩ := fixedGridChunks_one hb hlt
  let r : ActiveRead := ⟨0, hd.path, s.fs.config.expectedTag {}, .inMem, 0, 1,
    .scheduled [gridChunk 0 1 block block 0]⟩
  let fs₁ : CacheFileSystem := { s.fs with metadataCache, inMemStorage := some storage }
  have hbegin : ({ s.fs with metadataCache } : CacheFileSystem).beginRead w {} 0 hd.path 0 1 block =
      .ok (some r, fs₁) := by
    simp [CacheFileSystem.beginRead, CacheFileSystem.beginPhase, h.cacheType, h.chunking, h.blockSize, hinit,
      hgrid, hchunks,
      Except.map, bind, Except.bind, pure, Except.pure, r, fs₁]
  have hstart : profileStep w s (.startRead 0 0 1 0 {}) = _ := profileStep_startRead hhandle hstat (by omega) rfl
    (by rw [hsize, Nat.min_eq_left (by omega)]; exact hbegin)
  generalize hs₁ : ProfileState.mk fs₁ _ = s₁ at hstart
  have hactive : (s₁.connections 0).active = [r] := by
    subst hs₁
    cases s.fs.statAccess {} hd.path <;> simp [Connection.recordStat, Connection.start, h.active]
  have hfinished : (s₁.connections 0).finished = (s.connections 0).finished := by
    subst hs₁
    cases s.fs.statAccess {} hd.path <;> simp [Connection.recordStat, Connection.start]
  have hfs₁ : s₁.fs = fs₁ := by
    subst hs₁
    rfl
  obtain ⟨storage', hchunk, hstorage'⟩ :=
    (InMemoryCacheReader.processCacheReadChunk_spec hsized r.versionTag : TaskOK w.remote hd.path _ _)
      {} _ storage
      (by rw [hsize]; exact hfits) hstorage
  obtain ⟨n, s₂, hexec, hfs₂, hfinished₂, hactive₂⟩ := exec_task (k := 0) (i := 0) (j := 0) (r := r) (s := s₁) rfl
    (by simp [ProfileState.readAt, hactive]) rfl (by rw [hfs₁]) (runTask_inMem hchunk)
  rw [hactive, List.set_cons_zero] at hactive₂
  generalize hr' : r.setTask 0 _ = r' at hactive₂
  have hfinish : profileStep w s₂ (.finishRead 0 0) = some (s₂.onConnection 0 (Connection.finish 0 r')) := by
    have hdone : r'.isDone = true := by
      subst hr'
      rfl
    simp [profileStep, ProfileState.finishRead, ProfileState.readAt, hactive₂, hdone]
  have hfinal : r'.finish = ⟨1, [gridChunk 0 1 block block 0]⟩ := by
    subst hr'
    rfl
  refine ⟨.startRead 0 0 1 0 {} :: (List.replicate n (.task 0 0 0 {}) ++ [.finishRead 0 0]), _,
    exec_cons.mpr ⟨s₁, hstart, exec_append.mpr ⟨s₂, hexec, exec_cons.mpr ⟨_, hfinish, rfl⟩⟩⟩, ?_, ?_⟩
  · rw [hfs₁] at hfs₂
    constructor
    · rw [ProfileState.onConnection, hfs₂]
      exact ⟨hd, hhandle, rfl⟩
    · rw [ProfileState.onConnection, hfs₂]
      exact { h.fs with metadata := hsizes, storage := .some hstorage' }
    · rw [ProfileState.onConnection, hfs₂]
      exact h.cacheType
    · rw [ProfileState.onConnection, hfs₂]
      exact h.chunking
    · rw [ProfileState.onConnection, hfs₂]
      exact h.blockSize
    · simp [ProfileState.onConnection, Connection.finish, hactive₂]
    · simp [ProfileState.onConnection, Connection.finish, hfinished₂, hfinished, h.finished, hfinal,
        List.replicate_succ']
  · intro a ha
    simp only [List.mem_cons, List.mem_append, List.mem_replicate, List.not_mem_nil, or_false] at ha
    rcases ha with rfl | ⟨_, rfl⟩ | rfl <;> exact ⟨trivial, fun _ => trivial⟩

theorem AfterReads.reads {path : String} {block : Nat} (h : AfterReads w path block 0 s) (hsized : w.remote.Sized)
    (hsize : (w.remote path).length = block) (m : Nat) :
    ∃ as s', exec (profileStep w) s as = some s' ∧ AfterReads w path block m s' ∧ ∀ a ∈ as, a.OK ∧
      ∀ s, PlansInPeace s a := by
  induction m with
  | zero => exact ⟨[], s, rfl, h, by simp⟩
  | succ m ih =>
    obtain ⟨as, s₁, hexec, h₁, has⟩ := ih
    obtain ⟨bs, s₂, hmore, h₂, hbs⟩ := h₁.read hsized hsize
    refine ⟨as ++ bs, s₂, exec_append.mpr ⟨s₁, hexec, hmore⟩, h₂, fun a ha => ?_⟩
    rcases List.mem_append.mp ha with ha | ha
    · exact has a ha
    · exact hbs a ha

theorem AfterReads.totals {path : String} {block m : Nat} (h : AfterReads w path block m s)
    (hacc : (s.connections 0).Accounts) :
    (s.connections 0).collector.totalBytesToRead = u64 m ∧
      (s.connections 0).collector.totalBytesToCache = u64 (m * block) := by
  rw [hacc.toRead, hacc.toCache]
  simp [Connection.returned, Connection.cached, h.finished, FinishedRead.cached, gridChunk]

end Wrap

def blockWorld : World := { invalidationWorld with remote := fun _ => List.replicate (2 ^ 30) 0 }

def blockConfig : InstanceConfig := { invalidationConfig with cacheBlockSize := 2 ^ 30, cacheType := .inMem }

/-- The bytes cached come to `2^64` when those read are `2^34`. -/
theorem block_wraps :
    ∃ as s, exec (profileStep blockWorld) { fs := { config := blockConfig } } as = some s ∧
      (s.connections 0).active = [] ∧
      (s.connections 0).collector.totalBytesToCache < (s.connections 0).collector.totalBytesToRead := by
  have hsize : ∀ path, (blockWorld.remote path).length = 2 ^ 30 := fun _ => List.length_replicate
  have hsized : blockWorld.remote.Sized := fun path => by rw [hsize path]; decide
  have hconfig : blockConfig.OK := { invalidationConfig_ok with
    storage := fun _ => ⟨_, rfl⟩
    directories := fun honDisk => by cases honDisk
    noSlash := fun honDisk => by cases honDisk }
  have hb : BlockSizeOK blockConfig.cacheBlockSize := ⟨by decide, by decide⟩
  have hmirrors : ({ config := blockConfig } : CacheFileSystem).MirrorsRemote blockWorld :=
    .start hconfig hb {} (.empty _)
  obtain ⟨s₀, hopen, hstart⟩ : ∃ s₀, profileStep blockWorld { fs := { config := blockConfig } }
    (.session (.openFile "f")) =
      some s₀ ∧ AfterReads blockWorld "f" (2 ^ 30) 0 s₀ :=
    ⟨_, rfl, ⟨_, rfl, rfl⟩, { hmirrors.initializeGlobalConfig with }, rfl, rfl, rfl, rfl, rfl⟩
  obtain ⟨as, s, hexec, h, has⟩ := hstart.reads hsized (hsize "f") (2 ^ 34)
  have hrun : exec (profileStep blockWorld) { fs := { config := blockConfig } }
      (.session (.openFile "f") :: as) = some s :=
    exec_cons.mpr ⟨s₀, hopen, hexec⟩
  have hbal : s.Balanced blockWorld := by
    refine (ProfileState.Balanced.start hb {} fun _ => none).run hsized ?_ ?_ hrun
    · simpa [ProfileAct.OK, FsAct.OK] using fun a ha => (has a ha).1
    · exact ⟨trivial, fun t ht => (Guarded.of_forall fun a ha => ha).imp fun s a ha _ => (has a ha).2 s⟩
  obtain ⟨hread, hcache⟩ := h.totals (hbal.connections 0)
  exact ⟨_, s, hrun, h.active, by rw [hread, hcache]; decide⟩

/-- Two reads of a connection, one in flight when the other returns. -/
def overlappingReads : List ProfileAct :=
  [ .session (.openFile "f"), .startRead 0 0 4 0 {}, .plan 0 0, .startRead 0 0 4 0 {}, .plan 0 1, .task 0 0 0 {}, .task 0 0 0 {}
  , .task 0 0 0 {}, .task 0 0 0 {}, .task 0 1 0 {}, .task 0 1 0 {}, .finishRead 0 0 ]

/-- A layout is registered while a read plans. -/
def disturbedRead : List ProfileAct :=
  [ .session (.openFile "f"), .session (.registerLayout "f" [⟨0, 1⟩] [⟨0, 1⟩]), .startRead 0 0 4 0 {}, .plan 0 0, .plan 0 0, .plan 0 0
  , .session (.registerLayout "f" [⟨0, 1⟩, ⟨1, 1⟩] [⟨0, 1⟩, ⟨1, 1⟩]), .plan 0 0
  , .task 0 0 0 {}, .task 0 0 0 {}, .task 0 0 0 {}, .task 0 0 0 {}, .finishRead 0 0 ]

/-- **Where the statistics do not balance.** The counters wrap; a read
returns while another of its connection has reported; an extent appears in
the middle of a plan. -/
theorem byte_statistics_unbalanced :
    (∃ as s, exec (profileStep blockWorld) { fs := { config := blockConfig } } as = some s ∧
      (s.connections 0).active = [] ∧
      (s.connections 0).collector.totalBytesToCache < (s.connections 0).collector.totalBytesToRead) ∧
    (∃ as s, exec (profileStep invalidationWorld) statisticsStart (as ++ [.finishRead 0 0]) = some s ∧
      (s.connections 0).collector.bytesReadFromHits + (s.connections 0).collector.bytesReadFromMisses ≠
        (s.connections 0).collector.totalBytesToRead) ∧
    ∃ as s, exec (profileStep invalidationWorld) statisticsStart as = some s ∧ (s.connections 0).active = [] ∧
      (s.connections 0).collector.bytesReadFromHits + (s.connections 0).collector.bytesReadFromMisses ≠
        (s.connections 0).collector.totalBytesToRead := by
  have hoverlap : (exec (profileStep invalidationWorld) statisticsStart overlappingReads).map (fun s =>
      ((s.connections 0).collector.bytesReadFromHits, (s.connections 0).collector.bytesReadFromMisses,
        (s.connections 0).collector.totalBytesToRead)) = some (4, 4, 4) := by decide +kernel
  have hdisturbed : (exec (profileStep invalidationWorld) statisticsStart disturbedRead).map (fun s =>
      ((s.connections 0).collector.bytesReadFromHits, (s.connections 0).collector.bytesReadFromMisses,
        (s.connections 0).collector.totalBytesToRead, (s.connections 0).active.isEmpty)) =
          some (0, 1, 4, true) := by
    decide +kernel
  obtain ⟨s, hs, hend⟩ := Option.map_eq_some_iff.mp hoverlap
  obtain ⟨t, ht, htend⟩ := Option.map_eq_some_iff.mp hdisturbed
  simp only [Prod.mk.injEq] at hend htend
  refine ⟨block_wraps, ⟨overlappingReads.dropLast, s, hs, by omega⟩, disturbedRead, t, ht, ?_, by omega⟩
  exact List.isEmpty_iff.mp htend.2.2.2

end ReadCacheFs
