/-
Reads and their executors.

A read gives each of its chunks to a `ThreadPoolParallelExecutor` of its own
and returns when `WaitAll` does. The machine is that of the reads
(`ReadOpens`) with an executor (`ThreadPool`) beside each read: a task takes
its steps while a worker is at its job, and the job has run when the task is
done. The barrier of the pool is then what the reads need of it, and their
tasks, which do not fail, are what the pool needs.
-/
import ReadCacheFs.ConcurrentReads
import ReadCacheFs.ThreadPool

namespace ReadCacheFs

open Lib

def getThreadCountForSubrequests (ioRequestCount maxSubrequestCount : Nat) : Nat :=
  if maxSubrequestCount = 0 then min ioRequestCount 1024 else min ioRequestCount maxSubrequestCount

theorem getThreadCountForSubrequests_pos {ioRequestCount : Nat} (h : 0 < ioRequestCount)
    (maxSubrequestCount : Nat) :
    0 < getThreadCountForSubrequests ioRequestCount maxSubrequestCount := by
  unfold getThreadCountForSubrequests
  split <;> omega

/-- A `ThreadPoolParallelExecutor` whose tasks are those of a read. -/
abbrev ReadExecutor := ExecutorRun Fault

structure PooledState where
  opens : OpenState
  /-- The executor of each read of a connection, in the order of the reads; none before its chunks are cut. -/
  executors : Nat → List (Option ReadExecutor) := fun _ => []

inductive PooledAct
  | reads (act : OpenAct)
  /-- `CreateParallelExecutor`, once the read's chunks are cut. -/
  | create (connection read ioRequestCount maxSubrequestCount : Nat)
  | executor (connection read : Nat) (act : ExecutorAct Fault)

/-- What the read's code lets its executor do. Each chunk is scheduled before
`WaitAll`, a job has run when its task is done, and `~ThreadPool` comes at
the end of the read. -/
def ActiveRead.lets (r : ActiveRead) (executor : ReadExecutor) : ExecutorAct Fault → Bool
  | .schedule (.ok ()) _ => executor.tasks.length < r.tasks.length
  | .schedule (.error _) _ | .destroy => false
  | .waitAll => executor.tasks.length = r.tasks.length
  | .run w => (executor.workers[w]?.bind WorkerPc.holds).any fun job => r.tasks[job]?.any (·.2.isDone)
  | .wait | .get | .check _ | .complete _ | .wakeWorker _ | .wakeCaller => true

def CallerPc.hasReturned {E : Type} : CallerPc E → Bool
  | .returned => true
  | _ => false

namespace PooledState

/-- The reads of a connection with their executors. -/
def pooled (s : PooledState) (k : Nat) : List (ActiveRead × Option ReadExecutor) :=
  (s.opens.active k).zip (s.executors k)

def executorAt (s : PooledState) (k i : Nat) : Option ReadExecutor := (s.executors k)[i]?.join

/-- A task goes on in a worker that has its job, and a read returns after `WaitAll`. -/
def lets (s : PooledState) : OpenAct → Bool
  | .other (.task k i j _) => (s.executorAt k i).any fun executor => .running j ∈ executor.workers
  | .other (.finishRead k i) => (s.executorAt k i).any fun executor => executor.caller.hasReturned
  | _ => true

/-- The executors after a step of the reads: a read that begins has none yet. -/
def executorsAfter (s : PooledState) (opens : OpenState) : OpenAct → Nat → List (Option ReadExecutor)
  | .other (.startRead k ..) =>
    Function.update s.executors k
      (s.executors k ++ List.replicate ((opens.active k).length - (s.executors k).length) none)
  | .other (.finishRead k i) => Function.update s.executors k ((s.executors k).eraseIdx i)
  | _ => s.executors

def setExecutor (s : PooledState) (k i : Nat) (executor : ReadExecutor) : PooledState :=
  { s with executors := Function.update s.executors k ((s.executors k).set i (some executor)) }

end PooledState

def pooledStep (w : World) (s : PooledState) : PooledAct → Option PooledState
  | .reads act =>
    if s.lets act then (openStep w s.opens act).map fun opens => ⟨opens, s.executorsAfter opens act⟩ else none
  | .create k i ioRequestCount maxSubrequestCount => match (s.pooled k)[i]? with
    | some (r, none) =>
      if r.plan.isNone && 0 < ioRequestCount then
        some (s.setExecutor k i (.new (getThreadCountForSubrequests ioRequestCount maxSubrequestCount)))
      else none
    | _ => none
  | .executor k i act => match (s.pooled k)[i]? with
    | some (r, some executor) => if r.lets executor act then (executor.step act).map (s.setExecutor k i) else none
    | _ => none

namespace PooledAct

/-- Steps taken for the reads of a connection, from their executors on. -/
def worksFor (k : Nat) : PooledAct → Bool
  | .reads (.other (.task k' ..)) | .reads (.other (.finishRead k' _)) => k' = k
  | .executor k' _ act => k' = k && !act.spurious
  | _ => false

def OK : PooledAct → Prop
  | .reads act => act.OK
  | _ => True

/-- It meets no read at a bad moment (`OpenAct.Calm`). -/
def Calm (s : PooledState) : PooledAct → Prop
  | .reads act => act.InPeace s.opens ∧ act.SparesPins s.opens
  | _ => True

end PooledAct

/-! ## What a step does to the reads of a connection -/

def TaskPc.left : TaskPc → Nat
  | .start => 5
  | .localFile => 4
  | .lookedUp _ => 3
  | .recorded _ => 2
  | .fetched _ => 1
  | .done _ => 0

variable {w : World} {path : String} {c : CacheReadChunk} {pc pc' : TaskPc}

theorem InMemoryCacheReader.taskStep_left {versionTag : String} {env : TaskEnv}
    {storage storage' : DataCacheStorage}
    (h : taskStep w path versionTag env c pc storage = .ok (pc', storage')) : pc'.left < pc.left := by
  cases pc with
  | start =>
    rw [taskStep] at h
    split at h <;>
      (cases h
       exact Nat.lt_add_one_of_lt (Nat.lt_succ_self 3))
  | localFile | done wrote => cases h
  | lookedUp found =>
    cases h
    exact Nat.lt_succ_self 2
  | recorded found =>
    cases found with
    | block pinned =>
      obtain ⟨_, _, h⟩ := except_bind_eq_ok.mp h
      cases h
      exact Nat.zero_lt_two
    | file content => cases h
    | nothing =>
      obtain ⟨_, _, h⟩ := except_bind_eq_ok.mp h
      cases h
      exact Nat.lt_succ_self 1
  | fetched content =>
    obtain ⟨_, _, h⟩ := except_bind_eq_ok.mp h
    obtain ⟨_, _, h⟩ := except_bind_eq_ok.mp h
    cases h
    exact Nat.zero_lt_one

theorem DiskCacheReader.taskStep_left {versionTag : String} {config : InstanceConfig}
    {info : RemoteFileCachePathInfo} {env : TaskEnv} {reader reader' : DiskCacheReader}
    (h : taskStep w path versionTag config info env c pc reader = .ok (pc', reader')) : pc'.left < pc.left :=
  by
  cases pc with
  | start =>
    obtain ⟨_, _, h⟩ := except_bind_eq_ok.mp h
    split at h
    · cases h
      exact Nat.lt_succ_self 4
    · split at h <;>
        (cases h
         simp [TaskPc.left])
  | localFile =>
    obtain ⟨_, _, h⟩ := except_bind_eq_ok.mp h
    dsimp only at h
    split at h <;>
      (obtain ⟨_, _, h⟩ := except_bind_eq_ok.mp h
       cases h
       exact Nat.lt_succ_self 3)
  | lookedUp found =>
    cases h
    exact Nat.lt_succ_self 2
  | recorded found =>
    cases found with
    | block pinned =>
      rw [taskStep] at h
      split at h
      · cases h
      · obtain ⟨_, _, h⟩ := except_bind_eq_ok.mp h
        cases h
        exact Nat.zero_lt_two
    | file content =>
      obtain ⟨_, _, h⟩ := except_bind_eq_ok.mp h
      obtain ⟨_, _, h⟩ := except_bind_eq_ok.mp h
      obtain ⟨_, _, h⟩ := except_bind_eq_ok.mp h
      obtain ⟨_, _, h⟩ := except_bind_eq_ok.mp h
      cases h
      exact Nat.zero_lt_two
    | nothing =>
      obtain ⟨_, _, h⟩ := except_bind_eq_ok.mp h
      cases h
      exact Nat.lt_succ_self 1
  | fetched content =>
    obtain ⟨_, _, h⟩ := except_bind_eq_ok.mp h
    obtain ⟨_, _, h⟩ := except_bind_eq_ok.mp h
    cases h
    exact Nat.zero_lt_one
  | done wrote => cases h

theorem ActiveRead.taskStep_left {env : TaskEnv} {r : ActiveRead} {fs fs' : CacheFileSystem}
    (h : r.taskStep w env c pc fs = .ok (pc', fs')) : pc'.left < pc.left := by
  unfold ActiveRead.taskStep at h
  split at h
  · split at h
    · cases h
    · obtain ⟨⟨_, _⟩, hstep, h⟩ := except_map_eq_ok.mp h
      cases h
      exact InMemoryCacheReader.taskStep_left hstep
  · obtain ⟨⟨_, _⟩, hstep, h⟩ := except_map_eq_ok.mp h
    cases h
    exact DiskCacheReader.taskStep_left hstep

namespace ProfileState

def actives (s : ProfileState) (k : Nat) : List ActiveRead := (s.connections k).active

variable {s s' : ProfileState} {k i j : Nat}

theorem actives_onConnection (f : Connection → Connection) :
    (s.onConnection k f).actives = Function.update s.actives k (f (s.connections k)).active := by
  funext k'
  unfold actives onConnection
  dsimp only
  by_cases hk : k' = k
  · subst hk
    rw [Function.update_self, Function.update_self]
  · rw [Function.update_of_ne hk, Function.update_of_ne hk]

theorem actives_recordStat (access : Option CacheAccess) :
    (s.onConnection k (Connection.recordStat access)).actives = s.actives := by
  rw [actives_onConnection, active_recordStat]
  exact Function.update_eq_self k s.actives

theorem startRead_actives {handle nrBytes location : Nat} {env : ReadEnv}
    (hs : s.startRead w k handle nrBytes location env = some s') :
    ∃ new : Option ActiveRead, s'.actives = Function.update s.actives k (s.actives k ++ new.toList) := by
  obtain ⟨_, _, hs⟩ := Option.bind_eq_some_iff.mp hs
  have hsame : s.actives = Function.update s.actives k (s.actives k ++ (none : Option ActiveRead).toList) := by
    rw [Option.toList_none, List.append_nil, Function.update_eq_self]
  unfold startReadOf at hs
  dsimp only at hs
  split at hs
  · cases hs
    exact ⟨none, (actives_recordStat _).trans hsame⟩
  · split at hs
    · obtain ⟨_, _, hs⟩ := Option.map_eq_some_iff.mp hs
      cases hs
      exact ⟨none, (actives_recordStat _).trans hsame⟩
    · obtain ⟨⟨read, fs'⟩, _, hs⟩ := Option.map_eq_some_iff.mp hs
      cases read with
      | none =>
        cases hs
        exact ⟨none, (actives_recordStat _).trans hsame⟩
      | some r =>
        cases hs
        exact ⟨some r, (actives_onConnection _).trans (by
          rw [show ∀ conn : Connection, (Connection.start r conn).active = conn.active ++ [r] from fun _ => rfl]
          exact congrArg (fun actives => Function.update actives k (actives k ++ [r])) (actives_recordStat _))⟩

theorem plan_actives (hs : s.plan k i = some s') :
    ∃ r r', (s.actives k)[i]? = some r ∧ r.plan.isSome = true ∧
      s'.actives = Function.update s.actives k ((s.actives k).set i r') := by
  obtain ⟨r, hr, hs⟩ := Option.bind_eq_some_iff.mp hs
  obtain ⟨handle, path, versionTag, reader, start, n, phase⟩ := r
  cases phase with
  | running tasks => cases hs
  | planning request pc =>
    obtain ⟨pc', _, hs⟩ := Option.bind_eq_some_iff.mp hs
    cases pc' with
    | done res =>
      cases res with
      | error e => cases hs
      | ok chunks =>
        cases hs
        exact ⟨_, _, hr, rfl, actives_onConnection _⟩
    | start | find | nextStart =>
      cases hs
      exact ⟨_, _, hr, rfl, actives_onConnection _⟩

theorem task_actives {env : TaskEnv} (hs : s.task w k i j env = some s') :
    ∃ r c pc pc', (s.actives k)[i]? = some r ∧ r.tasks[j]? = some (c, pc) ∧ pc'.left < pc.left ∧
      s'.actives = Function.update s.actives k ((s.actives k).set i (r.setTask j (c, pc'))) := by
  obtain ⟨r, hr, hs⟩ := Option.bind_eq_some_iff.mp hs
  obtain ⟨⟨c, pc⟩, hj, hs⟩ := Option.bind_eq_some_iff.mp hs
  obtain ⟨⟨pc', fs'⟩, hstep, hs⟩ := Option.map_eq_some_iff.mp hs
  cases hs
  refine ⟨r, c, pc, pc', hr, hj, ActiveRead.taskStep_left (toOption_eq_some.mp hstep), ?_⟩
  refine (actives_onConnection _).trans ?_
  rw [Connection.setRead, active_recordFound]
  rfl

theorem finishRead_actives (hs : s.finishRead k i = some s') :
    ∃ r, (s.actives k)[i]? = some r ∧ s'.actives = Function.update s.actives k ((s.actives k).eraseIdx i) := by
  obtain ⟨r, hr, hs⟩ := Option.bind_eq_some_iff.mp hs
  split at hs
  · cases hs
    exact ⟨r, hr, actives_onConnection _⟩
  · cases hs

end ProfileState

/-- What a step does to the reads of a connection and their executors. -/
inductive PooledMove (k : Nat) :
    PooledAct → List (ActiveRead × Option ReadExecutor) → List (ActiveRead × Option ReadExecutor) → Prop
  | same {a : PooledAct} {l : List (ActiveRead × Option ReadExecutor)} (idle : a.worksFor k = false) :
    PooledMove k a l l
  | start {a : PooledAct} {l : List (ActiveRead × Option ReadExecutor)} (new : Option ActiveRead)
    (idle : a.worksFor k = false) : PooledMove k a l (l ++ new.toList.map (·, none))
  | plan {a : PooledAct} {l : List (ActiveRead × Option ReadExecutor)} {i : Nat} {r : ActiveRead}
    {executor : Option ReadExecutor} (idle : a.worksFor k = false) (read : l[i]? = some (r, executor))
    (planning : r.plan.isSome = true) (r' : ActiveRead) : PooledMove k a l (l.set i (r', executor))
  | task {l : List (ActiveRead × Option ReadExecutor)} {i j : Nat} {env : TaskEnv} {r : ActiveRead}
    {executor : ReadExecutor} {c : CacheReadChunk} {pc pc' : TaskPc} (read : l[i]? = some (r, some executor))
    (running : .running j ∈ executor.workers) (task : r.tasks[j]? = some (c, pc)) (left : pc'.left < pc.left) :
    PooledMove k (.reads (.other (.task k i j env))) l (l.set i (r.setTask j (c, pc'), some executor))
  | finish {l : List (ActiveRead × Option ReadExecutor)} {i : Nat} {r : ActiveRead} {executor : ReadExecutor}
    (read : l[i]? = some (r, some executor)) : PooledMove k (.reads (.other (.finishRead k i))) l (l.eraseIdx i)
  | create {l : List (ActiveRead × Option ReadExecutor)} {i ioRequestCount maxSubrequestCount : Nat} {r : ActiveRead}
    (read : l[i]? = some (r, none)) (cut : r.plan = none) (count : 0 < ioRequestCount) :
    PooledMove k (.create k i ioRequestCount maxSubrequestCount) l
      (l.set i (r, some (.new (getThreadCountForSubrequests ioRequestCount maxSubrequestCount))))
  | executor {l : List (ActiveRead × Option ReadExecutor)} {i : Nat} {act : ExecutorAct Fault} {r : ActiveRead}
    {executor executor' : ReadExecutor} (read : l[i]? = some (r, some executor)) (lets : r.lets executor act = true)
    (step : executor.step act = some executor') : PooledMove k (.executor k i act) l (l.set i (r, some executor'))

namespace PooledState

variable {s s' : PooledState} {k i : Nat}

/-- Each read has its place in the list of the executors. -/
def Paired (s : PooledState) : Prop := ∀ k, (s.executors k).length = (s.opens.active k).length

theorem active_of_pooled {r : ActiveRead} {executor : Option ReadExecutor}
    (h : (s.pooled k)[i]? = some (r, executor)) :
    (s.opens.active k)[i]? = some r ∧ (s.executors k)[i]? = some executor := List.getElem?_zip_eq_some.mp h

theorem pooled_setExecutor {r : ActiveRead} {executor : Option ReadExecutor} (executor' : ReadExecutor)
    (h : (s.pooled k)[i]? = some (r, executor)) :
    (s.setExecutor k i executor').pooled =
      Function.update s.pooled k ((s.pooled k).set i (r, some executor')) := by
  funext k'
  unfold pooled setExecutor
  dsimp only
  by_cases hk : k' = k
  · subst hk
    rw [Function.update_self, Function.update_self, ← zip_set, set_eq_self (active_of_pooled h).1]
  · rw [Function.update_of_ne hk, Function.update_of_ne hk]

theorem Paired.setExecutor (h : s.Paired) (executor : ReadExecutor) : (s.setExecutor k i executor).Paired := by
  intro k'
  unfold PooledState.setExecutor
  dsimp only
  by_cases hk : k' = k
  · subst hk
    rw [Function.update_self, List.length_set]
    exact h k'
  · rw [Function.update_of_ne hk]
    exact h k'

/-- A step that changes the reads of one connection, or none. -/
theorem moves_of_update {a : PooledAct} {l : List (ActiveRead × Option ReadExecutor)}
    (h : s'.pooled = Function.update s.pooled k l) (hmove : PooledMove k a (s.pooled k) l)
    (hidle : ∀ k', k' ≠ k → a.worksFor k' = false) (k' : Nat) : PooledMove k' a (s.pooled k') (s'.pooled k') := by
  rw [h]
  by_cases hk : k' = k
  · subst hk
    rw [Function.update_self]
    exact hmove
  · rw [Function.update_of_ne hk]
    exact .same (hidle k' hk)

/-- A step of the reads that changes those of one connection, each with its executor. -/
theorem reads_moves {a : PooledAct} {l : List ActiveRead} {executors : List (Option ReadExecutor)} (hp : s.Paired)
    (hreads : s'.opens.reads.actives = Function.update s.opens.reads.actives k l)
    (hexecutors : s'.executors = Function.update s.executors k executors) (hlength : executors.length = l.length)
    (hmove : PooledMove k a (s.pooled k) (l.zip executors)) (hidle : ∀ k', k' ≠ k → a.worksFor k' = false) :
    s'.Paired ∧ ∀ k', PooledMove k' a (s.pooled k') (s'.pooled k') := by
  have hactive : ∀ k', s'.opens.active k' = Function.update s.opens.reads.actives k l k' := congrFun hreads
  refine ⟨fun k' => ?_, moves_of_update (funext fun k' => ?_) hmove hidle⟩
  · rw [hactive, hexecutors]
    by_cases hk : k' = k
    · subst hk
      rw [Function.update_self, Function.update_self, hlength]
    · rw [Function.update_of_ne hk, Function.update_of_ne hk]
      exact hp k'
  · unfold pooled
    rw [hactive, hexecutors]
    by_cases hk : k' = k
    · subst hk
      rw [Function.update_self, Function.update_self, Function.update_self]
    · rw [Function.update_of_ne hk, Function.update_of_ne hk, Function.update_of_ne hk]
      rfl

theorem same_moves {a : PooledAct} (hp : s.Paired) (hreads : s'.opens.reads.actives = s.opens.reads.actives)
    (hexecutors : s'.executors = s.executors) (hidle : ∀ k, a.worksFor k = false) :
    s'.Paired ∧ ∀ k, PooledMove k a (s.pooled k) (s'.pooled k) := by
  refine reads_moves (k := 0) hp (l := s.opens.active 0) ?_ ?_ (hp 0) (.same (hidle 0)) fun k _ => hidle k
  · exact hreads.trans (Function.update_eq_self 0 s.opens.reads.actives).symm
  · exact hexecutors.trans (Function.update_eq_self 0 s.executors).symm

theorem Paired.executorAt (hp : s.Paired) {r : ActiveRead} (h : (s.opens.active k)[i]? = some r) :
    ∃ executor, (s.executors k)[i]? = some executor ∧ (s.pooled k)[i]? = some (r, executor) ∧
      s.executorAt k i = executor := by
  obtain ⟨hi, _⟩ := List.getElem?_eq_some_iff.mp h
  have hget := List.getElem?_eq_getElem (l := s.executors k) (by rw [hp k]; exact hi)
  exact ⟨_, hget, List.getElem?_zip_eq_some.mpr ⟨h, hget⟩, by rw [PooledState.executorAt, hget]; rfl⟩

theorem startRead_moves (hp : s.Paired) {reads : ProfileState} {handle nrBytes location : Nat}
    {env : ReadEnv}
    (hstep : profileStep w s.opens.reads (.startRead k handle nrBytes location env) = some reads)
    {opens : OpenState} (hopens : opens.reads = reads) :
    (PooledState.mk opens (s.executorsAfter opens (.other (.startRead k handle nrBytes location env)))).Paired ∧
      ∀ k', PooledMove k' (.reads (.other (.startRead k handle nrBytes location env))) (s.pooled k')
        ((PooledState.mk opens (s.executorsAfter opens
          (.other (.startRead k handle nrBytes location env)))).pooled k') := by
  obtain ⟨new, hnew⟩ := ProfileState.startRead_actives hstep
  subst hopens
  have hlength : (s.opens.reads.actives k).length = (s.executors k).length := (hp k).symm
  have hgrown : (opens.reads.actives k).length - (s.executors k).length = new.toList.length := by
    rw [hnew, Function.update_self, List.length_append, hlength, Nat.add_sub_cancel_left]
  have hexecutors : s.executorsAfter opens (.other (.startRead k handle nrBytes location env)) =
      Function.update s.executors k (s.executors k ++ List.replicate new.toList.length none) := by
    rw [← hgrown]
    rfl
  refine reads_moves hp hnew hexecutors ?_ ?_ fun _ _ => rfl
  · rw [List.length_append, List.length_append, List.length_replicate, hlength]
  · have hnone : new.toList.zip (List.replicate new.toList.length none) =
        new.toList.map (·, (none : Option ReadExecutor)) := by
      cases new <;> rfl
    rw [List.zip_append hlength, hnone]
    exact .start new rfl

theorem profile_moves (hp : s.Paired) {act : ProfileAct} (hlets : s.lets (.other act) = true)
    {reads : ProfileState} (hstep : profileStep w s.opens.reads act = some reads) {opens : OpenState}
    (hopens : opens.reads = reads) :
    (PooledState.mk opens (s.executorsAfter opens (.other act))).Paired ∧ ∀ k, PooledMove k (.reads (.other act))
      (s.pooled k) ((PooledState.mk opens (s.executorsAfter opens (.other act))).pooled k) := by
  cases act with
  | startRead k handle nrBytes location env => exact startRead_moves hp hstep hopens
  | session act =>
    obtain ⟨fs, _, rfl⟩ := Option.map_eq_some_iff.mp hstep
    exact same_moves hp (by rw [hopens]; rfl) rfl fun _ => rfl
  | reset k =>
    rw [profileStep] at hstep
    split at hstep
    · cases hstep
      refine same_moves hp ?_ rfl fun _ => rfl
      rw [hopens]
      exact (ProfileState.actives_onConnection _).trans (Function.update_eq_self k s.opens.reads.actives)
    · cases hstep
  | plan k i =>
    obtain ⟨r, r', hr, hplan, hset⟩ := ProfileState.plan_actives hstep
    obtain ⟨executor, hexecutor, hpooled, _⟩ := hp.executorAt hr
    subst hopens
    refine reads_moves hp hset (Function.update_eq_self k s.executors).symm
      (by rw [List.length_set]; exact hp k) ?_
      fun _ _ => rfl
    rw [← set_eq_self hexecutor, zip_set]
    exact .plan rfl hpooled hplan r'
  | task k i j env =>
    obtain ⟨r, c, pc, pc', hr, hj, hleft, hset⟩ := ProfileState.task_actives hstep
    obtain ⟨executor, hexecutor, hpooled, hat⟩ := hp.executorAt hr
    obtain ⟨executor, hsome, hrunning⟩ := (Option.any_eq_true _ _).mp hlets
    rw [hat] at hsome
    subst hsome hopens
    refine reads_moves hp hset (Function.update_eq_self k s.executors).symm
      (by rw [List.length_set]; exact hp k) ?_
      fun k' hk => by simp [PooledAct.worksFor, Ne.symm hk]
    rw [← set_eq_self hexecutor, zip_set]
    exact .task hpooled (of_decide_eq_true hrunning) hj hleft
  | finishRead k i =>
    obtain ⟨r, hr, hset⟩ := ProfileState.finishRead_actives hstep
    obtain ⟨executor, hexecutor, hpooled, hat⟩ := hp.executorAt hr
    obtain ⟨executor, hsome, _⟩ := (Option.any_eq_true _ _).mp hlets
    rw [hat] at hsome
    subst hsome hopens
    refine reads_moves hp hset rfl ?_ ?_ fun k' hk => by simp [PooledAct.worksFor, Ne.symm hk]
    · rw [List.length_eraseIdx, List.length_eraseIdx, hp k]
      rfl
    · rw [zip_eraseIdx]
      exact .finish hpooled

/-- **What a step does.** -/
theorem step_moves {a : PooledAct} (hp : s.Paired) (hs : pooledStep w s a = some s') :
    s'.Paired ∧ ∀ k, PooledMove k a (s.pooled k) (s'.pooled k) := by
  cases a with
  | reads act =>
    rw [pooledStep] at hs
    split at hs
    next hlets =>
      obtain ⟨opens, hopen, rfl⟩ := Option.map_eq_some_iff.mp hs
      cases act with
      | openFile =>
        obtain ⟨_, _, rfl⟩ := openStep_openFile hopen
        exact same_moves hp rfl rfl fun _ => rfl
      | setClearCacheOnWrite =>
        cases hopen
        exact same_moves hp rfl rfl fun _ => rfl
      | removeFiles =>
        obtain ⟨_, _, rfl⟩ := openStep_removeFiles hopen
        exact same_moves hp rfl rfl fun _ => rfl
      | other act =>
        obtain ⟨_, reads, hstep, rfl⟩ := openStep_other hopen
        exact profile_moves hp hlets hstep rfl
    · cases hs
  | create k i ioRequestCount maxSubrequestCount =>
    rw [pooledStep] at hs
    split at hs
    next r hr =>
      split at hs
      next hcut =>
        cases hs
        rw [Bool.and_eq_true, Option.isNone_iff_eq_none, decide_eq_true_eq] at hcut
        exact ⟨hp.setExecutor _,
          moves_of_update (pooled_setExecutor _ hr) (.create hr hcut.1 hcut.2) fun _ _ => rfl⟩
      · cases hs
    · cases hs
  | executor k i act =>
    rw [pooledStep] at hs
    split at hs
    next r executor hr =>
      split at hs
      next hlets =>
        obtain ⟨executor', hstep, rfl⟩ := Option.map_eq_some_iff.mp hs
        exact ⟨hp.setExecutor _,
          moves_of_update (pooled_setExecutor _ hr) (.executor hr hlets hstep) fun k' hk => by
          simp [PooledAct.worksFor, Ne.symm hk]⟩
      · cases hs
    · cases hs

end PooledState

/-! ## A read and its executor -/

namespace ExecutorRun

variable {E : Type} {s s' : ExecutorRun E} {a : ExecutorAct E}

/-- Workers, and a caller in `WaitAll`, schedule nothing and stop nothing. -/
theorem step_keeps (ha : (a.works || a.spurious) = true) (hs : s.step a = some s') :
    s'.tasks = s.tasks ∧ s'.stopped = s.stopped ∧ (s'.caller = .scheduling ↔ s.caller = .scheduling) := by
  cases step_cases hs with
  | schedule | waitAll | destroy => cases ha
  | goOn hc | sleep hc | finish hc | next hc | throw hc | wakeCaller hc => simp [hc]
  | check hw =>
    unfold takeJob
    split
    · exact ⟨rfl, rfl, .rfl⟩
    · split <;> exact ⟨rfl, rfl, .rfl⟩
  | run | wakeWorker => exact ⟨rfl, rfl, .rfl⟩
  | complete hw =>
    refine ⟨rfl, rfl, ?_⟩
    change s.caller.notified = .scheduling ↔ _
    cases s.caller <;> simp [CallerPc.notified]

theorem step_log (ha : ∀ worker, a ≠ .run worker) (hs : s.step a = some s') : s'.log = s.log := by
  cases step_cases hs with
  | schedule task worker hc hn =>
    cases worker with
    | none =>
      simp only [notifyOne] at hn
      split at hn <;> cases hn
      rfl
    | some w =>
      simp only [notifyOne] at hn
      split at hn <;> cases hn
      rfl
  | check hw =>
    unfold takeJob
    split
    · rfl
    · split <;> rfl
  | @run w => exact absurd rfl (ha w)
  | waitAll | goOn | sleep | finish | next | throw | complete | destroy | wakeWorker | wakeCaller => rfl

/-- A new task is the last, and wakes one worker at most. -/
theorem step_schedule {task : Except E Unit} {worker : Option Nat}
    (hs : s.step (.schedule task worker) = some s') :
    s.caller = .scheduling ∧ s'.caller = .scheduling ∧ s'.stopped = s.stopped ∧ s'.tasks = s.tasks ++ [task] ∧
      s'.work ≤ s.work + 6 := by
  cases step_cases hs with
  | schedule _ _ hc hn =>
    have hgrown : work { s with jobs := s.jobs ++ [s.tasks.length]
                                tasks := s.tasks ++ [task]
                                futures := s.futures ++ [none] } = s.work + 5 := by
      simp only [work, hc, toGet, List.length_append, List.length_singleton]
      omega
    cases worker with
    | none =>
      simp only [notifyOne] at hn
      split at hn <;> cases hn
      exact ⟨hc, hc, rfl, rfl, by omega⟩
    | some w =>
      simp only [notifyOne] at hn
      split at hn
      next hw =>
        cases hn
        have hset := work_setWorker { s with jobs := s.jobs ++ [s.tasks.length]
                                             tasks := s.tasks ++ [task]
                                             futures := s.futures ++ [none] } hw .checking
        simp only [effort] at hset
        exact ⟨hc, hc, rfl, rfl, by omega⟩
      · cases hn

end ExecutorRun

namespace ActiveRead

/-- The executor has the tasks of the read, and a job that has run is a task that is done. -/
structure Pooled (r : ActiveRead) (executor : ReadExecutor) : Prop where
  threads : 0 < executor.workers.length
  inv : executor.Inv executor.workers.length
  awake : executor.Awake
  alive : executor.stopped = false
  cut : r.plan = none
  scheduled : executor.tasks.length ≤ r.tasks.length
  all : executor.caller ≠ .scheduling → executor.tasks.length = r.tasks.length
  returns : ∀ task ∈ executor.tasks, task = .ok ()
  ran : ∀ j ∈ executor.log, ∃ t, r.tasks[j]? = some t ∧ t.2.isDone = true

variable {r : ActiveRead} {executor executor' : ReadExecutor} {act : ExecutorAct Fault} {i j : Nat}

theorem Pooled.new (hcut : r.plan = none) {threadNum : Nat} (hpos : 0 < threadNum) :
    r.Pooled (.new threadNum) := by
  have hsize : (ExecutorRun.new threadNum : ReadExecutor).workers.length = threadNum := List.length_replicate ..
  refine ⟨hsize.symm ▸ hpos, hsize.symm ▸ .new threadNum, .new threadNum, rfl, hcut, Nat.zero_le _, ?_, ?_, ?_⟩
  · exact fun hne => absurd rfl hne
  · exact fun task htask => by cases htask
  · exact fun j hj => by cases hj

theorem lets_schedule {task : Except Fault Unit} {worker : Option Nat}
    (h : r.lets executor (.schedule task worker) = true) :
    task = .ok () ∧ executor.tasks.length < r.tasks.length := by
  cases task with
  | ok => exact ⟨rfl, of_decide_eq_true h⟩
  | error e => cases h

theorem Pooled.step (h : r.Pooled executor) (hlets : r.lets executor act = true)
    (hs : executor.step act = some executor') :
    r.Pooled executor' := by
  have hinv := h.inv.step hs
  have hawake := h.awake.step h.inv h.threads hs
  have hthreads : 0 < executor'.workers.length := hinv.size.symm ▸ h.threads
  have hinv' : executor'.Inv executor'.workers.length := hinv.size.symm ▸ hinv
  -- What is left where no task is scheduled and the pool goes on.
  have hkeeps : (act.works || act.spurious) = true →
    (∀ j ∈ executor'.log, ∃ t, r.tasks[j]? = some t ∧ t.2.isDone = true) →
      r.Pooled executor' := by
    intro ha hran
    obtain ⟨htasks, hstopped, hcaller⟩ := ExecutorRun.step_keeps ha hs
    exact ⟨hthreads, hinv', hawake, hstopped.trans h.alive, h.cut, htasks.symm ▸ h.scheduled,
      fun hne => htasks.symm ▸ h.all fun he => hne (hcaller.mpr he), htasks.symm ▸ h.returns, hran⟩
  cases act with
  | schedule task worker =>
    obtain ⟨rfl, hlt⟩ := lets_schedule hlets
    obtain ⟨_, hcaller, hstopped, htasks, _⟩ := ExecutorRun.step_schedule hs
    have hlog := ExecutorRun.step_log (fun w he => by cases he) hs
    refine ⟨hthreads, hinv', hawake, hstopped.trans h.alive, h.cut, ?_, fun hne => absurd hcaller hne, ?_,
      hlog.symm ▸ h.ran⟩
    · rw [htasks, List.length_append]
      exact hlt
    · rw [htasks]
      intro task htask
      rcases List.mem_append.mp htask with htask | htask
      · exact h.returns task htask
      · exact List.mem_singleton.mp htask
  | waitAll =>
    cases ExecutorRun.step_cases hs with
    | waitAll =>
      exact ⟨hthreads, hinv', hawake, h.alive, h.cut, h.scheduled, fun _ => of_decide_eq_true hlets,
        h.returns, h.ran⟩
  | run worker =>
    refine hkeeps rfl ?_
    cases ExecutorRun.step_cases hs with
    | @run _ job task hw htask =>
      intro j hj
      rcases List.mem_append.mp hj with hj | hj
      · exact h.ran j hj
      · rw [List.mem_singleton.mp hj]
        simp only [ActiveRead.lets, hw, Option.bind_some, WorkerPc.holds, Option.any_some] at hlets
        exact (Option.any_eq_true _ _).mp hlets
  | destroy => cases hlets
  | wait | get | check worker | complete worker | wakeWorker worker | wakeCaller =>
    exact hkeeps rfl ((ExecutorRun.step_log (fun w he => by cases he) hs).symm ▸ h.ran)

theorem setTask_tasks (t : CacheReadChunk × TaskPc) : (r.setTask j t).tasks = r.tasks.set j t := rfl

theorem Pooled.setTask (h : r.Pooled executor) {c : CacheReadChunk} {pc pc' : TaskPc}
    (hj : r.tasks[j]? = some (c, pc)) (hleft : pc'.left < pc.left) : (r.setTask j (c, pc')).Pooled executor :=
  by
  have hlength : (r.setTask j (c, pc')).tasks.length = r.tasks.length := by rw [setTask_tasks, List.length_set]
  refine ⟨h.threads, h.inv, h.awake, h.alive, rfl, hlength.symm ▸ h.scheduled,
    fun hne => hlength.symm ▸ h.all hne,
    h.returns, ?_⟩
  intro job hjob
  obtain ⟨t, ht, hdone⟩ := h.ran job hjob
  rw [setTask_tasks]
  by_cases hne : j = job
  · subst hne
    cases ht.symm.trans hj
    -- A task that is done takes no more steps.
    cases pc with
    | done wrote => exact absurd hleft (Nat.not_lt_zero _)
    | start | localFile | lookedUp | recorded | fetched => cases hdone
  · rw [List.getElem?_set_ne hne]
    exact ⟨t, ht, hdone⟩

/-- Steps that are left before the read returns, spurious wake-ups aside. -/
def workLeft (r : ActiveRead) (executor : ReadExecutor) : Nat :=
  (r.tasks.map (·.2.left)).sum + 7 * (r.tasks.length - executor.tasks.length) +
    (if executor.caller = .scheduling then r.tasks.length + 4 else 0) + executor.work + 1

theorem Pooled.isDone (h : r.Pooled executor) (hc : executor.caller = .returned) : r.isDone = true := by
  have hall := h.all (by rw [hc]; exact fun he => by cases he)
  have hran : ∀ j < r.tasks.length, ∃ t, r.tasks[j]? = some t ∧ t.2.isDone = true := fun j hj =>
    h.ran j (h.inv.mem_log (by rw [hc]; rfl) (hall.symm ▸ hj))
  obtain ⟨handle, path, versionTag, reader, start, n, phase⟩ := r
  cases phase with
  | planning request pc => cases h.cut
  | running tasks =>
    refine List.all_eq_true.mpr fun t ht => ?_
    obtain ⟨j, hj, rfl⟩ := List.getElem_of_mem ht
    obtain ⟨t', ht', hdone⟩ := hran j hj
    have hsame : some tasks[j] = some t' := (List.getElem?_eq_getElem hj).symm.trans ht'
    exact Option.some.inj hsame ▸ hdone

end ActiveRead

/-! ## Runs -/

def workOf (p : ActiveRead × Option ReadExecutor) : Nat := p.2.elim 0 p.1.workLeft

namespace PooledMove

variable {a : PooledAct} {l l' : List (ActiveRead × Option ReadExecutor)} {k i : Nat} {r : ActiveRead}

theorem pooled_of_getElem? (h : ∀ p ∈ l, ∀ executor ∈ p.2, p.1.Pooled executor) {executor : ReadExecutor}
    (hread : l[i]? = some (r, some executor)) : r.Pooled executor := h _ (List.mem_of_getElem? hread) executor rfl

theorem none_of_planning (h : ∀ p ∈ l, ∀ executor ∈ p.2, p.1.Pooled executor) {executor : Option ReadExecutor}
    (hread : l[i]? = some (r, executor)) (hplanning : r.plan.isSome = true) : executor = none := by
  cases executor with
  | none => rfl
  | some executor =>
    rw [(pooled_of_getElem? h hread).cut] at hplanning
    cases hplanning

theorem keeps (hmove : PooledMove k a l l') (h : ∀ p ∈ l, ∀ executor ∈ p.2, p.1.Pooled executor) :
    ∀ p ∈ l', ∀ executor ∈ p.2, p.1.Pooled executor := by
  have hset : ∀ i q, (∀ executor ∈ q.2, q.1.Pooled executor) →
      ∀ p ∈ l.set i q, ∀ executor ∈ p.2, p.1.Pooled executor := by
    intro i q hq p hp
    rcases List.mem_or_eq_of_mem_set hp with hp | rfl
    · exact h p hp
    · exact hq
  cases hmove with
  | same => exact h
  | start new =>
    intro p hp
    rcases List.mem_append.mp hp with hp | hp
    · exact h p hp
    · obtain ⟨r, _, rfl⟩ := List.mem_map.mp hp
      exact fun executor he => by cases he
  | plan _ hread hplanning r' =>
    refine hset _ _ fun executor he => ?_
    rw [none_of_planning h hread hplanning] at he
    cases he
  | task hread _ hj hleft =>
    refine hset _ _ fun executor he => ?_
    cases he
    exact (pooled_of_getElem? h hread).setTask hj hleft
  | finish => exact fun p hp => h p (List.mem_of_mem_eraseIdx hp)
  | create _ hcut hcount =>
    refine hset _ _ fun executor he => ?_
    cases he
    exact .new hcut (getThreadCountForSubrequests_pos hcount _)
  | executor hread hlets hstep =>
    refine hset _ _ fun executor he => ?_
    cases he
    exact (pooled_of_getElem? h hread).step hlets hstep

end PooledMove

namespace PooledState

variable {s s' : PooledState} {k i : Nat} {a : PooledAct}

/-- Each executor is that of its read. -/
structure OK (s : PooledState) : Prop where
  paired : s.Paired
  pooled : ∀ k, ∀ p ∈ s.pooled k, ∀ executor ∈ p.2, p.1.Pooled executor

/-- Steps that are left to the reads of a connection that have their executors, spurious wake-ups aside. -/
def workLeft (s : PooledState) (k : Nat) : Nat := ((s.pooled k).map workOf).sum

theorem OK.at (h : s.OK) {r : ActiveRead} {executor : ReadExecutor}
    (hpooled : (s.pooled k)[i]? = some (r, some executor)) :
    r.Pooled executor := PooledMove.pooled_of_getElem? (h.pooled k) hpooled

theorem OK.step (h : s.OK) (hs : pooledStep w s a = some s') : s'.OK := by
  obtain ⟨hpaired, hmoves⟩ := step_moves h.paired hs
  exact ⟨hpaired, fun k => (hmoves k).keeps (h.pooled k)⟩

end PooledState

namespace ExecutorRun

variable {E : Type} {s : ExecutorRun E}

end ExecutorRun

namespace PooledState

variable {s s' : PooledState} {k i : Nat} {a : PooledAct}

/-- Before the first step. -/
def start (fs : CacheFileSystem) (clearCacheOnWrite : Bool) : PooledState :=
  { opens := { reads := { fs }, clearCacheOnWrite } }

theorem OK.start (fs : CacheFileSystem) (clearCacheOnWrite : Bool) : (start fs clearCacheOnWrite).OK :=
  ⟨fun _ => rfl, fun k p hp => by cases hp⟩

end PooledState

end ReadCacheFs
