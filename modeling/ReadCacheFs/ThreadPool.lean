/-
`ThreadPool` and `ThreadPoolParallelExecutor`: tasks run on worker threads,
and a caller that schedules them and waits for all.

The machine takes one critical section a step, or the run of one job. A
thread asleep on a condition variable wakes when it is notified or
spuriously, and then looks at its condition again under the lock.
-/
import ReadCacheFs.Lib.Runs

namespace ReadCacheFs

open Lib

/-- Where a worker is in its loop. -/
inductive WorkerPc
  /-- Awake, before it looks at the condition of `new_job_cv_`. -/
  | checking
  | asleep
  | running (job : Nat)
  /-- The job has run; before the second critical section. -/
  | ran (job : Nat)
  | exited
  deriving DecidableEq

namespace WorkerPc

/-- Between its two critical sections. -/
def busy : WorkerPc → Bool
  | .running _ | .ran _ => true
  | _ => false

/-- The job it has taken and not run. -/
def holds : WorkerPc → Option Nat
  | .running job => some job
  | _ => none

def notified : WorkerPc → WorkerPc
  | .asleep => .checking
  | pc => pc

end WorkerPc

inductive CallerPc (E : Type)
  | scheduling
  /-- In `Wait`, asleep or before it looks at the condition. -/
  | waiting (asleep : Bool)
  /-- In the loop of `WaitAll`. -/
  | getting (next : Nat)
  | returned
  | threw (e : E)
  deriving DecidableEq

namespace CallerPc

variable {E : Type}

def notified : CallerPc E → CallerPc E
  | .waiting _ => .waiting false
  | pc => pc

def ended : CallerPc E → Bool
  | .returned | .threw _ => true
  | _ => false

def pastWait : CallerPc E → Bool
  | .scheduling | .waiting _ => false
  | _ => true

def inWaitAll : CallerPc E → Bool
  | .waiting _ | .getting _ => true
  | _ => false

theorem inWaitAll_notified (caller : CallerPc E) : caller.notified.inWaitAll = caller.inWaitAll := by
  cases caller <;> rfl

theorem pastWait_notified (caller : CallerPc E) : caller.notified.pastWait = caller.pastWait := by
  cases caller <;> rfl

end CallerPc

/-- The pool, the executor and their caller. A task is what its run comes to,
and is named by the number of tasks scheduled before it. -/
structure ExecutorRun (E : Type) where
  idleNum : Nat
  stopped : Bool := false
  jobs : List Nat := []
  workers : List WorkerPc
  tasks : List (Except E Unit) := []
  /-- What each `packaged_task` has stored; none before its run. -/
  futures : List (Option (Except E Unit)) := []
  caller : CallerPc E := .scheduling
  log : List Nat := []

inductive ExecutorAct (E : Type)
  /-- `Schedule`, which notifies the worker, if one is asleep. -/
  | schedule (task : Except E Unit) (worker : Option Nat)
  | waitAll
  | wait
  | get
  /-- A worker's first critical section. -/
  | check (worker : Nat)
  | run (worker : Nat)
  /-- A worker's second critical section. -/
  | complete (worker : Nat)
  | destroy
  | wakeWorker (worker : Nat)
  | wakeCaller

def ExecutorAct.spurious {E : Type} : ExecutorAct E → Bool
  | .wakeWorker _ | .wakeCaller => true
  | _ => false

/-- A worker goes on, or the caller in `WaitAll`. -/
def ExecutorAct.works {E : Type} : ExecutorAct E → Bool
  | .wait | .get | .check _ | .run _ | .complete _ => true
  | _ => false

namespace ExecutorRun

variable {E : Type}

/-- `ThreadPool(thread_num)`, its workers at the start of their loops. -/
def new (threadNum : Nat) : ExecutorRun E :=
  { idleNum := threadNum, workers := List.replicate threadNum .checking }

def setWorker (s : ExecutorRun E) (w : Nat) (pc : WorkerPc) : ExecutorRun E :=
  { s with workers := s.workers.set w pc }

/-- `new_job_cv_.notify_one()`: one of those asleep, if any. -/
def notifyOne (s : ExecutorRun E) : Option Nat → Option (ExecutorRun E)
  | some w => if s.workers[w]? = some .asleep then some (s.setWorker w .checking) else none
  | none => if .asleep ∈ s.workers then none else some s

/-- The condition of `Wait`. -/
def waitDone (s : ExecutorRun E) : Bool := s.stopped || (s.idleNum == s.workers.length && s.jobs.isEmpty)

/-- The first critical section, up to its end or to a wait that blocks. -/
def takeJob (s : ExecutorRun E) (w : Nat) : ExecutorRun E :=
  if s.stopped then s.setWorker w .exited
  else match s.jobs with
    | [] => s.setWorker w .asleep
    | job :: jobs => { s with jobs, idleNum := s.idleNum - 1 }.setWorker w (.running job)

def step (s : ExecutorRun E) : ExecutorAct E → Option (ExecutorRun E)
  | .schedule task worker => match s.caller, s.stopped with
    | .scheduling, false =>
      { s with jobs := s.jobs ++ [s.tasks.length]
               tasks := s.tasks ++ [task]
               futures := s.futures ++ [none] }.notifyOne worker
    | _, _ => none
  | .waitAll => match s.caller, s.stopped with
    | .scheduling, false => some { s with caller := .waiting false }
    | _, _ => none
  | .wait => match s.caller with
    | .waiting false => some { s with caller := if s.waitDone then .getting 0 else .waiting true }
    | _ => none
  | .get => match s.caller with
    | .getting next => match s.futures[next]? with
      | none => some { s with caller := .returned }
      | some none => none
      | some (some (.ok ())) => some { s with caller := .getting (next + 1) }
      | some (some (.error e)) => some { s with caller := .threw e }
    | _ => none
  | .check w => match s.workers[w]? with
    | some .checking => some (s.takeJob w)
    | _ => none
  | .run w => match s.workers[w]? with
    | some (.running job) => (s.tasks[job]?).map fun task =>
      { s with futures := s.futures.set job (some task), log := s.log ++ [job] }.setWorker w (.ran job)
    | _ => none
  | .complete w => match s.workers[w]? with
    | some (.ran _) => some ({ s with idleNum := s.idleNum + 1, caller := s.caller.notified }.setWorker w .checking)
    | _ => none
  | .destroy => match s.caller.inWaitAll, s.stopped with
    | false, false =>
      some { s with stopped := true, workers := s.workers.map WorkerPc.notified }
    | _, _ => none
  | .wakeWorker w => match s.workers[w]? with
    | some .asleep => some (s.setWorker w .checking)
    | _ => none
  | .wakeCaller => match s.caller with
    | .waiting true => some { s with caller := .waiting false }
    | _ => none

/-- What each step finds and does. -/
inductive Step (s : ExecutorRun E) : ExecutorAct E → ExecutorRun E → Prop
  | schedule {s' : ExecutorRun E} (task : Except E Unit) (worker : Option Nat) (caller : s.caller = .scheduling)
    (notify : { s with jobs := s.jobs ++ [s.tasks.length]
                       tasks := s.tasks ++ [task]
                       futures := s.futures ++ [none] }.notifyOne worker = some s') : Step s (.schedule task worker) s'
  | waitAll (caller : s.caller = .scheduling) (alive : s.stopped = false) : Step s .waitAll { s with caller := .waiting false }
  | goOn (caller : s.caller = .waiting false) (done : s.waitDone = true) : Step s .wait { s with caller := .getting 0 }
  | sleep (caller : s.caller = .waiting false) (done : s.waitDone = false) : Step s .wait { s with caller := .waiting true }
  | finish {next : Nat} (caller : s.caller = .getting next) (future : s.futures[next]? = none) :
    Step s .get { s with caller := .returned }
  | next {next : Nat} (caller : s.caller = .getting next) (future : s.futures[next]? = some (some (.ok ()))) :
    Step s .get { s with caller := .getting (next + 1) }
  | throw {next : Nat} {e : E} (caller : s.caller = .getting next) (future : s.futures[next]? = some (some (.error e))) :
    Step s .get { s with caller := .threw e }
  | check {w : Nat} (worker : s.workers[w]? = some .checking) : Step s (.check w) (s.takeJob w)
  | run {w job : Nat} {task : Except E Unit} (worker : s.workers[w]? = some (.running job)) (found : s.tasks[job]? = some task) :
    Step s (.run w) ({ s with futures := s.futures.set job (some task), log := s.log ++ [job] }.setWorker w (.ran job))
  | complete {w job : Nat} (worker : s.workers[w]? = some (.ran job)) :
    Step s (.complete w) ({ s with idleNum := s.idleNum + 1, caller := s.caller.notified }.setWorker w .checking)
  | destroy (caller : s.caller.inWaitAll = false) :
    Step s .destroy { s with stopped := true, workers := s.workers.map WorkerPc.notified }
  | wakeWorker {w : Nat} (worker : s.workers[w]? = some .asleep) : Step s (.wakeWorker w) (s.setWorker w .checking)
  | wakeCaller (caller : s.caller = .waiting true) : Step s .wakeCaller { s with caller := .waiting false }

theorem step_cases {s s' : ExecutorRun E} {a : ExecutorAct E} (hs : s.step a = some s') : Step s a s' := by
  unfold step at hs
  cases a with
  | schedule task worker =>
    dsimp only at hs
    split at hs
    next hc _ => exact .schedule task worker hc hs
    next => cases hs
  | waitAll =>
    dsimp only at hs
    split at hs
    next hc halive =>
      cases hs
      exact .waitAll hc halive
    next => cases hs
  | wait =>
    dsimp only at hs
    split at hs
    next hc =>
      cases hs
      split
      next hdone => exact .goOn hc hdone
      next hdone => exact .sleep hc (Bool.eq_false_iff.mpr hdone)
    next => cases hs
  | get =>
    dsimp only at hs
    split at hs
    next hc =>
      split at hs
      next hf =>
        cases hs
        exact .finish hc hf
      next => cases hs
      next hf =>
        cases hs
        exact .next hc hf
      next hf =>
        cases hs
        exact .throw hc hf
    next => cases hs
  | check w =>
    dsimp only at hs
    split at hs
    next hw =>
      cases hs
      exact .check hw
    next => cases hs
  | run w =>
    dsimp only at hs
    split at hs
    next hw =>
      obtain ⟨task, htask, rfl⟩ := Option.map_eq_some_iff.mp hs
      exact .run hw htask
    next => cases hs
  | complete w =>
    dsimp only at hs
    split at hs
    next hw =>
      cases hs
      exact .complete hw
    next => cases hs
  | destroy =>
    dsimp only at hs
    split at hs
    next hc _ =>
      cases hs
      exact .destroy hc
    next => cases hs
  | wakeWorker w =>
    dsimp only at hs
    split at hs
    next hw =>
      cases hs
      exact .wakeWorker hw
    next => cases hs
  | wakeCaller =>
    dsimp only at hs
    split at hs
    next hc =>
      cases hs
      exact .wakeCaller hc
    next => cases hs

/-! ## What every step keeps -/

/-- What the futures gotten so far say of the tasks. -/
def Got (tasks : List (Except E Unit)) : CallerPc E → Prop
  | .scheduling | .waiting _ => True
  | .getting next => ∀ i < next, tasks[i]? = some (.ok ())
  | .returned => ∀ task ∈ tasks, task = .ok ()
  | .threw e => ∃ i : Nat, tasks[i]? = some (.error e) ∧ ∀ j < i, tasks[j]? = some (.ok ())

structure Inv (threadNum : Nat) (s : ExecutorRun E) : Prop where
  size : s.workers.length = threadNum
  balance : s.idleNum + s.workers.countP WorkerPc.busy = s.workers.length
  /-- Each job is in the queue, held by a worker or run, once. -/
  jobs : (s.jobs ++ s.workers.filterMap WorkerPc.holds ++ s.log).Perm (List.range s.tasks.length)
  futures : ∀ i, s.futures[i]? = (s.tasks[i]?).map fun task => if i ∈ s.log then some task else none
  drained : s.caller.pastWait = true → s.jobs = [] ∧ s.workers.countP WorkerPc.busy = 0
  got : Got s.tasks s.caller
  /-- The pool is not destroyed before `WaitAll` ends. -/
  alive : s.caller.inWaitAll = true → s.stopped = false

variable {threadNum : Nat} {s s' : ExecutorRun E} {w : Nat} {pc pc' : WorkerPc}

theorem Inv.new (threadNum : Nat) : Inv threadNum (new threadNum : ExecutorRun E) := by
  refine ⟨List.length_replicate .., ?_, ?_, fun i => rfl, nofun, trivial, nofun⟩
  · simp [ExecutorRun.new, WorkerPc.busy]
  · simp [ExecutorRun.new, WorkerPc.holds]

theorem Inv.mem_log_lt (h : Inv threadNum s) {i : Nat} (hi : i ∈ s.log) : i < s.tasks.length :=
  List.mem_range.mp (h.jobs.mem_iff.mp (List.mem_append_right _ hi))

theorem Inv.futures_length (h : Inv threadNum s) : s.futures.length = s.tasks.length := by
  have htasks := h.futures s.tasks.length
  have hfutures := h.futures s.futures.length
  rw [List.getElem?_eq_none (Nat.le_refl _), Option.map_none, List.getElem?_eq_none_iff] at htasks
  rw [List.getElem?_eq_none (Nat.le_refl _), eq_comm, Option.map_eq_none_iff,
    List.getElem?_eq_none_iff] at hfutures
  omega

theorem Inv.pastWait_of_busy (h : Inv threadNum s) (hw : s.workers[w]? = some pc) (hbusy : pc.busy = true) :
    s.caller.pastWait = false := by
  rw [Bool.eq_false_iff]
  intro hpast
  exact List.countP_eq_zero.mp (h.drained hpast).2 pc (List.mem_of_getElem? hw) hbusy

theorem Inv.setWorker (h : Inv threadNum s) (hw : s.workers[w]? = some pc) (hbusy : pc'.busy = pc.busy)
    (hholds : pc'.holds = pc.holds) : Inv threadNum (s.setWorker w pc') := by
  have hcount : (s.workers.set w pc').countP WorkerPc.busy = s.workers.countP WorkerPc.busy := by
    have hset := countP_set_add (p := WorkerPc.busy) hw pc'
    rw [hbusy] at hset
    omega
  have hheld := filterMap_set_perm WorkerPc.holds hw pc'
  rw [hholds] at hheld
  have hheld' := (List.perm_append_right_iff _).mp hheld
  refine ⟨?_, ?_, ?_, h.futures, fun hpast => ?_, h.got, h.alive⟩
  · rw [← h.size]
    exact List.length_set
  · change s.idleNum + (s.workers.set w pc').countP _ = (s.workers.set w pc').length
    rw [hcount, List.length_set, h.balance]
  · exact ((hheld'.append_left _).append_right _).trans h.jobs
  · exact ⟨(h.drained hpast).1, hcount.trans (h.drained hpast).2⟩

theorem Inv.setCaller (h : Inv threadNum s) {caller : CallerPc E}
    (hpast : caller.pastWait = s.caller.pastWait) (hgot : Got s.tasks caller)
    (halive : caller.inWaitAll = true → s.stopped = false) : Inv threadNum { s with caller } :=
  ⟨h.size, h.balance, h.jobs, h.futures, fun hp => h.drained (hpast.symm.trans hp), hgot, halive⟩

theorem Inv.notifyOne (h : Inv threadNum s) {worker : Option Nat} (hs : s.notifyOne worker = some s') :
    Inv threadNum s' := by
  cases worker with
  | none =>
    simp only [ExecutorRun.notifyOne] at hs
    split at hs
    · cases hs
    · cases hs
      exact h
  | some w =>
    simp only [ExecutorRun.notifyOne] at hs
    split at hs
    next hw =>
      cases hs
      exact h.setWorker hw rfl rfl
    next => cases hs

theorem Inv.schedule (h : Inv threadNum s) (hcaller : s.caller = .scheduling) (task : Except E Unit) :
    Inv threadNum { s with jobs := s.jobs ++ [s.tasks.length]
                           tasks := s.tasks ++ [task]
                           futures := s.futures ++ [none] } := by
  refine ⟨h.size, h.balance, ?_, fun i => ?_, fun hpast => ?_, ?_, h.alive⟩
  · dsimp only
    rw [List.length_append, List.length_singleton, List.range_succ, List.append_assoc, List.append_assoc]
    refine (List.perm_append_comm.append_left _).trans ?_
    rw [← List.append_assoc, ← List.append_assoc]
    exact h.jobs.append_right _
  · have hnot : s.tasks.length ∉ s.log := fun hlog => absurd (h.mem_log_lt hlog) (Nat.lt_irrefl _)
    have hold := h.futures i
    dsimp only
    rw [List.getElem?_append, List.getElem?_append, h.futures_length]
    split
    next hi => exact hold
    next hi =>
      rw [List.getElem?_singleton, List.getElem?_singleton]
      split
      next hzero =>
        have hi' : i = s.tasks.length := by omega
        rw [Option.map_some, if_neg (hi' ▸ hnot)]
      next => rfl
  · rw [hcaller] at hpast
    cases hpast
  · dsimp only
    rw [hcaller]
    trivial

theorem Inv.take (h : Inv threadNum s) (hw : s.workers[w]? = some .checking) {job : Nat} {jobs : List Nat}
    (hjobs : s.jobs = job :: jobs) :
    Inv threadNum ({ s with jobs, idleNum := s.idleNum - 1 }.setWorker w (.running job)) := by
  have hcount := countP_set_add (p := WorkerPc.busy) hw (.running job)
  have hheld := filterMap_set_perm WorkerPc.holds hw (.running job)
  have hle : (s.workers.set w (.running job)).countP WorkerPc.busy ≤ (s.workers.set w (.running job)).length :=
    List.countP_le_length
  rw [List.length_set] at hle
  simp only [WorkerPc.busy, WorkerPc.holds, Bool.false_eq_true, if_true, if_false, Option.toList_none,
    Option.toList_some,
    List.append_nil, Nat.add_zero] at hcount hheld
  have hbalance := h.balance
  refine ⟨?_, ?_, ?_, h.futures, fun hpast => ?_, h.got, h.alive⟩
  · rw [← h.size]
    exact List.length_set
  · change s.idleNum - 1 + (s.workers.set w (.running job)).countP _ = (s.workers.set w (.running job)).length
    rw [List.length_set]
    omega
  · have hall := h.jobs
    rw [hjobs] at hall
    refine List.Perm.trans ?_ hall
    change ((jobs ++ (s.workers.set w (.running job)).filterMap _) ++ s.log).Perm _
    refine List.Perm.append_right _ ?_
    refine (hheld.append_left _).trans ?_
    rw [← List.append_assoc]
    exact List.perm_append_comm
  · have hnil := (h.drained hpast).1
    rw [hjobs] at hnil
    cases hnil

theorem Inv.takeJob (h : Inv threadNum s) (hw : s.workers[w]? = some .checking) :
    Inv threadNum (s.takeJob w) := by
  unfold ExecutorRun.takeJob
  split
  · exact h.setWorker hw rfl rfl
  · split
    next => exact h.setWorker hw rfl rfl
    next job jobs hjobs => exact h.take hw hjobs

theorem Inv.run (h : Inv threadNum s) {job : Nat} (hw : s.workers[w]? = some (.running job))
    {task : Except E Unit} (htask : s.tasks[job]? = some task) :
    Inv threadNum ({ s with futures := s.futures.set job (some task), log := s.log ++ [job] }.setWorker w
      (.ran job)) := by
  have hcount := countP_set_add (p := WorkerPc.busy) hw (.ran job)
  have hheld := filterMap_set_perm WorkerPc.holds hw (.ran job)
  simp only [WorkerPc.busy, WorkerPc.holds, if_true, Option.toList_none, Option.toList_some,
    List.append_nil] at hcount hheld
  refine ⟨?_, ?_, ?_, fun i => ?_, fun hpast => ?_, h.got, h.alive⟩
  · rw [← h.size]
    exact List.length_set
  · change s.idleNum + (s.workers.set w (.ran job)).countP _ = (s.workers.set w (.ran job)).length
    have hbalance := h.balance
    rw [List.length_set]
    omega
  · refine List.Perm.trans ?_ h.jobs
    change ((s.jobs ++ (s.workers.set w (.ran job)).filterMap _) ++ (s.log ++ [job])).Perm _
    rw [List.append_assoc, List.append_assoc]
    refine List.Perm.append_left _ ?_
    refine (List.perm_append_comm.append_left _).trans ?_
    rw [← List.append_assoc]
    exact hheld.append_right _
  · change (s.futures.set job (some task))[i]? = (s.tasks[i]?).map fun task => if i ∈ s.log ++
      [job] then some task else none
    have hlt : job < s.futures.length := by
      rw [h.futures_length]
      exact (List.getElem?_eq_some_iff.mp htask).1
    by_cases hi : job = i
    · subst hi
      rw [List.getElem?_set_self hlt, htask, Option.map_some, if_pos (by simp)]
    · have hi' : i ≠ job := fun he => hi he.symm
      rw [List.getElem?_set_ne hi, h.futures i]
      simp [hi']
  · exact absurd hpast (Bool.eq_false_iff.mp (h.pastWait_of_busy hw rfl))

theorem Inv.complete (h : Inv threadNum s) {job : Nat} (hw : s.workers[w]? = some (.ran job)) :
    Inv threadNum ({ s with idleNum := s.idleNum + 1, caller := s.caller.notified }.setWorker w .checking) := by
  have hcount := countP_set_add (p := WorkerPc.busy) hw .checking
  have hheld := filterMap_set_perm WorkerPc.holds hw .checking
  simp only [WorkerPc.busy, WorkerPc.holds, Bool.false_eq_true, if_true, if_false, Option.toList_none,
    List.append_nil,
    Nat.add_zero] at hcount hheld
  refine ⟨?_, ?_, ?_, h.futures, fun hpast => ?_, ?_,
    fun hin => h.alive ((CallerPc.inWaitAll_notified _).symm.trans hin)⟩
  · rw [← h.size]
    exact List.length_set
  · change s.idleNum + 1 + (s.workers.set w .checking).countP _ = (s.workers.set w .checking).length
    have hbalance := h.balance
    rw [List.length_set]
    omega
  · exact ((hheld.append_left _).append_right _).trans h.jobs
  · exact absurd ((CallerPc.pastWait_notified _).symm.trans hpast)
      (Bool.eq_false_iff.mp (h.pastWait_of_busy hw rfl))
  · change Got s.tasks s.caller.notified
    have hgot := h.got
    cases hc : s.caller with
    | waiting asleep => trivial
    | scheduling | getting next | returned | threw e =>
      rw [hc] at hgot
      exact hgot

theorem Inv.wait (h : Inv threadNum s) {asleep : Bool} (hcaller : s.caller = .waiting asleep)
    (hdone : s.waitDone = true) :
    Inv threadNum { s with caller := .getting 0 } := by
  have halive : s.stopped = false := h.alive (by rw [hcaller]; rfl)
  rw [waitDone, halive, Bool.false_or, Bool.and_eq_true, beq_iff_eq, List.isEmpty_iff] at hdone
  refine ⟨h.size, h.balance, h.jobs, h.futures, fun _ => ⟨hdone.2, ?_⟩,
    fun i hi => absurd hi (Nat.not_lt_zero i), fun _ => halive⟩
  have hbalance := h.balance
  dsimp only
  omega

theorem Inv.task_of_future (h : Inv threadNum s) {i : Nat} {result : Except E Unit}
    (hf : s.futures[i]? = some (some result)) :
    s.tasks[i]? = some result := by
  have hfuture := h.futures i
  rw [hf] at hfuture
  obtain ⟨task, htask, hresult⟩ := Option.map_eq_some_iff.mp hfuture.symm
  split at hresult
  · cases hresult
    exact htask
  · cases hresult

theorem Inv.destroy (h : Inv threadNum s) (hcaller : s.caller.inWaitAll = false) :
    Inv threadNum { s with stopped := true, workers := s.workers.map WorkerPc.notified } := by
  have hbusy : WorkerPc.busy ∘ WorkerPc.notified = WorkerPc.busy := by
    funext pc
    cases pc <;> rfl
  have hholds : WorkerPc.holds ∘ WorkerPc.notified = WorkerPc.holds := by
    funext pc
    cases pc <;> rfl
  refine ⟨(List.length_map _).trans h.size, ?_, ?_, h.futures, fun hpast => ?_, h.got, fun hin => ?_⟩
  · dsimp only
    rw [List.countP_map, hbusy, List.length_map, h.balance]
  · dsimp only
    rw [List.filterMap_map, hholds]
    exact h.jobs
  · dsimp only
    rw [List.countP_map, hbusy]
    exact h.drained hpast
  · exact absurd (hcaller.symm.trans hin) Bool.false_ne_true

theorem Inv.step (h : Inv threadNum s) {a : ExecutorAct E} (hs : s.step a = some s') : Inv threadNum s' := by
  have hgot := h.got
  cases step_cases hs with
  | schedule task worker hc hn => exact (h.schedule hc task).notifyOne hn
  | waitAll hc halive => exact h.setCaller (by rw [hc]; rfl) trivial fun _ => halive
  | goOn hc hdone => exact h.wait hc hdone
  | sleep hc | wakeCaller hc => exact h.setCaller (by rw [hc]; rfl) trivial fun _ => h.alive (by rw [hc]; rfl)
  | finish hc hf =>
    refine h.setCaller (by rw [hc]; rfl) (fun task htask => ?_) nofun
    obtain ⟨i, hi, rfl⟩ := List.getElem_of_mem htask
    rw [List.getElem?_eq_none_iff, h.futures_length] at hf
    rw [hc] at hgot
    have hok := hgot i (by omega)
    rw [List.getElem?_eq_getElem hi] at hok
    exact Option.some.inj hok
  | next hc hf =>
    refine h.setCaller (by rw [hc]; rfl) (fun i hi => ?_) fun _ => h.alive (by rw [hc]; rfl)
    rw [hc] at hgot
    rcases Nat.lt_succ_iff_lt_or_eq.mp hi with hi | rfl
    · exact hgot i hi
    · exact h.task_of_future hf
  | throw hc hf =>
    rw [hc] at hgot
    exact h.setCaller (by rw [hc]; rfl) ⟨_, h.task_of_future hf, hgot⟩ nofun
  | check hw => exact h.takeJob hw
  | run hw htask => exact h.run hw htask
  | complete hw => exact h.complete hw
  | destroy hc => exact h.destroy hc
  | wakeWorker hw => exact h.setWorker hw rfl rfl

/-! ## No wake-up is lost -/

/-- Whoever has something to do is awake. -/
structure Awake (s : ExecutorRun E) : Prop where
  worker : s.jobs ≠ [] → ∃ pc ∈ s.workers, pc ≠ .asleep
  caller : s.caller = .waiting true → s.waitDone = false
  working : s.stopped = false → .exited ∉ s.workers

theorem Awake.new (threadNum : Nat) : Awake (new threadNum : ExecutorRun E) :=
  ⟨fun hjobs => absurd rfl hjobs, nofun, fun _ hmem => by simp [ExecutorRun.new] at hmem⟩

theorem mem_setWorker (hw : s.workers[w]? = some pc) : pc' ∈ (s.setWorker w pc').workers :=
  List.mem_iff_getElem?.mpr ⟨w, List.getElem?_set_self (List.getElem?_eq_some_iff.mp hw).1⟩

theorem Inv.waitDone_of_busy (h : Inv threadNum s) (halive : s.stopped = false) (hpc : pc ∈ s.workers)
    (hbusy : pc.busy = true) :
    s.waitDone = false := by
  have hpos : 0 < s.workers.countP WorkerPc.busy := List.countP_pos_iff.mpr ⟨pc, hpc, hbusy⟩
  have hbalance := h.balance
  have hne : ¬s.idleNum = s.workers.length := by omega
  rw [waitDone, halive, Bool.false_or, beq_eq_false_iff_ne.mpr hne, Bool.false_and]

theorem not_exited_of_set {pc' : WorkerPc} (h : .exited ∉ s.workers) (hpc : pc' ≠ .exited) :
    .exited ∉ s.workers.set w pc' := by
  intro hmem
  rcases List.mem_or_eq_of_mem_set hmem with hmem | heq
  · exact h hmem
  · exact hpc heq.symm

/-- A worker that is not asleep is where it has moved to. -/
theorem Awake.setWorker (h : Awake s) (hw : s.workers[w]? = some pc) (hpc : pc' ≠ .asleep)
    (hpc' : pc' ≠ .exited) :
    Awake (s.setWorker w pc') := by
  refine ⟨fun _ => ⟨pc', mem_setWorker hw, hpc⟩, fun hc => ?_,
    fun halive => not_exited_of_set (h.working halive) hpc'⟩
  rw [← h.caller hc]
  unfold waitDone ExecutorRun.setWorker
  rw [List.length_set]

theorem Awake.takeJob (hinv : Inv threadNum s) (h : Awake s) (hw : s.workers[w]? = some .checking) :
    Awake (s.takeJob w) := by
  unfold ExecutorRun.takeJob
  split
  next hstopped =>
    have hdead : s.stopped ≠ false := fun halive => Bool.false_ne_true (halive.symm.trans hstopped)
    refine ⟨fun _ => ⟨.exited, mem_setWorker hw, nofun⟩, fun hc => ?_, fun halive => absurd halive hdead⟩
    exact absurd (hinv.alive (by rw [show s.caller = _ from hc]; rfl)) hdead
  next hstopped =>
    have halive : s.stopped = false := Bool.eq_false_iff.mpr hstopped
    split
    next hjobs =>
      refine ⟨fun hne => absurd hjobs hne, fun hc => ?_, fun _ => not_exited_of_set (h.working halive) nofun⟩
      rw [← h.caller hc]
      unfold waitDone ExecutorRun.setWorker
      rw [List.length_set]
    next job jobs hjobs =>
      exact ⟨fun _ => ⟨.running job, mem_setWorker hw, nofun⟩,
        fun _ => (hinv.take hw hjobs).waitDone_of_busy halive (mem_setWorker hw) rfl,
        fun _ => not_exited_of_set (h.working halive) nofun⟩

theorem Awake.notifyOne (h : Awake s) (hc : s.caller = .scheduling) (hpos : 0 < s.workers.length)
    {task : Except E Unit} {worker : Option Nat}
    (hn : { s with jobs := s.jobs ++ [s.tasks.length]
                   tasks := s.tasks ++ [task]
                   futures := s.futures ++ [none] }.notifyOne worker = some s') : Awake s' := by
  have hcaller : s.caller ≠ .waiting true := fun he => by rw [hc] at he; cases he
  cases worker with
  | none =>
    simp only [ExecutorRun.notifyOne] at hn
    split at hn
    next => cases hn
    next hasleep =>
      cases hn
      obtain ⟨pc, hpc⟩ := List.exists_mem_of_length_pos hpos
      exact ⟨fun _ => ⟨pc, hpc, fun he => hasleep (he ▸ hpc)⟩, fun he => absurd he hcaller, h.working⟩
  | some w =>
    simp only [ExecutorRun.notifyOne] at hn
    split at hn
    next hw =>
      cases hn
      exact ⟨fun _ => ⟨.checking, mem_setWorker hw, nofun⟩, fun he => absurd he hcaller,
        fun halive => not_exited_of_set (h.working halive) nofun⟩
    next => cases hn

theorem Awake.step (hinv : Inv threadNum s) (hpos : 0 < threadNum) (h : Awake s) {a : ExecutorAct E}
    (hs : s.step a = some s') : Awake s' := by
  have hinv' := hinv.step hs
  cases step_cases hs with
  | schedule task worker hc hn => exact h.notifyOne hc (hinv.size ▸ hpos) hn
  | waitAll | goOn | finish | next | throw | wakeCaller => exact ⟨h.worker, nofun, h.working⟩
  | sleep _ hdone => exact ⟨h.worker, fun _ => hdone, h.working⟩
  | check hw => exact h.takeJob hinv hw
  | run hw htask =>
    exact ⟨fun _ => ⟨_, mem_setWorker hw, nofun⟩,
      fun hc => hinv'.waitDone_of_busy (hinv.alive (by rw [show s.caller = _ from hc]; rfl))
        (mem_setWorker hw) rfl,
      fun halive => not_exited_of_set (h.working halive) nofun⟩
  | complete hw =>
    refine ⟨fun _ => ⟨.checking, mem_setWorker hw, nofun⟩, fun hc => ?_,
      fun halive => not_exited_of_set (h.working halive) nofun⟩
    change s.caller.notified = .waiting true at hc
    cases hcaller : s.caller with
    | scheduling | waiting asleep | getting next | returned | threw e =>
      rw [hcaller] at hc
      cases hc
  | destroy hc =>
    refine ⟨fun _ => ?_, fun he => ?_, nofun⟩
    · obtain ⟨pc, hpc⟩ := List.exists_mem_of_length_pos (hinv.size ▸ hpos)
      exact ⟨pc.notified, List.mem_map_of_mem hpc, by cases pc <;> nofun⟩
    · rw [show s.caller = _ from he] at hc
      cases hc
  | wakeWorker hw => exact h.setWorker hw nofun nofun

/-- After the wait every job has run. -/
theorem Inv.mem_log (h : Inv threadNum s) (hpast : s.caller.pastWait = true) {i : Nat}
    (hi : i < s.tasks.length) : i ∈ s.log := by
  obtain ⟨hnil, hzero⟩ := h.drained hpast
  have hheld : s.workers.filterMap WorkerPc.holds = [] := by
    rw [List.filterMap_eq_nil_iff]
    intro pc hpc
    have hbusy := List.countP_eq_zero.mp hzero pc hpc
    cases pc with
    | running job => exact absurd rfl hbusy
    | checking | asleep | ran job | exited => rfl
  have hjobs := h.jobs
  rw [hnil, hheld, List.nil_append, List.nil_append] at hjobs
  exact hjobs.mem_iff.mpr (List.mem_range.mpr hi)

/-- An awake worker has a step to take. -/
theorem Awake.worker_step (hinv : Inv threadNum s) (h : Awake s) (halive : s.stopped = false)
    (hpc : pc ∈ s.workers) (hne : pc ≠ .asleep) :
    ∃ a : ExecutorAct E, a.spurious = false ∧ (s.step a).isSome = true := by
  obtain ⟨w, hw⟩ := List.mem_iff_getElem?.mp hpc
  cases pc with
  | checking => exact ⟨.check w, rfl, by simp only [ExecutorRun.step, hw, Option.isSome_some]⟩
  | asleep => exact absurd rfl hne
  | running job =>
    have hlt : job < s.tasks.length := by
      have hheld : job ∈ s.workers.filterMap WorkerPc.holds := List.mem_filterMap.mpr ⟨_, hpc, rfl⟩
      exact List.mem_range.mp (hinv.jobs.mem_iff.mp (List.mem_append_left _ (List.mem_append_right _ hheld)))
    refine ⟨.run w, rfl, ?_⟩
    simp only [ExecutorRun.step, hw, List.getElem?_eq_getElem hlt, Option.map_some, Option.isSome_some]
  | ran job => exact ⟨.complete w, rfl, by simp only [ExecutorRun.step, hw, Option.isSome_some]⟩
  | exited => exact absurd hpc (h.working halive)

/-- `WaitAll` is never blocked with all asleep. -/
theorem Awake.unblocked (hinv : Inv threadNum s) (h : Awake s) (hin : s.caller.inWaitAll = true) :
    ∃ a : ExecutorAct E, a.spurious = false ∧ (s.step a).isSome = true := by
  have halive := hinv.alive hin
  cases hc : s.caller with
  | scheduling | returned | threw e =>
    rw [hc] at hin
    cases hin
  | waiting asleep =>
    cases asleep with
    | false => exact ⟨.wait, rfl, by simp only [ExecutorRun.step, hc, Option.isSome_some]⟩
    | true =>
      have hdone := h.caller hc
      by_cases hjobs : s.jobs = []
      · rw [waitDone, halive, hjobs, Bool.false_or, List.isEmpty_nil, Bool.and_true, beq_eq_false_iff_ne] at hdone
        have hbalance := hinv.balance
        obtain ⟨pc, hpc, hbusy⟩ := List.countP_pos_iff.mp (show 0 < s.workers.countP WorkerPc.busy by omega)
        exact h.worker_step hinv halive hpc fun he => by rw [he] at hbusy; cases hbusy
      · obtain ⟨pc, hpc, hne⟩ := h.worker hjobs
        exact h.worker_step hinv halive hpc hne
  | getting next =>
    refine ⟨.get, rfl, ?_⟩
    have hfuture := hinv.futures next
    simp only [ExecutorRun.step, hc]
    cases hf : s.futures[next]? with
    | none => rfl
    | some result =>
      rw [hf] at hfuture
      obtain ⟨task, htask, hresult⟩ := Option.map_eq_some_iff.mp hfuture.symm
      rw [if_pos (hinv.mem_log (by rw [hc]; rfl) (List.getElem?_eq_some_iff.mp htask).1)] at hresult
      subst hresult
      cases task <;> rfl

/-! ## How long it takes -/

def effort : WorkerPc → Nat
  | .asleep | .exited => 0
  | .checking => 1
  | .ran _ => 3
  | .running _ => 4

def toGet (tasks : Nat) : CallerPc E → Nat
  | .waiting true => tasks + 2
  | .waiting false => tasks + 3
  | .getting next => tasks + 1 - next
  | _ => 0

/-- Steps that are left before `WaitAll` ends, spurious wake-ups aside. -/
def work (s : ExecutorRun E) : Nat :=
  5 * s.jobs.length + (s.workers.map effort).sum + toGet s.tasks.length s.caller

theorem work_setWorker (s : ExecutorRun E) (hw : s.workers[w]? = some pc) (pc' : WorkerPc) :
    (s.setWorker w pc').work + effort pc = s.work + effort pc' := by
  have hset := sum_map_set_add (f := effort) hw pc'
  change 5 * s.jobs.length + ((s.workers.set w pc').map effort).sum + _ + _ = 5 * s.jobs.length + _ + _ + _
  change _ + _ + toGet s.tasks.length s.caller + _ = _
  omega

theorem le_of_got {tasks : List (Except E Unit)} {next : Nat} (h : Got tasks (.getting next)) :
    next ≤ tasks.length := by
  by_contra hlt
  have hlast := h tasks.length (by omega)
  rw [List.getElem?_eq_none (Nat.le_refl _)] at hlast
  cases hlast

/-- A step of a worker, or of the caller in `WaitAll`, uses up work. -/
theorem Inv.work_lt_of_works (h : Inv threadNum s) (halive : s.stopped = false) {a : ExecutorAct E}
    (ha : a.works = true) (hs : s.step a = some s') : s'.work < s.work := by
  have hgot := h.got
  cases step_cases hs with
  | schedule | waitAll | destroy | wakeWorker | wakeCaller => cases ha
  | goOn hc | sleep hc =>
    simp only [work, hc, toGet]
    omega
  | finish hc hf =>
    rw [hc] at hgot
    have hle := le_of_got hgot
    simp only [work, hc, toGet]
    omega
  | next hc hf | throw hc hf =>
    have hlt := (List.getElem?_eq_some_iff.mp hf).1
    rw [h.futures_length] at hlt
    simp only [work, hc, toGet]
    omega
  | check hw =>
    unfold ExecutorRun.takeJob
    rw [if_neg (Bool.eq_false_iff.mp halive)]
    split
    next =>
      have hset := s.work_setWorker hw .asleep
      simp only [effort] at hset
      omega
    next job jobs hjobs =>
      have hset := work_setWorker { s with jobs, idleNum := s.idleNum - 1 } hw (.running job)
      have hshorter : work { s with jobs, idleNum := s.idleNum - 1 } + 5 = s.work := by
        simp only [work, hjobs, List.length_cons]
        omega
      simp only [effort] at hset
      omega
  | @run w job task hw htask =>
    have hset := work_setWorker { s with futures := s.futures.set job (some task), log := s.log ++ [job] } hw
      (.ran job)
    simp only [effort, work] at hset ⊢
    omega
  | complete hw =>
    have hset := work_setWorker { s with idleNum := s.idleNum + 1, caller := s.caller.notified } hw .checking
    have hcaller : toGet s.tasks.length s.caller.notified ≤ toGet s.tasks.length s.caller + 1 := by
      cases s.caller with
      | waiting asleep => cases asleep <;> simp [CallerPc.notified, toGet]
      | scheduling | getting next | returned | threw e => simp [CallerPc.notified]
    simp only [effort, work] at hset ⊢
    omega

theorem Inv.work_lt (h : Inv threadNum s) (hin : s.caller.inWaitAll = true) {a : ExecutorAct E}
    (ha : a.spurious = false) (hs : s.step a = some s') : s'.work < s.work := by
  refine h.work_lt_of_works (h.alive hin) ?_ hs
  cases step_cases hs with
  | schedule task worker hc hn | waitAll hc =>
    rw [hc] at hin
    cases hin
  | destroy hc => exact absurd (hc.symm.trans hin) Bool.false_ne_true
  | wakeWorker | wakeCaller => cases ha
  | goOn | sleep | finish | next | throw | check | run | complete => rfl

/-- Before, in and after `WaitAll`. -/
def phase : CallerPc E → Nat
  | .scheduling => 0
  | .waiting _ | .getting _ => 1
  | .returned | .threw _ => 2

theorem phase_le {a : ExecutorAct E} (hs : s.step a = some s') : phase s.caller ≤ phase s'.caller := by
  cases step_cases hs with
  | schedule task worker hc | waitAll hc =>
    rw [hc]
    exact Nat.zero_le _
  | goOn hc | sleep hc | wakeCaller hc | next hc =>
    rw [hc]
    exact Nat.le_refl 1
  | finish hc | throw hc =>
    rw [hc]
    exact Nat.le_succ 1
  | check hw =>
    unfold ExecutorRun.takeJob
    split
    · exact Nat.le_refl _
    · split <;> exact Nat.le_refl _
  | complete hw =>
    change phase s.caller ≤ phase s.caller.notified
    cases s.caller <;> exact Nat.le_refl _
  | run | destroy | wakeWorker => exact Nat.le_refl _

theorem ended_of_phase {caller : CallerPc E} : caller.ended = true ↔ 2 ≤ phase caller := by
  cases caller <;> simp [CallerPc.ended, phase]

theorem inWaitAll_of_phase {caller : CallerPc E} : caller.inWaitAll = true ↔ phase caller = 1 := by
  cases caller <;> simp [CallerPc.inWaitAll, phase]

/-- A run in `WaitAll`, spurious wake-ups aside, is no longer than the work. -/
theorem Inv.length_add_work_le (h : Inv threadNum s) {acts : List (ExecutorAct E)}
    (hacts : ∀ a ∈ acts, a.spurious = false) (hs : exec ExecutorRun.step s acts = some s')
    (hin : s.caller.inWaitAll = true) :
    s'.caller.ended = true ∨ acts.length + s'.work ≤ s.work := by
  induction acts generalizing s with
  | nil =>
    cases hs
    exact .inr (by simp)
  | cons a acts ih =>
    obtain ⟨t, ht, hrun⟩ := exec_cons.mp hs
    have hwork := h.work_lt hin (hacts a List.mem_cons_self) ht
    have hphase := phase_le ht
    rw [inWaitAll_of_phase.mp hin] at hphase
    by_cases hend : 2 ≤ phase t.caller
    · exact .inl (ended_of_phase.mpr (exec_invariant (I := fun s : ExecutorRun E => 2 ≤ phase s.caller)
        (fun _ _ _ hle hstep => Nat.le_trans hle (phase_le hstep)) hrun hend))
    · have hin' : t.caller.inWaitAll = true := inWaitAll_of_phase.mpr (by omega)
      rcases ih (h.step ht) (fun a ha => hacts a (List.mem_cons_of_mem _ ha)) hrun hin' with hended | hle
      · exact .inl hended
      · refine .inr ?_
        rw [List.length_cons]
        omega

/-- What `WaitAll` promises, in every state. -/
structure IsBarrier (threadNum : Nat) (s : ExecutorRun E) : Prop where
  /-- Idle workers and workers at a job. -/
  balance : s.idleNum + s.workers.countP WorkerPc.busy = threadNum
  /-- No job is run twice. -/
  once : s.log.Nodup
  /-- After `WaitAll` every task has run, and no worker is at a job. -/
  finished : s.caller.ended = true → (∀ i < s.tasks.length, i ∈ s.log ∧ s.futures[i]? = (s.tasks[i]?).map some) ∧
    s.jobs = [] ∧ s.workers.countP WorkerPc.busy = 0
  throws : s.caller.ended = true → ((∃ e, s.caller = .threw e) ↔ ∃ e, .error e ∈ s.tasks)
  first : ∀ e, s.caller = .threw e → ∃ i : Nat, s.tasks[i]? = some (.error e) ∧ ∀ j < i, s.tasks[j]? = some (.ok ())
  unblocked : s.caller.inWaitAll = true → ∃ a : ExecutorAct E, a.spurious = false ∧ (s.step a).isSome = true

end ExecutorRun

/-- **`WaitAll` is a barrier**, for any tasks and however the threads take their steps. -/
theorem waitAll_barrier {E : Type} (threadNum : Nat) (hpos : 1 ≤ threadNum) (acts : List (ExecutorAct E))
    (s : ExecutorRun E) (h : exec ExecutorRun.step (.new threadNum) acts = some s) : s.IsBarrier threadNum :=
  by
  have hstep : ∀ (s : ExecutorRun E) a s', ExecutorRun.Inv threadNum s ∧ s.Awake → s.step a = some s' →
      ExecutorRun.Inv threadNum s' ∧ s'.Awake :=
        fun s a s' hs hstep => ⟨hs.1.step hstep, hs.2.step hs.1 hpos hstep⟩
  obtain ⟨hinv, hawake⟩ := exec_invariant (I := fun s : ExecutorRun E => ExecutorRun.Inv threadNum s ∧
    s.Awake) hstep h
    ⟨.new threadNum, .new threadNum⟩
  have hgot := hinv.got
  have hpast : s.caller.ended = true → s.caller.pastWait = true := by
    cases s.caller <;> intro hended <;> first | rfl | cases hended
  refine ⟨?_, ?_, fun hended => ⟨fun i hi => ⟨hinv.mem_log (hpast hended) hi, ?_⟩, hinv.drained (hpast hended)⟩,
    fun hended => ?_, fun e he => ?_, hawake.unblocked hinv⟩
  · rw [hinv.balance, hinv.size]
  · exact (List.nodup_append.mp (hinv.jobs.nodup_iff.mpr List.nodup_range)).2.1
  · have hlog := hinv.mem_log (hpast hended) hi
    rw [hinv.futures i]
    simp only [hlog, if_true]
  · cases hc : s.caller with
    | scheduling | waiting asleep | getting next =>
      rw [hc] at hended
      cases hended
    | returned =>
      rw [hc] at hgot
      constructor
      · intro ⟨e, he⟩
        cases he
      · intro ⟨e, he⟩
        cases hgot _ he
    | threw e =>
      rw [hc] at hgot
      obtain ⟨i, hi, -⟩ := hgot
      exact ⟨fun _ => ⟨e, List.mem_of_getElem? hi⟩, fun _ => ⟨e, rfl⟩⟩
  · rw [he] at hgot
    exact hgot

/-- Two workers and three tasks: the second job ends before the first, and the caller looks twice before all have run. -/
theorem waitAll_barrier_two :
    ∃ s : ExecutorRun Nat, exec ExecutorRun.step (.new 2) [.check 0, .schedule (.ok ()) (some 0), .check 0,
        .schedule (.error 7) none, .schedule (.error 8) none, .check 1, .waitAll, .wait, .run 1,
          .complete 1, .wait,
        .run 0, .complete 0, .check 1, .run 1, .complete 1, .wait, .get, .get] = some s ∧
      s.caller = .threw 7 ∧ s.IsBarrier 2 := by
  have hrun : (exec ExecutorRun.step (.new 2 : ExecutorRun Nat) [.check 0, .schedule (.ok ()) (some 0), .check 0,
      .schedule (.error 7) none, .schedule (.error 8) none, .check 1, .waitAll, .wait, .run 1, .complete 1, .wait,
      .run 0, .complete 0, .check 1, .run 1, .complete 1, .wait, .get, .get]).map (·.caller) =
        some (.threw 7) := by decide
  obtain ⟨s, hs, hcaller⟩ := Option.map_eq_some_iff.mp hrun
  exact ⟨s, hs, hcaller, waitAll_barrier 2 (by decide) _ s hs⟩

/-- **`WaitAll` ends**: it can always go on (`IsBarrier.unblocked`), and not for longer than the work left. -/
theorem waitAll_ends {E : Type} (threadNum : Nat) (before acts : List (ExecutorAct E))
    (s s' : ExecutorRun E) (h : exec ExecutorRun.step (.new threadNum) before = some s)
    (hin : s.caller.inWaitAll = true) (hacts : ∀ a ∈ acts, a.spurious = false)
    (h' : exec ExecutorRun.step s acts = some s') (hlong : s.work < acts.length) :
    s'.caller.ended = true := by
  have hinv := exec_invariant (I := ExecutorRun.Inv threadNum) (fun _ _ _ hs hstep => hs.step hstep) h
    (.new threadNum)
  rcases hinv.length_add_work_le hacts h' hin with hended | hle
  · exact hended
  · omega

end ReadCacheFs
