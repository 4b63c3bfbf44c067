/-
One queue of values with keys, which gives the values of a key away in the
order they were put, those that have expired first. Bounded by a number of
values, it gives up the oldest, whatever its key.

`Step` says what a call does and hands back, `Run` what a list of calls does
(`Run.ledger`: what was put is there or has been handed back, once).
-/
import Mathlib.Data.List.Infix
import Mathlib.Data.List.Perm.Basic
import ReadCacheFs.Lib.OrderedKeys

namespace Lib

structure QueueItem (κ ν : Type*) where
  /-- How many values were put before it. -/
  ticket : Nat
  key : κ
  value : ν
  putAt : Nat

structure KeyedQueue (κ ν : Type*) where
  /-- The oldest first. -/
  items : List (QueueItem κ ν) := []
  tickets : Nat := 0

/-- A call and what it hands back. -/
inductive QueueEvent (κ ν : Type*)
  | put (now : Nat) (key : κ) (value : ν) (evicted : Option ν)
  | getAndPop (now : Nat) (key : κ) (evicted : List ν) (target : Option ν)
  | clear (values : List ν)
  /-- The keys from `start` on, up to the first that does not match. -/
  | clearFrom (start : κ) (filter : κ → Bool) (values : List ν)

namespace QueueEvent

variable {κ ν : Type*}

def putIn : QueueEvent κ ν → List ν
  | .put _ _ value _ => [value]
  | _ => []

def handedBack : QueueEvent κ ν → List ν
  | .put _ _ _ evicted => evicted.toList
  | .getAndPop _ _ evicted target => evicted ++ target.toList
  | .clear values => values
  | .clearFrom _ _ values => values

end QueueEvent

namespace KeyedQueue

variable {κ ν : Type*} {q q' : KeyedQueue κ ν} {limit : Option Nat} {timeout now : Nat} {k : κ} {v : ν}

def values (q : KeyedQueue κ ν) : List ν := q.items.map (·.value)

def Expired (timeout now : Nat) (i : QueueItem κ ν) : Prop := 0 < timeout ∧ i.putAt + timeout < now

instance (i : QueueItem κ ν) : Decidable (Expired timeout now i) := inferInstanceAs (Decidable (_ ∧ _))

def enqueue (q : KeyedQueue κ ν) (now : Nat) (k : κ) (v : ν) : KeyedQueue κ ν :=
  { items := q.items ++ [⟨q.tickets, k, v, now⟩], tickets := q.tickets + 1 }

/-- What goes when there are more than `limit`. -/
def overflow (limit : Option Nat) (q : KeyedQueue κ ν) : Option (QueueItem κ ν) :=
  if (limit.map fun n => decide (n < q.items.length)).getD false then q.items.head? else none

def trim (limit : Option Nat) (q : KeyedQueue κ ν) : KeyedQueue κ ν :=
  if (limit.map fun n => decide (n < q.items.length)).getD false then { q with items := q.items.tail } else q

/-- The items that match stay. -/
def keep (q : KeyedQueue κ ν) (p : QueueItem κ ν → Bool) : KeyedQueue κ ν := { q with items := q.items.filter p }

variable [DecidableEq κ]

/-- The values of the key that have expired. -/
def stale (timeout now : Nat) (k : κ) (i : QueueItem κ ν) : Bool :=
  decide (i.key = k) && decide (Expired timeout now i)

/-- The oldest value of the key that has not expired. -/
def target (timeout now : Nat) (q : KeyedQueue κ ν) (k : κ) : Option (QueueItem κ ν) :=
  q.items.find? fun i => decide (i.key = k) && !decide (Expired timeout now i)

/-- Without the expired values of the key, and without the oldest of what it has left. -/
def popped (timeout now : Nat) (q : KeyedQueue κ ν) (k : κ) : KeyedQueue κ ν :=
  { q with items := (q.keep fun i => !stale timeout now k i).items.eraseP fun i => decide (i.key = k) }

theorem target_eq (timeout now : Nat) (q : KeyedQueue κ ν) (k : κ) :
    target timeout now q k = (q.keep fun i => !stale timeout now k i).items.find? fun i =>
      decide (i.key = k) := by
  rw [target, keep, List.find?_filter]
  congr 1
  funext i
  unfold stale
  by_cases hk : i.key = k <;> simp [hk]

/-! Where the key has no unexpired value, and where the first is `i`. -/

section Left

variable {a b : List (QueueItem κ ν)} {i : QueueItem κ ν}

theorem target_none (h : (q.keep fun i => !stale timeout now k i).items.filter
      (fun i => decide (i.key = k)) = []) :
    target timeout now q k = none := by
  rw [target_eq, List.find?_eq_none]
  exact List.filter_eq_nil_iff.mp h

theorem popped_none (h : (q.keep fun i => !stale timeout now k i).items.filter
      (fun i => decide (i.key = k)) = []) :
    popped timeout now q k = q.keep fun i => !stale timeout now k i := by
  rw [popped, List.eraseP_of_forall_not (List.filter_eq_nil_iff.mp h)]
  rfl

theorem target_some (h : (q.keep fun i => !stale timeout now k i).items = a ++ i :: b)
    (ha : ∀ j ∈ a, ¬decide (j.key = k) = true) (hi : i.key = k) : target timeout now q k = some i := by
  rw [target_eq, h, List.find?_eq_some_iff_append]
  exact ⟨decide_eq_true hi, a, b, rfl, by simpa using ha⟩

theorem popped_some (h : (q.keep fun i => !stale timeout now k i).items = a ++ i :: b)
    (ha : ∀ j ∈ a, ¬decide (j.key = k) = true) (hi : i.key = k) :
    popped timeout now q k = { q with items := a ++ b } := by
  rw [popped, h, List.eraseP_append_right _ ha]
  simp [hi]

end Left

theorem target_eq_head (timeout now : Nat) (q : KeyedQueue κ ν) (k : κ) :
    target timeout now q k =
      ((q.keep fun i => !stale timeout now k i).items.filter fun i => decide (i.key = k)).head? := by
  rw [target_eq, List.head?_filter]

theorem popped_key (timeout now : Nat) (q : KeyedQueue κ ν) (k : κ) :
    (popped timeout now q k).items.filter (fun i => decide (i.key = k)) =
      ((q.keep fun i => !stale timeout now k i).items.filter fun i => decide (i.key = k)).tail := by
  rw [popped]
  induction (q.keep fun i => !stale timeout now k i).items with
  | nil => rfl
  | cons i items ih =>
    by_cases hi : i.key = k
    · simp [hi]
    · simp [hi, ih]

/-- The other keys' values stay. -/
theorem popped_other (timeout now : Nat) (q : KeyedQueue κ ν) {k k' : κ} (hk : k' ≠ k) :
    (popped timeout now q k).items.filter (fun i => decide (i.key = k')) =
      q.items.filter fun i => decide (i.key = k') := by
  have herase : ∀ items : List (QueueItem κ ν),
      (items.eraseP fun i => decide (i.key = k)).filter (fun i => decide (i.key = k')) =
        items.filter fun i => decide (i.key = k') := by
    intro items
    induction items with
    | nil => rfl
    | cons i items ih =>
      by_cases hi : i.key = k
      · simp [hi, hk.symm]
      · simp [hi, List.filter_cons, ih]
  rw [popped, keep, herase, List.filter_filter]
  refine List.filter_congr fun i _ => ?_
  unfold stale
  by_cases hi : i.key = k'
  · simp [hi, hk]
  · simp [hi]

/-! ## What is handed back -/

omit [DecidableEq κ] in
theorem overflow_trim (limit : Option Nat) (q : KeyedQueue κ ν) :
    ((overflow limit q).toList ++ (trim limit q).items) = q.items := by
  unfold overflow trim
  split
  · cases q.items <;> rfl
  · rfl

theorem target_popped (timeout now : Nat) (q : KeyedQueue κ ν) (k : κ) :
    (q.items.filter (stale timeout now k) ++ (target timeout now q k).toList ++
      (popped timeout now q k).items).Perm
      q.items := by
  have hsplit : (q.items.filter (stale timeout now k) ++
      q.items.filter fun i => !stale timeout now k i).Perm q.items :=
    List.filter_append_perm _ _
  refine List.Perm.trans ?_ hsplit
  rw [List.append_assoc, target_eq, popped, keep]
  refine List.Perm.append_left _ ?_
  generalize (q.items.filter fun i => !stale timeout now k i) = fresh
  induction fresh with
  | nil => exact .refl _
  | cons i fresh ih =>
    by_cases hk : i.key = k
    · simp [hk]
    · simp only [List.find?_cons, List.eraseP_cons, hk, decide_false]
      exact List.perm_middle.trans (ih.cons i)

/-! ## Runs -/

variable [Ord κ]

inductive Step (limit : Option Nat) (timeout : Nat) : KeyedQueue κ ν → QueueEvent κ ν → KeyedQueue κ ν → Prop
  | put (q : KeyedQueue κ ν) (now : Nat) (k : κ) (v : ν) :
    Step limit timeout q (.put now k v ((overflow limit (q.enqueue now k v)).map (·.value))) (trim limit (q.enqueue now k v))
  | getAndPop (q : KeyedQueue κ ν) (now : Nat) (k : κ) :
    Step limit timeout q (.getAndPop now k ((q.items.filter (stale timeout now k)).map (·.value))
      ((q.target timeout now k).map (·.value))) (q.popped timeout now k)
  | clear (q : KeyedQueue κ ν) (values : List ν) (h : values.Perm q.values) :
    Step limit timeout q (.clear values) { q with items := [] }
  | clearFrom (q : KeyedQueue κ ν) (start : κ) (filter : κ → Bool) (values : List ν)
    (h : values.Perm (q.keep fun i => matchedFrom (q.items.map (·.key)) start filter i.key).values) :
    Step limit timeout q (.clearFrom start filter values)
      (q.keep fun i => !matchedFrom (q.items.map (·.key)) start filter i.key)

/-- From the empty queue, the calls in order. -/
inductive Run (limit : Option Nat) (timeout : Nat) : List (QueueEvent κ ν) → KeyedQueue κ ν → Prop
  | nil : Run limit timeout [] {}
  | snoc {log : List (QueueEvent κ ν)} {q q' : KeyedQueue κ ν} {ev : QueueEvent κ ν} (run : Run limit timeout log q)
    (step : Step limit timeout q ev q') : Run limit timeout (log ++ [ev]) q'

theorem Step.length_le {n : Nat} {ev : QueueEvent κ ν} (h : Step (some n) timeout q ev q')
    (hlen : q.items.length ≤ n) :
    q'.items.length ≤ n := by
  cases h with
  | put now k v =>
    unfold trim
    rw [Option.map_some, Option.getD_some]
    split
    · rw [List.length_tail, enqueue, List.length_append, List.length_singleton]
      omega
    next hle =>
      rw [decide_eq_true_eq, not_lt] at hle
      exact hle
  | getAndPop now k => exact (List.eraseP_sublist.trans List.filter_sublist).length_le.trans hlen
  | clear values hvalues => exact Nat.zero_le n
  | clearFrom start filter values hvalues => exact (List.length_filter_le _ _).trans hlen

theorem Run.length_le {n : Nat} {log : List (QueueEvent κ ν)} (h : Run (some n) timeout log q) :
    q.items.length ≤ n := by
  induction h with
  | nil => exact Nat.zero_le n
  | snoc _ hstep ih => exact hstep.length_le ih

/-- A call hands back what goes, and nothing else. -/
theorem Step.ledger {ev : QueueEvent κ ν} (h : Step limit timeout q ev q') :
    (ev.handedBack ++ q'.values).Perm (ev.putIn ++ q.values) := by
  cases h with
  | put now k v =>
    have hvalues := congrArg (List.map QueueItem.value) (overflow_trim limit (q.enqueue now k v))
    rw [List.map_append, enqueue, List.map_append, ← Option.toList_map] at hvalues
    exact (List.Perm.of_eq hvalues).trans List.perm_append_comm
  | getAndPop now k =>
    have hperm := (target_popped timeout now q k).map (·.value)
    rw [List.map_append, List.map_append, ← Option.toList_map] at hperm
    exact hperm
  | clear values hvalues => exact (List.append_nil values).symm ▸ hvalues
  | clearFrom start filter values hvalues =>
    refine (hvalues.append_right _).trans ?_
    rw [KeyedQueue.values, KeyedQueue.values, ← List.map_append]
    exact (List.filter_append_perm _ _).map _

/-- Every value put is there or has been handed back, and once. -/
theorem Run.ledger {log : List (QueueEvent κ ν)} (h : Run limit timeout log q) :
    (log.flatMap QueueEvent.handedBack ++ q.values).Perm (log.flatMap QueueEvent.putIn) := by
  induction h with
  | nil => exact .refl _
  | snoc _ hstep ih =>
    rw [List.flatMap_append, List.flatMap_append, List.flatMap_singleton, List.flatMap_singleton,
      List.append_assoc]
    refine (hstep.ledger.append_left _).trans ?_
    refine (List.perm_append_comm_assoc _ _ _).trans ?_
    exact (ih.append_left _).trans List.perm_append_comm

end KeyedQueue

end Lib
