/-
The second-chance queue: keys with a bit, the next victim first.

A victim is the first key whose bit is clear; the keys before it, whose bits
are set, go to the back with their bits cleared. Where every bit is set, all
are cleared and the first key is the victim.
-/
import Mathlib.Data.List.Nodup
import Mathlib.Data.List.Perm.Basic
import Mathlib.Data.List.TakeWhile

namespace Lib

abbrev SecondChance (κ : Type*) := List (κ × Bool)

/-- What is done to a queue. -/
inductive QueueAct (κ : Type*)
  | insert (key : κ)
  | hit (key : κ)
  | erase (key : κ)
  | pop
  | clear
  deriving DecidableEq

namespace SecondChance

variable {κ : Type*} {q front rest : SecondChance κ} {k : κ} {b : Bool}

def keys (q : SecondChance κ) : List κ := q.map Prod.fst

/-- The keys with their bits cleared. -/
def cleared (q : SecondChance κ) : SecondChance κ := q.map fun e => (e.1, false)

def pop (q : SecondChance κ) : Option κ × SecondChance κ :=
  match q.dropWhile (·.2) with
  | (k, _) :: rest => (some k, rest ++ cleared (q.takeWhile (·.2)))
  | [] => match q with
    | (k, _) :: rest => (some k, cleared rest)
    | [] => (none, [])

@[simp] theorem keys_cleared (q : SecondChance κ) : keys (cleared q) = keys q := by simp [keys, cleared]

theorem pop_of_clear (hfront : ∀ e ∈ front, e.2 = true) :
    pop (front ++ (k, false) :: rest) = (some k, rest ++ cleared front) := by
  unfold pop
  rw [List.dropWhile_append_of_pos hfront, List.takeWhile_append_of_pos hfront]
  simp

theorem pop_of_all_set (hset : ∀ e ∈ (k, b) :: rest, e.2 = true) :
    pop ((k, b) :: rest) = (some k, cleared rest) := by
  simp only [pop, List.dropWhile_eq_nil_iff.mpr hset]

/-- The queue cut where its victim is. -/
theorem exists_front (q : SecondChance κ) :
    (∃ front k rest, q = front ++ (k, false) :: rest ∧ ∀ e ∈ front, e.2 = true) ∨ ∀ e ∈ q, e.2 = true := by
  induction q with
  | nil => simp
  | cons e q ih =>
    obtain ⟨k, b⟩ := e
    cases b with
    | false => exact .inl ⟨[], k, q, rfl, by simp⟩
    | true =>
      rcases ih with ⟨front, k', rest, rfl, hfront⟩ | hset
      · exact .inl ⟨(k, true) :: front, k', rest, rfl, by simpa using hfront⟩
      · exact .inr (by simpa using hset)

/-- Only the empty queue has no victim. -/
theorem pop_eq_none_iff : (pop q).1 = none ↔ q = [] := by
  rcases exists_front q with ⟨front, k, rest, rfl, hfront⟩ | hset
  · simp [pop_of_clear hfront]
  · cases q with
    | nil => simp [pop]
    | cons e q => simp [pop_of_all_set hset]

/-- With every bit clear the queue is first in, first out. -/
theorem pop_of_unset (hunset : ∀ e ∈ q, e.2 = false) : pop q = (q.head?.map Prod.fst, q.tail) := by
  cases q with
  | nil => rfl
  | cons e q =>
    obtain ⟨k, b⟩ := e
    obtain rfl : b = false := hunset (k, b) (by simp)
    simpa [cleared] using @pop_of_clear κ [] q k (by simp)

variable [DecidableEq κ]

def insert (q : SecondChance κ) (key : κ) : SecondChance κ := if key ∈ keys q then q else q ++ [(key, false)]

def hit (q : SecondChance κ) (key : κ) : SecondChance κ := q.map fun e => if e.1 = key then (e.1, true) else e

def erase (q : SecondChance κ) (key : κ) : SecondChance κ := q.filter (·.1 != key)

/-- The answer is the victim. -/
def step (q : SecondChance κ) : QueueAct κ → Option κ × SecondChance κ
  | .insert key => (none, q.insert key)
  | .hit key => (none, q.hit key)
  | .erase key => (none, q.erase key)
  | .pop => q.pop
  | .clear => (none, [])

@[simp] theorem keys_hit (q : SecondChance κ) (key : κ) : keys (q.hit key) = keys q := by
  simp only [keys, hit, List.map_map]
  refine List.map_congr_left fun e _ => ?_
  dsimp only [Function.comp_apply]
  split <;> rfl

end SecondChance

end Lib
