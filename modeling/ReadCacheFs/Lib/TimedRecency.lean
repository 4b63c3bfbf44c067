/-
Least recently used with a timeout: a map with an order of use (`Recency`)
that also knows when each value was put. A lookup of a value older than the
timeout removes it; what is left is ordered by last use, whatever was called.

`Step` says what a call does and answers, `Run` what a list of calls does.
Nothing is said of the order in which `take` returns what it returns.
-/
import Mathlib.Data.List.Infix
import ReadCacheFs.Lib.OrderedKeys
import ReadCacheFs.Lib.Recency

namespace Lib

structure TimedRecency (κ ν : Type*) where
  map : Recency κ ν
  /-- When the value of a key was put. -/
  putAt : κ → Nat

/-- A call and its answer. -/
inductive LruEvent (κ ν : Type*)
  | put (now : Nat) (key : κ) (value : ν)
  | get (now : Nat) (key : κ) (result : Option ν)
  | delete (key : κ) (found : Bool)
  | clear
  /-- The keys from `start` on go, up to the first that does not match. -/
  | clearFrom (start : κ) (filter : κ → Bool)
  /-- `readings` are those of the clock. -/
  | take (readings : List Nat) (result : List (κ × ν))

namespace LruEvent

variable {κ ν : Type*}

/-- The key a call has used: one put, or looked up and found. -/
def use : LruEvent κ ν → Option κ
  | .put _ key _ => some key
  | .get _ key (some _) => some key
  | _ => none

/-- The keys used, the latest first. -/
def uses (log : List (LruEvent κ ν)) : List κ := (log.filterMap use).reverse

theorem uses_snoc (log : List (LruEvent κ ν)) (ev : LruEvent κ ν) :
    uses (log ++ [ev]) = ev.use.toList ++ uses log := by
  unfold uses
  cases h : ev.use with
  | none => simp [h]
  | some k => simp [h]

end LruEvent

/-! ## Ordered by last use -/

section UseOrder

variable {κ : Type*} [DecidableEq κ] {used l l' : List κ} {k : κ}

/-- Of two keys the one used last comes first. -/
structure UseOrdered (used l : List κ) : Prop where
  pairwise : l.Pairwise fun a b => used.idxOf a < used.idxOf b
  used : ∀ k ∈ l, k ∈ used

theorem UseOrdered.sublist (h : UseOrdered used l) (hl : l'.Sublist l) : UseOrdered used l' :=
  ⟨h.pairwise.sublist hl, fun k hk => h.used k (hl.subset hk)⟩

/-- A key is used once more. -/
theorem UseOrdered.use (h : UseOrdered used l) (k : κ) : UseOrdered (k :: used) (k :: l.filter (· != k)) := by
  have hne : ∀ a ∈ l.filter (· != k), a ≠ k := fun a ha => bne_iff_ne.mp (List.mem_filter.mp ha).2
  have hidx : ∀ a ∈ l.filter (· != k), (k :: used).idxOf a = used.idxOf a + 1 := fun a ha =>
    List.idxOf_cons_ne _ (Ne.symm (hne a ha))
  refine ⟨List.pairwise_cons.mpr ⟨fun a ha => ?_, ?_⟩, fun a ha => ?_⟩
  · rw [hidx a ha, List.idxOf_cons_self]
    exact Nat.succ_pos _
  · refine (h.pairwise.sublist List.filter_sublist).imp_of_mem fun {a b} ha hb hab => ?_
    rw [hidx a ha, hidx b hb]
    omega
  · rcases List.mem_cons.mp ha with rfl | ha
    · exact List.mem_cons_self
    · exact List.mem_cons_of_mem _ (h.used a (List.mem_of_mem_filter ha))

end UseOrder

namespace TimedRecency

variable {κ ν : Type*} {m m' : TimedRecency κ ν} {limit : Option Nat} {timeout now : Nat} {k : κ} {v : ν}

def empty : TimedRecency κ ν := ⟨.empty, fun _ => 0⟩

/-- The value of the key is not older than the timeout, if there is one. -/
def Fresh (timeout now : Nat) (m : TimedRecency κ ν) (k : κ) : Prop := timeout = 0 ∨ now ≤ m.putAt k + timeout

instance : Decidable (Fresh timeout now m k) := inferInstanceAs (Decidable (_ ∨ _))

def clearFrom [Ord κ] (m : TimedRecency κ ν) (start : κ) (filter : κ → Bool) : TimedRecency κ ν :=
  { m with map := m.map.keep fun k => !matchedFrom m.map.order start filter k }

variable [DecidableEq κ]

def put (limit : Option Nat) (now : Nat) (m : TimedRecency κ ν) (k : κ) (v : ν) : TimedRecency κ ν :=
  { map := m.map.put limit k v, putAt := Function.update m.putAt k now }

def get (timeout now : Nat) (m : TimedRecency κ ν) (k : κ) : Option ν × TimedRecency κ ν :=
  match m.map.value k with
  | none => (none, m)
  | some v => if Fresh timeout now m k then (some v, { m with map := m.map.touch k }) else (none, { m with map := m.map.remove k })

/-- What `take` returns: every value that is fresh when it is looked at, once. -/
structure Taken (timeout : Nat) (m : TimedRecency κ ν) (readings : List Nat) (result : List (κ × ν)) : Prop where
  nodup : (result.map Prod.fst).Nodup
  fresh : ∃ lookedAt : κ → Nat, (∀ k ∈ m.map.order, lookedAt k ∈ readings) ∧
    ∀ k v, (k, v) ∈ result ↔ m.map.value k = some v ∧ Fresh timeout (lookedAt k) m k

/-! ## Using and putting -/

theorem touch_useOrdered {used : List κ} (h : UseOrdered used m.map.order) (hk : k ∈ m.map.order) :
    UseOrdered (k :: used) (m.map.touch k).order := by
  rw [Recency.touch_order hk]
  exact h.use k

theorem put_useOrdered {used : List κ} (h : UseOrdered used m.map.order) :
    UseOrdered (k :: used) (m.put limit now k v).map.order := by
  have hins : UseOrdered (k :: used) (m.map.insert k v).order := h.use k
  cases limit with
  | none => exact hins
  | some n =>
    refine hins.sublist ?_
    rw [show (m.put (some n) now k v).map = (m.map.insert k v).trim n from rfl, Recency.trim_order]
    exact List.take_sublist _ _

omit [DecidableEq κ] in
theorem mem_take_concat {l : List κ} {n : Nat} (hlen : l.length ≤ n + 1) (hk : k ∈ l) (hnot : k ∉ l.take n) :
    l.length = n + 1 ∧ l.getLast? = some k := by
  have hsplit := List.take_append_drop n l
  rw [← hsplit, List.mem_append] at hk
  have hdrop := hk.resolve_left hnot
  have hlen' : (l.drop n).length = 1 := by
    have hpos := List.length_pos_of_mem hdrop
    rw [List.length_drop] at hpos ⊢
    omega
  obtain ⟨a, ha⟩ := List.length_eq_one_iff.mp hlen'
  rw [ha, List.mem_singleton] at hdrop
  subst hdrop
  rw [List.length_drop] at hlen'
  refine ⟨by omega, ?_⟩
  rw [← hsplit, ha, List.getLast?_concat]

/-- The key put is there, and a key that is dropped for it was the one used
least recently of a full map. -/
theorem put_drops {n : Nat} (hpos : 0 < n) (hlen : m.map.order.length ≤ n) (now : Nat) (k : κ) (v : ν) :
    k ∈ (m.put (some n) now k v).map.order ∧
      ∀ k' ∈ m.map.order, k' ∉ (m.put (some n) now k v).map.order →
        k' ≠ k ∧ k ∉ m.map.order ∧ m.map.order.length = n ∧ m.map.order.getLast? = some k' := by
  obtain ⟨n, rfl⟩ : ∃ n', n = n' + 1 := ⟨n - 1, by omega⟩
  have hord : (m.put (some (n + 1)) now k v).map.order = k :: (m.map.order.filter (· != k)).take n := by
    rw [show (m.put (some (n + 1)) now k v).map = (m.map.insert k v).trim (n + 1) from rfl, Recency.trim_order,
      Recency.insert_order, List.take_succ_cons]
  rw [hord]
  refine ⟨List.mem_cons_self, fun k' hk' hnot => ?_⟩
  rw [List.mem_cons, not_or] at hnot
  have hfil : k' ∈ m.map.order.filter (· != k) := List.mem_filter.mpr ⟨hk', bne_iff_ne.mpr hnot.1⟩
  obtain ⟨hfull, hlast⟩ := mem_take_concat ((List.length_filter_le _ _).trans hlen) hfil hnot.2
  -- the map is full without `k`, so `k` is a new key
  have hk : k ∉ m.map.order := by
    intro hk
    have := Recency.remove_length hk
    rw [Recency.remove_order] at this
    omega
  rw [Recency.filter_ne_of_not_mem hk] at hfull hlast
  exact ⟨hnot.1, hk, hfull, hlast⟩

/-! ## Runs -/

variable [Ord κ]

inductive Step (limit : Option Nat) (timeout : Nat) : TimedRecency κ ν → LruEvent κ ν → TimedRecency κ ν → Prop
  | put (m : TimedRecency κ ν) (now : Nat) (k : κ) (v : ν) : Step limit timeout m (.put now k v)
    (m.put limit now k v)
  | get (m : TimedRecency κ ν) (now : Nat) (k : κ) :
    Step limit timeout m (.get now k (m.get timeout now k).1) (m.get timeout now k).2
  | delete (m : TimedRecency κ ν) (k : κ) :
    Step limit timeout m (.delete k (decide (k ∈ m.map.order))) { m with map := m.map.remove k }
  | clear (m : TimedRecency κ ν) : Step limit timeout m .clear { m with map := .empty }
  | clearFrom (m : TimedRecency κ ν) (start : κ) (filter : κ → Bool) :
    Step limit timeout m (.clearFrom start filter) (m.clearFrom start filter)
  | take (m : TimedRecency κ ν) (readings : List Nat) (result : List (κ × ν)) (h : Taken timeout m readings result) :
    Step limit timeout m (.take readings result) { m with map := .empty }

/-- From the empty map, the calls in order. -/
inductive Run (limit : Option Nat) (timeout : Nat) : List (LruEvent κ ν) → TimedRecency κ ν → Prop
  | nil : Run limit timeout [] empty
  | snoc {log : List (LruEvent κ ν)} {m m' : TimedRecency κ ν} {ev : LruEvent κ ν} (run : Run limit timeout log m)
    (step : Step limit timeout m ev m') : Run limit timeout (log ++ [ev]) m'

theorem Step.useOrdered {ev : LruEvent κ ν} {used : List κ} (hstep : Step limit timeout m ev m')
    (h : UseOrdered used m.map.order) : UseOrdered (ev.use.toList ++ used) m'.map.order := by
  cases hstep with
  | put now k v => exact put_useOrdered h
  | get now k =>
    unfold TimedRecency.get
    cases hv : m.map.value k with
    | none => exact h
    | some v =>
      dsimp only
      split
      · exact touch_useOrdered h ((m.map.mem_order k).mpr (by rw [hv]; rfl))
      · exact h.sublist List.filter_sublist
  | delete k => exact h.sublist List.filter_sublist
  | clearFrom start filter => exact h.sublist List.filter_sublist
  | clear | take => exact ⟨List.Pairwise.nil, fun k hk => by cases hk⟩

/-- The keys are in the order of their last use. -/
theorem Run.useOrdered {log : List (LruEvent κ ν)} (h : Run limit timeout log m) :
    UseOrdered (LruEvent.uses log) m.map.order := by
  induction h with
  | nil => exact ⟨List.Pairwise.nil, fun k hk => by cases hk⟩
  | snoc _ hstep ih =>
    rw [LruEvent.uses_snoc]
    exact hstep.useOrdered ih

theorem Step.length_le {ev : LruEvent κ ν} {n : Nat} (hstep : Step (some n) timeout m ev m')
    (h : m.map.order.length ≤ n) :
    m'.map.order.length ≤ n := by
  cases hstep with
  | put now k v => exact Recency.put_length rfl
  | get now k =>
    unfold TimedRecency.get
    cases hv : m.map.value k with
    | none => exact h
    | some v =>
      dsimp only
      split
      · rw [Recency.touch_length]
        exact h
      · exact (List.length_filter_le _ _).trans h
  | delete k => exact (List.length_filter_le _ _).trans h
  | clearFrom start filter => exact (List.length_filter_le _ _).trans h
  | clear | take => exact Nat.zero_le _

theorem Run.length_le {log : List (LruEvent κ ν)} {n : Nat} (h : Run (some n) timeout log m) :
    m.map.order.length ≤ n := by
  induction h with
  | nil => exact Nat.zero_le _
  | snoc _ hstep ih => exact hstep.length_le ih

end TimedRecency

end Lib
