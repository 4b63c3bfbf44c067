/-
Least recently used, as a map with an order of use: what a bounded LRU cache
holds, whatever it is made of. `trim n` keeps the `n` most recently used.

A cache may make room before it inserts or cut back afterwards; it comes to
the same (`trim_insert`).
-/
import Mathlib.Data.List.Nodup
import Mathlib.Logic.Function.Basic

namespace Lib

@[ext]
structure Recency (κ ν : Type*) where
  /-- The keys, most recently used first. -/
  order : List κ
  value : κ → Option ν
  nodup : order.Nodup
  mem_order : ∀ k, k ∈ order ↔ (value k).isSome

namespace Recency

variable {κ ν : Type*} {r : Recency κ ν} {k : κ} {v : ν} {n : Nat}

def empty : Recency κ ν where
  order := []
  value := fun _ => none
  nodup := List.nodup_nil
  mem_order := by simp

/-- The keys that match stay, in their order. -/
def keep (r : Recency κ ν) (p : κ → Bool) : Recency κ ν where
  order := r.order.filter p
  value := fun k => if p k then r.value k else none
  nodup := r.nodup.filter _
  mem_order := fun k => by
    rw [List.mem_filter, r.mem_order]
    cases p k <;> simp

@[simp] theorem keep_order (r : Recency κ ν) (p : κ → Bool) : (r.keep p).order = r.order.filter p := rfl

theorem keep_value (r : Recency κ ν) (p : κ → Bool) (k : κ) :
    (r.keep p).value k = if p k then r.value k else none := rfl

theorem value_eq_none : r.value k = none ↔ k ∉ r.order := by
  rw [r.mem_order]
  simp

/-- What stays says it all. -/
theorem keep_congr {p q : κ → Bool} (h : ∀ k ∈ r.order, p k = q k) : r.keep p = r.keep q := by
  refine Recency.ext (List.filter_congr h) (funext fun k => ?_)
  rw [keep_value, keep_value]
  by_cases hk : k ∈ r.order
  · rw [h k hk]
  · simp [value_eq_none.mpr hk]

/-- Nothing goes where all keys match. -/
theorem keep_eq_self {p : κ → Bool} (h : ∀ k ∈ r.order, p k = true) : r.keep p = r := by
  have htrue : r.keep (fun _ => true) = r := Recency.ext (by simp) (funext fun k => by simp [keep_value])
  exact (keep_congr fun k hk => h k hk).trans htrue

theorem keep_keep (r : Recency κ ν) (p q : κ → Bool) : (r.keep p).keep q = r.keep fun k => q k && p k := by
  refine Recency.ext (by simp [List.filter_filter]) (funext fun k => ?_)
  rw [keep_value, keep_value, keep_value]
  cases q k <;> cases p k <;> rfl

variable [DecidableEq κ]

def remove (r : Recency κ ν) (k : κ) : Recency κ ν := r.keep (· != k)

/-- The key is used. -/
def touch (r : Recency κ ν) (k : κ) : Recency κ ν where
  order := if k ∈ r.order then k :: r.order.filter (· != k) else r.order
  value := r.value
  nodup := by
    split
    · exact List.nodup_cons.mpr ⟨by simp, r.nodup.filter _⟩
    · exact r.nodup
  mem_order := fun k' => by
    rw [← r.mem_order]
    split
    next hk =>
      by_cases hk' : k' = k
      · simp [hk', hk]
      · simp [hk']
    next => rfl

/-- The key gets a value, and is used. -/
def insert (r : Recency κ ν) (k : κ) (v : ν) : Recency κ ν where
  order := k :: r.order.filter (· != k)
  value := Function.update r.value k (some v)
  nodup := List.nodup_cons.mpr ⟨by simp, r.nodup.filter _⟩
  mem_order := fun k' => by
    by_cases hk : k' = k
    · simp [hk]
    · simp [hk, r.mem_order]

/-- The `n` most recently used stay. -/
def trim (n : Nat) (r : Recency κ ν) : Recency κ ν := r.keep (· ∈ r.order.take n)

/-- A lookup: what is there is used if it is what was asked for, and goes if
it is not. -/
def getIf (r : Recency κ ν) (k : κ) (p : ν → Bool) : Option ν × Recency κ ν :=
  match r.value k with
  | none => (none, r)
  | some v => if p v then (some v, r.touch k) else (none, r.remove k)

/-- A new value into a cache of `limit` entries, if it is bounded. -/
def put (r : Recency κ ν) (limit : Option Nat) (k : κ) (v : ν) : Recency κ ν :=
  match limit with
  | none => r.insert k v
  | some n => (r.insert k v).trim n

theorem insert_remove (r : Recency κ ν) (k : κ) (v : ν) : (r.remove k).insert k v = r.insert k v := by
  refine Recency.ext ?_ (funext fun k' => ?_)
  · simp [insert, remove, List.filter_filter]
  · by_cases hk : k' = k
    · simp [insert, hk]
    · simp [insert, remove, keep_value, hk]

@[simp] theorem remove_order (r : Recency κ ν) (k : κ) : (r.remove k).order = r.order.filter (· != k) := rfl

@[simp] theorem insert_order (r : Recency κ ν) (k : κ) (v : ν) :
    (r.insert k v).order = k :: r.order.filter (· != k) := rfl

theorem remove_of_not_mem (h : k ∉ r.order) : r.remove k = r :=
  keep_eq_self fun k' hk' => by simpa using fun he : k' = k => h (he ▸ hk')

theorem filter_ne_of_not_mem (h : k ∉ r.order) : r.order.filter (· != k) = r.order :=
  congrArg order (remove_of_not_mem h)

theorem touch_order (h : k ∈ r.order) : (r.touch k).order = k :: r.order.filter (· != k) := if_pos h

theorem touch_of_not_mem (h : k ∉ r.order) : r.touch k = r := Recency.ext (if_neg h) rfl

theorem remove_length (h : k ∈ r.order) : (r.remove k).order.length + 1 = r.order.length := by
  rw [remove_order, ← r.nodup.erase_eq_filter k]
  exact (List.perm_cons_erase h).length_eq.symm

theorem touch_length (r : Recency κ ν) (k : κ) : (r.touch k).order.length = r.order.length := by
  by_cases hk : k ∈ r.order
  · rw [touch_order hk]
    exact remove_length hk
  · rw [touch_of_not_mem hk]

theorem touch_remove (r : Recency κ ν) (k : κ) : (r.touch k).remove k = r.remove k := by
  refine Recency.ext ?_ rfl
  by_cases hk : k ∈ r.order
  · simp [touch, hk, List.filter_filter]
  · rw [touch_of_not_mem hk]

theorem filter_mem_take {l : List κ} (h : l.Nodup) (n : Nat) :
    l.filter (fun k => decide (k ∈ l.take n)) = l.take n := by
  have hsplit := List.take_append_drop n l
  have hdisj : ∀ k ∈ l.drop n, k ∉ l.take n := by
    intro k hd ht
    rw [← hsplit] at h
    exact (List.nodup_append.mp h).2.2 k ht k hd rfl
  calc l.filter (fun k => decide (k ∈ l.take n))
      = (l.take n ++ l.drop n).filter (fun k => decide (k ∈ l.take n)) := by rw [hsplit]
    _ = l.take n ++ [] := by
      rw [List.filter_append, List.filter_eq_self.mpr (by simp),
        List.filter_eq_nil_iff.mpr (by simpa using hdisj)]
    _ = l.take n := List.append_nil _

@[simp] theorem trim_order (r : Recency κ ν) (n : Nat) : (r.trim n).order = r.order.take n :=
  filter_mem_take r.nodup n

theorem put_length {limit : Option Nat} (h : limit = some n) : (r.put limit k v).order.length ≤ n := by
  subst h
  rw [put, trim_order]
  exact List.length_take_le _ _

theorem trim_of_le (h : r.order.length ≤ n) : r.trim n = r :=
  keep_eq_self fun k hk => by simpa [List.take_of_length_le h] using hk

/-- One too many: the least recently used goes. -/
theorem trim_of_concat {l : List κ} (h : r.order = l ++ [k]) : r.trim l.length = r.remove k := by
  have hnd := r.nodup
  rw [h] at hnd
  refine keep_congr fun k' hk' => ?_
  rw [h] at hk' ⊢
  rcases List.mem_append.mp hk' with hl | hl
  · have hne : k' ≠ k := fun he => (List.nodup_append.mp hnd).2.2 k' hl k (by simp) he
    simp [hl, hne]
  · obtain rfl := List.mem_singleton.mp hl
    have hnot : k' ∉ l := fun hm => (List.nodup_append.mp hnd).2.2 k' hm k' (by simp) rfl
    simp [hnot]

/-- Room made before a value comes in, or the rest cut off after it has. -/
theorem trim_insert (r : Recency κ ν) (n : Nat) (k : κ) (v : ν) :
    (r.insert k v).trim (n + 1) = ((r.remove k).trim n).insert k v := by
  have hout : ((r.order.filter (· != k)).take n).filter (· != k) = (r.order.filter (· != k)).take n :=
    List.filter_eq_self.mpr fun k' hk' => (List.mem_filter.mp (List.mem_of_mem_take hk')).2
  refine Recency.ext ?_ (funext fun k' => ?_)
  · rw [trim_order, insert_order, List.take_succ_cons, insert_order, trim_order, remove_order, hout]
  · by_cases hk : k' = k
    · subst hk
      simp [insert, trim, keep_value]
    · by_cases hm : k' ∈ (r.order.filter (· != k)).take n <;> simp [insert, trim, remove, keep_value, hk, hm]

theorem put_none (r : Recency κ ν) (k : κ) (v : ν) : r.put none k v = r.insert k v := rfl

theorem put_succ (r : Recency κ ν) (n : Nat) (k : κ) (v : ν) :
    r.put (some (n + 1)) k v = ((r.remove k).trim n).insert k v := trim_insert r n k v

end Recency

end Lib
