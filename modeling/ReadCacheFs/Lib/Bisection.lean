/-
Bisection: the first element of a list past a cut, found by halving the
part still open. Where no element before a past one is past it, that is what
a scan from the front finds (`bisect_eq_findIdx`).
-/
import Mathlib.Data.List.Basic

namespace Lib

variable {α : Type*} {past : α → Bool} {l : List α}

/-- The part still open is the `len` elements from `first` on. -/
def bisect (past : α → Bool) (l : List α) (first len : Nat) : Nat :=
  if len = 0 then first
  else
    let half := len / 2
    match l[first + half]? with
    | none => first
    | some x =>
      if past x then bisect past l first half
      else bisect past l (first + half + 1) (len - half - 1)
termination_by len

/-- No element before one that is past the cut is past it. -/
def CutAt (past : α → Bool) (l : List α) : Prop := l.Pairwise fun a b => past a = true → past b = true

theorem CutAt.mono (h : CutAt past l) {i j : Nat} (hij : i ≤ j) (hj : j < l.length) (hp : past l[i] = true) :
    past l[j] = true := by
  rcases Nat.lt_or_ge i j with hlt | hge
  · exact List.pairwise_iff_getElem.mp h i j (by omega) hj hlt hp
  · obtain rfl : i = j := by omega
    exact hp

/-- The search ends at the cut: no element before it is past, and all from it on are. -/
theorem bisect_spec (h : CutAt past l) (first len : Nat) (hlen : first + len ≤ l.length)
    (hbefore : ∀ (i : Nat) (hi : i < l.length), i < first → past l[i] = false)
    (hafter : ∀ (i : Nat) (hi : i < l.length), first + len ≤ i → past l[i] = true) :
    bisect past l first len ≤ l.length ∧
      (∀ (i : Nat) (hi : i < l.length), i < bisect past l first len → past l[i] = false) ∧
      ∀ (i : Nat) (hi : i < l.length), bisect past l first len ≤ i → past l[i] = true := by
  fun_induction bisect past l first len with
  | case1 first => exact ⟨hlen, hbefore, hafter⟩
  | case2 first len hne half hnone =>
    rw [List.getElem?_eq_none_iff] at hnone
    omega
  | case3 first len hne half x hx hpast ih =>
    obtain ⟨hmid, rfl⟩ := List.getElem?_eq_some_iff.mp hx
    exact ih (by omega) hbefore fun i hi hle => h.mono hle hi hpast
  | case4 first len hne half x hx hpast ih =>
    obtain ⟨hmid, rfl⟩ := List.getElem?_eq_some_iff.mp hx
    refine ih (by omega) (fun i hi hlt => ?_) fun i hi hle => hafter i hi (by omega)
    by_contra hp
    have hle : i ≤ first + half := by omega
    exact hpast (h.mono hle hmid (by simpa using hp))

theorem bisect_eq_findIdx (h : CutAt past l) : bisect past l 0 l.length = l.findIdx past := by
  obtain ⟨hle, hbefore, hafter⟩ := bisect_spec h 0 l.length (by omega) (by omega) (by omega)
  rcases Nat.lt_or_ge (bisect past l 0 l.length) l.length with hlt | hge
  · exact ((List.findIdx_eq hlt).mpr ⟨hafter _ hlt (Nat.le_refl _), fun j hj => hbefore j (by omega) hj⟩).symm
  · have hall : ∀ x ∈ l, past x = false := by
      intro x hx
      obtain ⟨i, hi, rfl⟩ := List.getElem_of_mem hx
      exact hbefore i hi (by omega)
    rw [List.findIdx_eq_length_of_false hall]
    omega

end Lib
