/-
Cutting lists: the ends trimmed of the elements that satisfy `p`, a list
cut at the first occurrence of an element or of a pattern, and the pieces
between separators.
-/
import Mathlib.Data.List.DropRight
import ReadCacheFs.Lib.Slices

namespace Lib

variable {α : Type*}

/-! ## Trimming -/

section Trim

variable {p : α → Bool} {l a b : List α} {c : α}

/-- The list without the elements at its ends that satisfy `p`. -/
def trim (p : α → Bool) (l : List α) : List α := (l.dropWhile p).rdropWhile p

@[simp] theorem trim_nil : trim p [] = [] := rfl

theorem dropWhile_append_cons (hc : p c = false) : (a ++ c :: b).dropWhile p = a.dropWhile p ++ c :: b := by
  induction a with
  | nil => simp [hc]
  | cons x a ih =>
    rw [List.cons_append, List.dropWhile_cons, List.dropWhile_cons]
    split
    · exact ih
    · rfl

theorem rdropWhile_append_cons (hc : p c = false) : (a ++ c :: b).rdropWhile p = a ++ c :: b.rdropWhile p := by
  have hr : (a ++ c :: b).reverse = b.reverse ++ c :: a.reverse := by simp
  rw [List.rdropWhile, hr, dropWhile_append_cons hc, List.rdropWhile]
  simp

/-- Trimming takes from both sides up to what is not trimmed. -/
theorem trim_append_cons (hc : p c = false) : trim p (a ++ c :: b) = a.dropWhile p ++ c :: b.rdropWhile p := by
  rw [trim, dropWhile_append_cons hc, rdropWhile_append_cons hc]

@[simp] theorem trim_dropWhile : trim p (l.dropWhile p) = trim p l := by
  rw [trim, List.dropWhile_idempotent, trim]

theorem mem_of_mem_trim {x : α} (h : x ∈ trim p l) : x ∈ l :=
  (List.dropWhile_suffix p).subset ((List.rdropWhile_prefix p _).subset h)

theorem trim_eq_nil (h : ∀ x ∈ l, p x = true) : trim p l = [] := by
  rw [List.eq_nil_iff_forall_not_mem]
  intro x hx
  rw [trim, (List.dropWhile_eq_nil_iff (p := p)).mpr h] at hx
  cases hx

theorem all_or_kept (p : α → Bool) (l : List α) :
    (∀ x ∈ l, p x = true) ∨ ∃ a c b, l = a ++ c :: b ∧ p c = false := by
  by_cases h : ∃ c ∈ l, p c = false
  · obtain ⟨c, hm, hc⟩ := h
    obtain ⟨a, b, hl⟩ := List.append_of_mem hm
    exact .inr ⟨a, c, b, hl, hc⟩
  · refine .inl fun x hx => ?_
    by_contra hp
    exact h ⟨x, hx, by simpa using hp⟩

@[simp] theorem trim_rdropWhile : trim p (l.rdropWhile p) = trim p l := by
  rcases all_or_kept p l with hall | ⟨a, c, b, rfl, hc⟩
  · rw [trim_eq_nil hall, List.rdropWhile_eq_nil_iff.mpr hall, trim_nil]
  · rw [rdropWhile_append_cons hc, trim_append_cons hc, trim_append_cons hc, List.rdropWhile_idempotent]

/-- Nothing is left to trim at the front. -/
theorem dropWhile_trim : (trim p l).dropWhile p = trim p l := by
  rcases all_or_kept p l with hall | ⟨a, c, b, rfl, hc⟩
  · rw [trim_eq_nil hall, List.dropWhile_nil]
  · rw [trim_append_cons hc, dropWhile_append_cons hc, List.dropWhile_idempotent]

end Trim

/-! ## The first occurrence -/

section First

variable [DecidableEq α] {l m : List α} {a : α}

theorem idxOf?_append_cons (h : a ∉ l) : (l ++ a :: m).idxOf? a = some l.length := by
  induction l with
  | nil => simp [List.idxOf?_cons]
  | cons x l ih =>
    simp only [List.mem_cons, not_or] at h
    have hx : (x == a) = false := beq_eq_false_iff_ne.mpr (Ne.symm h.1)
    rw [List.cons_append, List.idxOf?_cons, hx, ih h.2]
    simp

/-- A list is free of `a`, or cut at its first `a`. -/
theorem exists_first_cut (l : List α) (a : α) :
    a ∉ l ∨ ∃ before after, l = before ++ a :: after ∧ a ∉ before := by
  induction l with
  | nil => simp
  | cons x l ih =>
    by_cases hx : x = a
    · exact .inr ⟨[], l, by simp [hx], by simp⟩
    · rcases ih with h | ⟨before, after, rfl, hb⟩
      · exact .inl (by simp [h, Ne.symm hx])
      · exact .inr ⟨x :: before, after, rfl, by simp [hb, Ne.symm hx]⟩

end First

section FirstOf

variable {p q : α → Bool} {l : List α}

theorem findIdx_or (p q : α → Bool) (l : List α) :
    l.findIdx (fun x => p x || q x) = min (l.findIdx p) (l.findIdx q) := by
  induction l with
  | nil => rfl
  | cons x l ih =>
    rw [List.findIdx_cons, List.findIdx_cons, List.findIdx_cons, ih]
    cases p x <;> cases q x <;> simp only [cond_true, cond_false, Bool.or_true, Bool.or_false] <;> omega

/-- A list cut before the first element that satisfies `p`. -/
theorem cut_of_findIdx?_eq_some {i : Nat} (h : l.findIdx? p = some i) :
    l.take i = l.takeWhile (fun x => !p x) ∧ l.drop i = l.dropWhile (fun x => !p x) := by
  obtain ⟨-, rfl⟩ := List.findIdx?_eq_some_iff_findIdx_eq.mp h
  constructor
  · simp only [List.takeWhile_eq_take_findIdx_not, Bool.not_not]
  · simp only [List.dropWhile_eq_drop_findIdx_not, Bool.not_not]

theorem takeWhile_of_findIdx?_eq_none (h : l.findIdx? p = none) : l.takeWhile (fun x => !p x) = l :=
  List.takeWhile_eq_self_iff.mpr fun x hx => by simp [List.findIdx?_eq_none_iff.mp h x hx]

end FirstOf

section FirstInfix

variable [DecidableEq α] {pattern l : List α} {n : Nat}

/-- Where the pattern first starts in the list. -/
def findInfix (pattern : List α) : List α → Option Nat
  | [] => if pattern = [] then some 0 else none
  | x :: l => if pattern.isPrefixOf (x :: l) then some 0 else (findInfix pattern l).map (· + 1)

theorem prefix_of_findInfix (h : findInfix pattern l = some n) : pattern <+: l.drop n := by
  induction l generalizing n with
  | nil =>
    simp only [findInfix] at h
    split at h
    next hp => simp [hp]
    · cases h
  | cons x l ih =>
    simp only [findInfix] at h
    split at h
    next hp =>
      cases h
      exact List.isPrefixOf_iff_prefix.mp hp
    · obtain ⟨m, hm, rfl⟩ := Option.map_eq_some_iff.mp h
      exact ih hm

/-- It does not start before. -/
theorem not_prefix_of_findInfix (h : findInfix pattern l = some n) {m : Nat} (hm : m < n) :
    ¬ pattern <+: l.drop m := by
  induction l generalizing n m with
  | nil =>
    simp only [findInfix] at h
    split at h
    · cases h
      omega
    · cases h
  | cons x l ih =>
    simp only [findInfix] at h
    split at h
    · cases h
      omega
    next hp =>
      obtain ⟨k, hk, rfl⟩ := Option.map_eq_some_iff.mp h
      cases m with
      | zero => exact fun hpre => hp (List.isPrefixOf_iff_prefix.mpr hpre)
      | succ m => exact ih hk (by omega)

theorem findInfix_isSome (h : pattern <:+: l) : ∃ n, findInfix pattern l = some n := by
  induction l with
  | nil => exact ⟨0, by simp [findInfix, List.infix_nil.mp h]⟩
  | cons x l ih =>
    simp only [findInfix]
    split
    · exact ⟨0, rfl⟩
    next hp =>
      rcases List.infix_cons_iff.mp h with h | h
      · exact absurd (List.isPrefixOf_iff_prefix.mpr h) hp
      · obtain ⟨n, hn⟩ := ih h
        exact ⟨n + 1, by rw [hn]; rfl⟩

omit [DecidableEq α] in
/-- The pattern starts before an element that it does not have only if it also ends there. -/
theorem infix_of_prefix_drop {front rest : List α} {x : α} (hx : x ∉ pattern) (hn : n ≤ front.length)
    (h : pattern <+: (front ++ x :: rest).drop n) : pattern <:+: front := by
  rw [List.drop_append_of_le_length hn] at h
  have hmid : front.drop n ++ [x] <+: front.drop n ++ x :: rest := ⟨rest, by simp⟩
  rcases List.prefix_or_prefix_of_prefix h hmid with hp | hp
  · rcases List.prefix_concat_iff.mp hp with rfl | hp
    · simp at hx
    · exact hp.isInfix.trans (List.drop_suffix n front).isInfix
  · exact absurd (hp.subset (by simp)) hx

end FirstInfix

/-- Every element of a piece is one of the list, and no separator. -/
theorem mem_splitOn [DecidableEq α] {l piece : List α} {a x : α} (h : piece ∈ l.splitOn a) (hx : x ∈ piece) :
    x ∈ l ∧ x ≠ a := by
  induction l generalizing piece with
  | nil =>
    simp only [List.splitOn_nil, List.mem_singleton] at h
    subst h
    cases hx
  | cons y l ih =>
    rw [List.splitOn_cons_eq_if_modifyHead] at h
    split at h
    · rcases List.mem_cons.mp h with rfl | h
      · cases hx
      · exact ⟨.tail _ (ih h hx).1, (ih h hx).2⟩
    next hy =>
      obtain ⟨q, qs, hq⟩ := List.exists_cons_of_ne_nil (List.splitOn_ne_nil a l)
      rw [hq, List.modifyHead_cons] at h
      rcases List.mem_cons.mp h with rfl | h
      · rcases List.mem_cons.mp hx with rfl | hx
        · exact ⟨.head _, by simpa using hy⟩
        · have := ih (hq ▸ List.mem_cons_self) hx
          exact ⟨.tail _ this.1, this.2⟩
      · have := ih (hq ▸ List.mem_cons_of_mem _ h) hx
        exact ⟨.tail _ this.1, this.2⟩

/-- Every element of the pieces put together is of a piece or of the separator. -/
theorem mem_intercalate {sep : List α} {pieces : List (List α)} {x : α} (h : x ∈ sep.intercalate pieces) :
    x ∈ sep ∨ ∃ piece ∈ pieces, x ∈ piece := by
  induction pieces with
  | nil => cases h
  | cons piece pieces ih =>
    by_cases hne : pieces = []
    · subst hne
      rw [List.intercalate_singleton] at h
      exact .inr ⟨piece, List.mem_cons_self, h⟩
    · rw [List.intercalate_cons_of_ne_nil hne, List.mem_append, List.mem_append] at h
      rcases h with (h | h) | h
      · exact .inr ⟨piece, List.mem_cons_self, h⟩
      · exact .inl h
      · exact (ih h).imp_right fun ⟨p, hp, hx⟩ => ⟨p, List.mem_cons_of_mem _ hp, hx⟩

/-- An element that is no separator is in a piece. -/
theorem exists_mem_splitOn [DecidableEq α] {l : List α} {a x : α} (h : x ∈ l) (hx : x ≠ a) :
    ∃ piece ∈ l.splitOn a, x ∈ piece := by
  obtain ⟨before, after, rfl⟩ := List.append_of_mem h
  induction before with
  | nil =>
    obtain ⟨q, qs, hq⟩ := List.exists_cons_of_ne_nil (List.splitOn_ne_nil a after)
    rw [List.nil_append, List.splitOn_cons_eq_if_modifyHead, if_neg (by simpa using hx), hq]
    exact ⟨x :: q, by simp, by simp⟩
  | cons y before ih =>
    obtain ⟨piece, hp, hm⟩ := ih (by simp)
    obtain ⟨q, qs, hq⟩ := List.exists_cons_of_ne_nil (List.splitOn_ne_nil a (before ++ x :: after))
    rw [List.cons_append, List.splitOn_cons_eq_if_modifyHead]
    split
    · exact ⟨piece, by simp [hp], hm⟩
    · rw [hq, List.mem_cons] at hp
      rw [hq, List.modifyHead_cons]
      rcases hp with rfl | hp
      · exact ⟨y :: piece, by simp, by simp [hm]⟩
      · exact ⟨piece, by simp [hp], hm⟩

/-- A part of `front ++ back` that has all of it that satisfies `p`, as all of `back` does, ends in `back`. -/
theorem exists_append_of_sublist {p : α → Bool} {l front back : List α} (hs : l.Sublist (front ++ back))
    (hf : l.filter p = (front ++ back).filter p) (hback : ∀ x ∈ back, p x = true) : ∃ kept, l = kept ++ back := by
  obtain ⟨l₁, l₂, rfl, hl₁, hl₂⟩ := List.sublist_append_iff.mp hs
  have hall : l₂.filter p = l₂ := List.filter_eq_self.mpr fun x hx => hback x (hl₂.subset hx)
  rw [List.filter_append, List.filter_append, hall, List.filter_eq_self.mpr hback] at hf
  have hlen := congrArg List.length hf
  have hle := (hl₁.filter p).length_le
  rw [List.length_append, List.length_append] at hlen
  exact ⟨l₁, by rw [hl₂.eq_of_length_le (by omega)]⟩

theorem length_splitOn_le [DecidableEq α] (l : List α) (a : α) : (l.splitOn a).length ≤ l.length + 1 := by
  induction l with
  | nil => simp
  | cons x l ih =>
    rw [List.splitOn_cons_eq_if_modifyHead]
    split
    · simpa using ih
    · simp only [List.length_modifyHead, List.length_cons]
      omega

end Lib
