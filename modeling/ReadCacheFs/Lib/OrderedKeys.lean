/-
Scanning an ordered map: from a key on, up to the first key that does not
match. The keys visited are those from which back to the start all match
(`mem_scan`).
-/
import ReadCacheFs.Lib.Slices
import Std.Data.TreeMap

namespace Lib

variable {κ : Type*} [Ord κ] {keys keys' : List κ} {start k : κ} {filter p : κ → Bool}

/-- From `start` up to `k` every key of the list matches. -/
def matchedFrom (keys : List κ) (start : κ) (filter : κ → Bool) (k : κ) : Bool :=
  (compare start k).isLE && keys.all fun k' => !((compare start k').isLE && (compare k' k).isLE) || filter k'

theorem matchedFrom_congr (h : ∀ k, k ∈ keys ↔ k ∈ keys') :
    matchedFrom keys start filter k = matchedFrom keys' start filter k := by
  unfold matchedFrom
  congr 1
  rw [Bool.eq_iff_iff, List.all_eq_true, List.all_eq_true]
  simp only [h]

variable [Std.TransOrd κ]

theorem mem_takeWhile_of_ordered (h : keys.Pairwise fun a b => compare a b = .lt) :
    k ∈ keys.takeWhile p ↔ k ∈ keys ∧ ∀ k' ∈ keys, (compare k' k).isLE = true → p k' = true := by
  induction keys with
  | nil => simp
  | cons a keys ih =>
    obtain ⟨ha, hkeys⟩ := List.pairwise_cons.mp h
    rw [List.takeWhile_cons]
    split
    next hp =>
      rw [List.mem_cons, List.mem_cons, ih hkeys]
      constructor
      · intro hk
        rcases hk with rfl | ⟨hk, hall⟩
        · refine ⟨.inl rfl, fun k' hk' hle => ?_⟩
          rcases List.mem_cons.mp hk' with rfl | hk'
          · exact hp
          · rw [Std.OrientedCmp.gt_of_lt (ha k' hk')] at hle
            cases hle
        · refine ⟨.inr hk, fun k' hk' hle => ?_⟩
          rcases List.mem_cons.mp hk' with rfl | hk'
          · exact hp
          · exact hall k' hk' hle
      · intro ⟨hk, hall⟩
        rcases hk with rfl | hk
        · exact .inl rfl
        · exact .inr ⟨hk, fun k' hk' => hall k' (List.mem_cons_of_mem _ hk')⟩
    next hp =>
      constructor
      · intro hk
        cases hk
      · intro ⟨hk, hall⟩
        refine absurd (hall a List.mem_cons_self ?_) hp
        rcases List.mem_cons.mp hk with rfl | hk
        · exact Std.ReflCmp.isLE_rfl
        · rw [ha k hk]
          rfl

theorem mem_scan (h : keys.Pairwise fun a b => compare a b = .lt) :
    k ∈ (keys.dropWhile fun k => (compare k start).isLT).takeWhile filter ↔
      k ∈ keys ∧ matchedFrom keys start filter k = true := by
  have hstart : ∀ a : κ, (compare a start).isLT = false ↔ (compare start a).isLE = true := by
    intro a
    rw [show compare start a = (compare a start).swap from Std.OrientedCmp.eq_swap]
    cases compare a start <;> simp
  have hdrop : keys.Pairwise fun a b => (compare b start).isLT = true → (compare a start).isLT = true := by
    refine h.imp fun {a b} hab hb => ?_
    rw [Ordering.isLT_iff_eq_lt] at hb ⊢
    exact Std.TransCmp.lt_trans hab hb
  rw [mem_takeWhile_of_ordered (h.sublist (List.dropWhile_sublist _))]
  simp only [mem_dropWhile_of_pairwise hdrop, hstart, matchedFrom, Bool.and_eq_true, List.all_eq_true,
    Bool.or_eq_true, Bool.not_eq_true', Bool.and_eq_false_iff, and_assoc, and_congr_right_iff]
  intro _ _
  constructor
  · intro hall k' hk'
    by_cases hs : (compare start k').isLE = true
    · by_cases hle : (compare k' k).isLE = true
      · exact .inr (hall k' ⟨hk', hs⟩ hle)
      · exact .inl (.inr (by simpa using hle))
    · exact .inl (.inl (by simpa using hs))
  · intro hor k' ⟨hk', hs⟩ hle
    rcases hor k' hk' with (hns | hnle) | hp
    · rw [hs] at hns
      cases hns
    · rw [hle] at hnle
      cases hnle
    · exact hp

/-- Where the keys that match are all from `start` on and nothing between
lacks, the scan visits all of them. -/
theorem mem_scan_of_convex (h : keys.Pairwise fun a b => compare a b = .lt)
    (hstart : ∀ a ∈ keys, filter a = true → (compare start a).isLE = true)
    (hbetween : ∀ a ∈ keys, ∀ b ∈ keys, (compare start a).isLE = true → (compare a b).isLE = true →
      filter b = true → filter a = true) :
    k ∈ (keys.dropWhile fun k => (compare k start).isLT).takeWhile filter ↔ k ∈ keys ∧ filter k = true := by
  rw [mem_scan h, and_congr_right_iff]
  intro hk
  rw [matchedFrom, Bool.and_eq_true, List.all_eq_true]
  constructor
  · intro ⟨hle, hall⟩
    have := hall k hk
    simpa [hle] using this
  · intro hf
    refine ⟨hstart k hk hf, fun a ha => ?_⟩
    by_cases hsa : (compare start a).isLE = true
    · by_cases hak : (compare a k).isLE = true
      · simp [hbetween a ha k hk hsa hak hf]
      · simp [hak]
    · simp [hsa]

/-- In an order that begins with `first`, a scan from the least key of a
value of `first` visits all keys of that value. -/
theorem mem_scan_of_first {L : Type*} [Ord L] [Std.TransOrd L] [Std.LawfulEqOrd L] [BEq L] [LawfulBEq L]
    (first : κ → L) (start : κ) (h : keys.Pairwise fun a b => compare a b = .lt)
    (hfirst : ∀ a b : κ, (compare a b).isLE = true → (compare (first a) (first b)).isLE = true)
    (hstart : ∀ a ∈ keys, first a = first start → (compare start a).isLE = true) :
    k ∈ (keys.dropWhile fun k => (compare k start).isLT).takeWhile (fun k => first k == first start) ↔
      k ∈ keys ∧ first k = first start := by
  have hbetween : ∀ a ∈ keys, ∀ b ∈ keys, (compare start a).isLE = true → (compare a b).isLE = true →
      (first b == first start) = true → (first a == first start) = true := by
    intro a _ b _ hsa hab hb
    rw [beq_iff_eq] at hb ⊢
    have hle := hfirst a b hab
    rw [hb] at hle
    exact Std.LawfulEqOrd.eq_of_compare (Std.OrientedCmp.isLE_antisymm hle (hfirst start a hsa))
  rw [mem_scan_of_convex h (fun a ha hf => hstart a ha (beq_iff_eq.mp hf)) hbetween, beq_iff_eq]

end Lib
