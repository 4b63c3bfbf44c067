/-
Contiguous parts of a list, and buffers written part by part.

`slice xs off len` is the part `[off, off + len)` of `xs`. A list of ranges
`Tiles` an interval when they are non-empty and follow one another without
gaps. `writes_target`: writes that all agree with one target leave the
target wherever one of them wrote and the old content elsewhere, in
whatever order they are made, so a tiling of an interval fills it.
-/
import Mathlib.Algebra.GroupWithZero.Nat
import Mathlib.Data.List.Basic

namespace Lib

variable {α : Type*}

/-- The elements of `xs` at `[off, off + len)`. -/
def slice (xs : List α) (off len : Nat) : List α := (xs.drop off).take len

@[simp] theorem length_slice (xs : List α) (off len : Nat) :
    (slice xs off len).length = min len (xs.length - off) := by simp [slice]

theorem length_slice_of_le {xs : List α} {off len : Nat} (h : off + len ≤ xs.length) :
    (slice xs off len).length = len := by simp; omega

theorem getElem?_slice (xs : List α) (off len i : Nat) :
    (slice xs off len)[i]? = if i < len then xs[off + i]? else none := by
  simp only [slice, List.getElem?_take, List.getElem?_drop]

@[simp] theorem slice_zero_length (xs : List α) : slice xs 0 xs.length = xs := by simp [slice]

theorem take_append_slice (xs : List α) (n m : Nat) : xs.take n ++ slice xs n m = xs.take (n + m) := by
  rw [slice, List.take_add]

/-- A part of a part. -/
theorem slice_slice {xs : List α} {a n b m : Nat} (h : b + m ≤ n) :
    slice (slice xs a n) b m = slice xs (a + b) m := by
  apply List.ext_getElem?
  intro i
  simp only [getElem?_slice]
  split
  · rw [if_pos (by omega), Nat.add_assoc]
  · rfl

/-! ## Tilings -/

/-- The ranges (start, length) are non-empty, consecutive, and cover `[a, b)`. -/
inductive Tiles : Nat → Nat → List (Nat × Nat) → Prop
  | nil : Tiles a a []
  | cons : 0 < n → Tiles (a + n) b rs → Tiles a b ((a, n) :: rs)

theorem Tiles.le {a b : Nat} {rs : List (Nat × Nat)} (h : Tiles a b rs) : a ≤ b := by
  induction h with
  | nil => exact Nat.le_refl _
  | cons _ _ ih => omega

/-- The ranges are together as long as the interval. -/
theorem Tiles.sum {a b : Nat} {rs : List (Nat × Nat)} (h : Tiles a b rs) : a + (rs.map (·.2)).sum = b := by
  induction h with
  | nil => rfl
  | cons _ _ ih =>
    rw [List.map_cons, List.sum_cons]
    omega

/-- Each range of a tiling lies in the interval. -/
theorem Tiles.mem {a b : Nat} {rs : List (Nat × Nat)} (h : Tiles a b rs) {r : Nat × Nat} (hr : r ∈ rs) :
    a ≤ r.1 ∧ r.1 + r.2 ≤ b ∧ 0 < r.2 := by
  induction h with
  | nil => simp at hr
  | cons hn h ih =>
    have hle := h.le
    simp only [List.mem_cons] at hr
    rcases hr with rfl | hr
    · exact ⟨Nat.le_refl _, hle, hn⟩
    · have := ih hr; omega

/-- Each point of the interval lies in some range. -/
theorem Tiles.cover {a b : Nat} {rs : List (Nat × Nat)} (h : Tiles a b rs) {i : Nat} (ha : a ≤ i) (hb : i < b) :
    ∃ r ∈ rs, r.1 ≤ i ∧ i < r.1 + r.2 := by
  induction h with
  | nil => omega
  | @cons n a b rs hn h ih =>
    by_cases hi : i < a + n
    · exact ⟨(a, n), by simp, ha, hi⟩
    · obtain ⟨r, hr, h1⟩ := ih (by omega) hb
      exact ⟨r, by simp [hr], h1⟩

theorem Tiles.snoc {a b n : Nat} {rs : List (Nat × Nat)} (h : Tiles a b rs) (hn : 0 < n) :
    Tiles a (b + n) (rs ++ [(b, n)]) := by
  induction h with
  | nil => exact .cons hn .nil
  | cons hm _ ih => exact .cons hm ih

/-! ## Ranges in order -/

/-- The ranges lie in `[a, b)`, each after the one before. -/
def Ascending (a b : Nat) : List (Nat × Nat) → Prop
  | [] => True
  | r :: rs => a ≤ r.1 ∧ r.1 + r.2 ≤ b ∧ Ascending (r.1 + r.2) b rs

theorem Ascending.widen {a a' b b' : Nat} (ha : a' ≤ a) (hb : b ≤ b') :
    ∀ {rs : List (Nat × Nat)}, Ascending a b rs → Ascending a' b' rs
  | [], _ => trivial
  | _ :: _, h => ⟨Nat.le_trans ha h.1, Nat.le_trans h.2.1 hb, Ascending.widen (Nat.le_refl _) hb h.2.2⟩

theorem Ascending.append {b b' c : Nat} (hbb : b ≤ b') (hc : b' ≤ c) {rs : List (Nat × Nat)}
    (h2 : Ascending b' c rs) :
    ∀ {a : Nat} {ls : List (Nat × Nat)}, a ≤ b → Ascending a b ls → Ascending a c (ls ++ rs)
  | _, [], ha, _ => h2.widen (Nat.le_trans ha hbb) (Nat.le_refl _)
  | _, _ :: _, _, h =>
    ⟨h.1, Nat.le_trans (Nat.le_trans h.2.1 hbb) hc, Ascending.append hbb hc h2 h.2.1 h.2.2⟩

theorem Ascending.lower {a b : Nat} : ∀ {rs : List (Nat × Nat)}, Ascending a b rs → ∀ r ∈ rs, a ≤ r.1
  | _ :: _, h, q, hq => by
    rcases List.mem_cons.mp hq with rfl | hq
    · exact h.1
    · have h1 := h.1
      have h2 := Ascending.lower h.2.2 q hq
      omega

theorem Ascending.pairwise {a b : Nat} : ∀ {rs : List (Nat × Nat)}, Ascending a b rs →
    rs.Pairwise fun r q => r.1 + r.2 ≤ q.1
  | [], _ => .nil
  | _ :: _, h => List.pairwise_cons.mpr ⟨h.2.2.lower, h.2.2.pairwise⟩

/-! ## Buffers written part by part -/

/-- `ys` written over `buf` from `pos` on. -/
def writeAt (buf : List α) (pos : Nat) (ys : List α) : List α :=
  buf.take pos ++ ys ++ buf.drop (pos + ys.length)

theorem length_writeAt {buf : List α} {pos : Nat} {ys : List α} (h : pos + ys.length ≤ buf.length) :
    (writeAt buf pos ys).length = buf.length := by
  simp [writeAt]; omega

theorem getElem?_writeAt {buf : List α} {pos : Nat} {ys : List α} (h : pos + ys.length ≤ buf.length) (i : Nat) :
    (writeAt buf pos ys)[i]? = if pos ≤ i ∧ i < pos + ys.length then ys[i - pos]? else buf[i]? := by
  have hp : (buf.take pos).length = pos := by simp; omega
  unfold writeAt
  by_cases h1 : i < pos
  · rw [if_neg (by omega), List.append_assoc, List.getElem?_append_left (by omega), List.getElem?_take_of_lt h1]
  by_cases h2 : i < pos + ys.length
  · rw [if_pos ⟨by omega, h2⟩, List.append_assoc, List.getElem?_append_right (by omega),
      List.getElem?_append_left (by omega), hp]
  · rw [if_neg (by omega), List.getElem?_append_right (by simp; omega), List.getElem?_drop]
    congr 1; simp; omega

/-- The writes (position, elements) made one after another. -/
def writes (buf : List α) (ws : List (Nat × List α)) : List α :=
  ws.foldl (fun b w => writeAt b w.1 w.2) buf

/-- Each write puts what `target` has there, inside the buffer. -/
def AgreesWith (target : List α) (ws : List (Nat × List α)) : Prop :=
  ∀ w ∈ ws, w.2 = slice target w.1 w.2.length ∧ w.1 + w.2.length ≤ target.length

/-- Writes that agree with `target`, in any order: `target` where one of
them wrote, the old content elsewhere. -/
theorem writes_target {target : List α} : ∀ {ws : List (Nat × List α)} {buf : List α}, AgreesWith target ws →
    buf.length = target.length → ∀ i,
      (writes buf ws)[i]? = if (∃ w ∈ ws, w.1 ≤ i ∧ i < w.1 + w.2.length) then target[i]? else buf[i]?
  | [], buf, _, _, i => by simp [writes]
  | w :: ws, buf, h, hb, i => by
    have hw := h w (by simp)
    have hws : AgreesWith target ws := fun v hv => h v (by simp [hv])
    have hl : (writeAt buf w.1 w.2).length = target.length := by rw [length_writeAt (by omega), hb]
    change (writes (writeAt buf w.1 w.2) ws)[i]? = _
    rw [writes_target hws hl i]
    by_cases h1 : ∃ v ∈ ws, v.1 ≤ i ∧ i < v.1 + v.2.length
    · rw [if_pos h1, if_pos]
      obtain ⟨v, hv, hi⟩ := h1
      exact ⟨v, by simp [hv], hi⟩
    rw [if_neg h1, getElem?_writeAt (by omega)]
    by_cases h2 : w.1 ≤ i ∧ i < w.1 + w.2.length
    · rw [if_pos h2, if_pos ⟨w, by simp, h2⟩, hw.1, getElem?_slice, if_pos (by omega)]
      congr 1; omega
    · rw [if_neg h2, if_neg]
      rintro ⟨v, hv, hi⟩
      simp only [List.mem_cons] at hv
      rcases hv with rfl | hv
      · exact h2 hi
      · exact h1 ⟨v, hv, hi⟩

/-- Parts of `src` that tile `[a, a + n)`, written in any order each to its
place, leave that part of `src` at the front of the buffer. -/
theorem writes_tiles {src buf : List α} {a n : Nat} {rs rs' : List (Nat × Nat)} (ht : Tiles a (a + n) rs)
    (hp : rs'.Perm rs) (hsrc : a + n ≤ src.length) (hbuf : n ≤ buf.length) :
    writes buf (rs'.map fun r => (r.1 - a, slice src r.1 r.2)) = writeAt buf 0 (slice src a n) := by
  have hlen : (slice src a n).length = n := length_slice_of_le hsrc
  have htarget : (writeAt buf 0 (slice src a n)).length = buf.length := length_writeAt (by omega)
  have hget : ∀ i, (writeAt buf 0 (slice src a n))[i]? = if i < n then src[a + i]? else buf[i]? := by
    intro i
    rw [getElem?_writeAt (by omega), hlen, getElem?_slice]
    by_cases hi : i < n
    · rw [if_pos ⟨Nat.zero_le i, by omega⟩, Nat.sub_zero, if_pos hi, if_pos hi]
    · rw [if_neg (by omega), if_neg hi]
  have hpart : ∀ r ∈ rs', a ≤ r.1 ∧ r.1 + r.2 ≤ a + n ∧ (slice src r.1 r.2).length = r.2 := by
    intro r hr
    obtain ⟨h1, h2, _⟩ := ht.mem (hp.mem_iff.mp hr)
    exact ⟨h1, h2, length_slice_of_le (by omega)⟩
  have hagrees : AgreesWith (writeAt buf 0 (slice src a n)) (rs'.map fun r => (r.1 - a, slice src r.1 r.2)) := by
    intro w hw
    obtain ⟨r, hr, rfl⟩ := List.mem_map.mp hw
    obtain ⟨h1, h2, h3⟩ := hpart r hr
    rw [h3]
    refine ⟨List.ext_getElem? fun i => ?_, by omega⟩
    rw [getElem?_slice, getElem?_slice, hget]
    split
    · rw [if_pos (by omega)]
      congr 1
      omega
    · rfl
  refine List.ext_getElem? fun i => ?_
  rw [writes_target hagrees htarget.symm]
  split
  · rfl
  next hnot =>
    -- What no part covers is past the end of the interval.
    rw [hget, if_neg fun hi => ?_]
    obtain ⟨r, hr, h1, h2⟩ := ht.cover (show a ≤ a + i by omega) (by omega)
    obtain ⟨h3, _, h4⟩ := hpart r (hp.mem_iff.mpr hr)
    exact hnot ⟨_, List.mem_map.mpr ⟨r, hp.mem_iff.mpr hr, rfl⟩, by dsimp only; omega, by dsimp only; omega⟩

/-! ## Prefixes of an ordered list -/

section Ordered

variable {α : Type*} {p : α → Bool} {x : α} {l : List α}

theorem mem_dropWhile_of_pairwise
    (h : l.Pairwise fun a b => p b = true → p a = true) : x ∈ l.dropWhile p ↔ x ∈ l ∧ p x = false := by
  induction l with
  | nil => simp
  | cons a l ih =>
    rw [List.pairwise_cons] at h
    rw [List.dropWhile_cons]
    split
    next ha =>
      rw [ih h.2, List.mem_cons]
      refine ⟨fun hx => ⟨.inr hx.1, hx.2⟩, fun ⟨hx, hp⟩ => ?_⟩
      rcases hx with rfl | hx
      · rw [ha] at hp; cases hp
      · exact ⟨hx, hp⟩
    next ha =>
      refine ⟨fun hx => ⟨hx, ?_⟩, And.left⟩
      rcases List.mem_cons.mp hx with rfl | hx
      · simpa using ha
      · by_contra hp
        exact ha (h.1 x hx (by simpa using hp))

end Ordered

/-! ## Lists cut at a separator -/

/-- A list cut at its last separator. -/
theorem append_last_inj {a b a' b' : List α} {c : α} (hb : c ∉ b) (hb' : c ∉ b')
    (h : a ++ c :: b = a' ++ c :: b') : a = a' ∧ b = b' := by
  rcases List.append_eq_append_iff.mp h with ⟨d, rfl, hd⟩ | ⟨d, rfl, hd⟩
  · cases d with
    | nil => simpa using hd
    | cons x d =>
      rw [List.cons_append, List.cons.injEq] at hd
      exact absurd (by rw [hd.2]; simp) hb
  · cases d with
    | nil => simpa [eq_comm] using hd
    | cons x d =>
      rw [List.cons_append, List.cons.injEq] at hd
      exact absurd (by rw [hd.2]; simp) hb'

/-- A list cut at its first separator. -/
theorem append_first_inj {a b a' b' : List α} {c : α} (ha : c ∉ a) (ha' : c ∉ a')
    (h : a ++ c :: b = a' ++ c :: b') : a = a' ∧ b = b' := by
  have hr := congrArg List.reverse h
  simp only [List.reverse_append, List.reverse_cons, List.append_assoc, List.singleton_append] at hr
  obtain ⟨hb, ha⟩ := append_last_inj (by simpa using ha) (by simpa using ha') hr
  exact ⟨List.reverse_injective ha, List.reverse_injective hb⟩

end Lib
