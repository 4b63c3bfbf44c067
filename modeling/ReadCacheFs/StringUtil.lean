/-
What the source uses of `StringUtil` and of the numeric conversions of the
standard library. A string is given as its characters.
-/
import ReadCacheFs.Basic
import ReadCacheFs.Lib.Cuts

namespace ReadCacheFs

open Lib

def isSpace (c : Char) : Bool :=
  c == ' ' || c == '\t' || c == '\n' || c == '\x0b' || c == '\x0c' || c == '\r'

/-- `StringUtil::Trim`. -/
abbrev trimmed (s : List Char) : List Char := trim isSpace s

/-- `StringUtil::Split`: the pieces between the separators, in order. Which
of the empty ones it returns is left open. -/
structure StringSplit where
  split : List Char → Char → List (List Char)
  sublist : ∀ s sep, (split s sep).Sublist (s.splitOn sep)
  pieces : ∀ s sep, (split s sep).filter (· ≠ []) = (s.splitOn sep).filter (· ≠ [])

def StringSplit.keepEmpty : StringSplit := ⟨fun s sep => s.splitOn sep, fun _ _ => .refl _, fun _ _ => rfl⟩

theorem StringSplit.split_append (split : StringSplit) {s : List Char} {sep : Char}
    {front back : List (List Char)} (hs : s.splitOn sep = front ++ back)
    (hback : ∀ piece ∈ back, piece ≠ []) :
    ∃ kept, split.split s sep = kept ++ back ∧ kept.filter (· ≠ []) = front.filter (· ≠ []) := by
  have hsub := split.sublist s sep
  have hf := split.pieces s sep
  rw [hs] at hsub hf
  obtain ⟨kept, hk⟩ := exists_append_of_sublist hsub hf fun piece hp => by simpa using hback piece hp
  refine ⟨kept, hk, ?_⟩
  rw [hk, List.filter_append, List.filter_append] at hf
  exact List.append_cancel_right hf

/-! ## Numbers -/

structure Decimal (s : List Char) (n : Nat) : Prop where
  ne_nil : s ≠ []
  digits : ∀ c ∈ s, c.isDigit = true
  value : Nat.ofDigitChars 10 s 0 = n
  lt : n < 2 ^ 64

def leadingNumber (s : List Char) : Option Nat :=
  let digits := s.takeWhile Char.isDigit
  if digits = [] ∨ 2 ^ 64 ≤ Nat.ofDigitChars 10 digits 0 then none else some (Nat.ofDigitChars 10 digits 0)

/-- `std::stoull`: blanks, a sign, digits, and no look at what follows.
`none` when it throws. -/
def stoull (s : List Char) : Option Nat :=
  match s.dropWhile isSpace with
  | '-' :: s => (leadingNumber s).map (u64Sub 0)
  | '+' :: s => leadingNumber s
  | s => leadingNumber s

theorem leadingNumber_eq_some {s : List Char} {n : Nat} :
    leadingNumber s = some n ↔
      ∃ digits rest, s = digits ++ rest ∧ Decimal digits n ∧ ∀ c ∈ rest.head?, c.isDigit = false := by
  constructor
  · intro h
    simp only [leadingNumber] at h
    split at h
    · cases h
    next hn =>
    rw [not_or, Nat.not_le] at hn
    cases h
    refine ⟨_, s.dropWhile Char.isDigit, List.takeWhile_append_dropWhile.symm,
      ⟨hn.1, fun c hc => List.mem_takeWhile_imp hc, rfl, hn.2⟩, fun c hc => ?_⟩
    have hd := List.head?_dropWhile_not Char.isDigit s
    rw [Option.mem_def.mp hc] at hd
    exact hd
  · intro h
    obtain ⟨digits, rest, rfl, hd, hr⟩ := h
    have htake : (digits ++ rest).takeWhile Char.isDigit = digits := by
      rw [List.takeWhile_append_of_pos hd.digits]
      cases rest with
      | nil => simp
      | cons c rest => simp [hr c rfl]
    have hlt : Nat.ofDigitChars 10 digits 0 < 2 ^ 64 := hd.value ▸ hd.lt
    simp only [leadingNumber, htake]
    rw [if_neg (not_or.mpr ⟨hd.ne_nil, Nat.not_le.mpr hlt⟩), hd.value]

theorem not_isSpace_of_isDigit {c : Char} (h : c.isDigit = true) : ¬ isSpace c = true := by
  intro hs
  simp only [isSpace, Bool.or_eq_true, beq_iff_eq] at hs
  rcases hs with ((((rfl | rfl) | rfl) | rfl) | rfl) | rfl
  all_goals cases h

/-- A string as `stoull` takes it apart after the blanks. -/
structure Numeral (s sign digits rest : List Char) (m : Nat) : Prop where
  eq : s = sign ++ (digits ++ rest)
  sign : sign = [] ∨ sign = ['+'] ∨ sign = ['-']
  digits : Decimal digits m
  rest : ∀ c ∈ rest.head?, c.isDigit = false

/-- A minus sign negates the unsigned number. -/
def applySign (sign : List Char) (m : Nat) : Nat := if sign = ['-'] then u64Sub 0 m else m

theorem stoull_eq_some {s : List Char} {n : Nat} :
    stoull s = some n ↔
      ∃ sign digits rest m, Numeral (s.dropWhile isSpace) sign digits rest m ∧ applySign sign m = n := by
  unfold stoull
  constructor
  · intro h
    split at h
    next s' hs =>
      obtain ⟨m, hm, rfl⟩ := Option.map_eq_some_iff.mp h
      obtain ⟨digits, rest, rfl, hd, hr⟩ := leadingNumber_eq_some.mp hm
      exact ⟨['-'], digits, rest, m, ⟨hs, .inr (.inr rfl), hd, hr⟩, rfl⟩
    next s' hs =>
      obtain ⟨digits, rest, rfl, hd, hr⟩ := leadingNumber_eq_some.mp h
      exact ⟨['+'], digits, rest, n, ⟨hs, .inr (.inl rfl), hd, hr⟩, rfl⟩
    · obtain ⟨digits, rest, hs, hd, hr⟩ := leadingNumber_eq_some.mp h
      exact ⟨[], digits, rest, n, ⟨hs, .inl rfl, hd, hr⟩, rfl⟩
  · intro h
    obtain ⟨sign, digits, rest, m, ⟨hs, hsign, hd, hr⟩, rfl⟩ := h
    have hnum : leadingNumber (digits ++ rest) = some m := leadingNumber_eq_some.mpr ⟨digits, rest, rfl, hd, hr⟩
    rw [hs]
    rcases hsign with rfl | rfl | rfl
    · -- A digit is no sign.
      obtain ⟨c, cs, rfl⟩ := List.exists_cons_of_ne_nil hd.ne_nil
      have hc : c.isDigit = true := hd.digits c List.mem_cons_self
      split
      next h =>
        cases h
        cases hc
      next h =>
        cases h
        cases hc
      · exact hnum
    · exact hnum
    · exact congrArg (Option.map (u64Sub 0)) hnum

/-- `StringUtil::ToUnsigned`, which is `stoull`. -/
def toUnsigned (s : List Char) : Except Fault Nat :=
  match stoull s with
  | none => .error (.internal "stoull")
  | some n => .ok n

theorem toUnsigned_repr {n : Nat} (h : n < 2 ^ 64) : toUnsigned n.repr.toList = .ok n := by
  have hdigit : ∀ c ∈ n.repr.toList, c.isDigit = true := fun c hc =>
    Nat.isDigit_of_mem_toDigits (by decide) (by decide) (Nat.toList_repr ▸ hc)
  have hne : n.repr.toList ≠ [] := by
    rw [Nat.toList_repr]
    exact Nat.toDigits_ne_nil
  have hdec : Decimal n.repr.toList n :=
    ⟨hne, hdigit, by rw [Nat.toList_repr, Nat.ofDigitChars_ten_toDigits], h⟩
  have hblank : n.repr.toList.dropWhile isSpace = n.repr.toList := by
    rw [List.dropWhile_eq_self_iff]
    intro hpos hspace
    have hd := hdigit _ (List.getElem_mem hpos)
    exact not_isSpace_of_isDigit hd hspace
  have hnum : stoull n.repr.toList = some n :=
    stoull_eq_some.mpr ⟨[], n.repr.toList, [], n,
      ⟨by rw [hblank]; simp, .inl rfl, hdec, by simp⟩, by simp [applySign]⟩
  simp only [toUnsigned, hnum]

end ReadCacheFs
