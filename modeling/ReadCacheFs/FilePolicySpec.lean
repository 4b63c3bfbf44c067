/-
`ParseFilePolicySpec`: the setting `cache_httpfs_file_policies`, which is
`pattern=policy[:size]` entries separated by `;`.

`Denotes` is the documented grammar, with what counts as a size as a
parameter. The source accepts that grammar with the sizes `stoull` reads:
those of digits only, and those with a sign before or anything after.
-/
import ReadCacheFs.Lib.Runs
import ReadCacheFs.PolicyStorage
import ReadCacheFs.StringUtil

namespace ReadCacheFs

open Lib

/-- What the floating-point branch makes of a percentage. -/
inductive PercentSize
  /-- `std::stod` throws. -/
  | malformed
  /-- Not in `(0, 100]`. -/
  | outOfRange
  | bytes (n : Nat)
  deriving DecidableEq, Repr

/-- `std::stod` and the arithmetic on its result, of the text before the `%`
and the total budget. -/
abbrev PercentOf := List Char → Nat → PercentSize

section Parser

variable (split : StringSplit) (percentOf : PercentOf) (maxBytes : Nat)

/-- The size of an entry, which must not resolve to 0 bytes. -/
def parseEntrySize (sizeStr entry : List Char) : Except Fault Nat :=
  let malformed := Fault.invalidInput
    s!"Malformed size '{String.ofList sizeStr}' in file policy entry '{String.ofList entry}'; expected a byte count or a percentage such as 25%"
  let nonZero (n : Nat) : Except Fault Nat :=
    if n = 0 then
      .error (.invalidInput
        s!"Size '{String.ofList sizeStr}' in file policy entry '{String.ofList entry}' resolves to 0 bytes; is the total cache size set?")
    else .ok n
  if sizeStr.getLast? = some '%' then
    match percentOf sizeStr.dropLast maxBytes with
    | .malformed => .error malformed
    | .outOfRange => .error (.invalidInput s!"Percentage must be in (0, 100] in file policy entry '{String.ofList entry}'")
    | .bytes n => nonZero n
  else match stoull sizeStr with
    | none => .error malformed
    | some n => nonZero n

/-- The checks of the pattern and the policy. -/
def checkEntry (pattern policy : List Char) (bytes : Nat) (entry : List Char) : Except Fault SpecEntry :=
  if pattern = [] then .error (.invalidInput s!"Empty pattern in file policy entry '{String.ofList entry}'")
  else match EvictionPolicyKind.ofName (String.ofList policy) with
    | none => .error (.invalidInput
        s!"Unknown eviction policy '{String.ofList policy}' in file policy entry '{String.ofList entry}'")
    | some kind => .ok { pattern := String.ofList pattern, policy := kind, bytes }

/-- A trimmed part that is not empty. -/
def parseEntry (entry : List Char) : Except Fault SpecEntry :=
  match entry.idxOf? '=' with
  | none => .error (.invalidInput
      s!"Malformed file policy entry '{String.ofList entry}'; expected pattern=policy[:bytes]")
  | some eq =>
    let pattern := trimmed (entry.take eq)
    let rhs := trimmed (entry.drop (eq + 1))
    match rhs.idxOf? ':' with
    | none => checkEntry pattern rhs 0 entry
    | some colon =>
      match parseEntrySize percentOf maxBytes (trimmed (rhs.drop (colon + 1))) entry with
      | .error f => .error f
      | .ok bytes => checkEntry pattern (trimmed (rhs.take colon)) bytes entry

def parseParts : List (List Char) → Except Fault (List SpecEntry)
  | [] => .ok []
  | part :: parts =>
    if trimmed part = [] then parseParts parts
    else match parseEntry percentOf maxBytes (trimmed part) with
      | .error f => .error f
      | .ok entry =>
        match parseParts parts with
        | .error f => .error f
        | .ok out => .ok (entry :: out)

def parseFilePolicySpec (spec : String) : Except Fault (List SpecEntry) :=
  if spec = "" then .ok [] else parseParts percentOf maxBytes (split.split spec.toList ';')

end Parser

/-! ## The grammar -/

/-- The parts of a spec, trimmed, without the empty ones. -/
def specParts (spec : String) : List (List Char) := ((spec.toList.splitOn ';').map trimmed).filter (· ≠ [])

/-- The entry a part denotes: `pattern=policy` or `pattern=policy:size`. The
pattern ends at the first `=` and the policy at the first `:` after it. -/
inductive Denotes (Size : List Char → Nat → Prop) : List Char → SpecEntry → Prop
  | unsized {pattern policy : List Char} {kind : EvictionPolicyKind} (hpat : '=' ∉ pattern)
      (hne : trimmed pattern ≠ []) (hpol : ':' ∉ policy)
      (hkind : EvictionPolicyKind.ofName (String.ofList (trimmed policy)) = some kind) :
      Denotes Size (pattern ++ '=' :: policy) ⟨String.ofList (trimmed pattern), kind, 0⟩
  | sized {pattern policy size : List Char} {kind : EvictionPolicyKind} {n : Nat} (hpat : '=' ∉ pattern)
      (hne : trimmed pattern ≠ []) (hpol : ':' ∉ policy)
      (hkind : EvictionPolicyKind.ofName (String.ofList (trimmed policy)) = some kind) (hsize : Size (trimmed size) n) :
      Denotes Size (pattern ++ '=' :: (policy ++ ':' :: size)) ⟨String.ofList (trimmed pattern), kind, n⟩

/-- A byte count: digits only, not zero. -/
def ByteCount (size : List Char) (n : Nat) : Prop := Decimal size n ∧ n ≠ 0

/-- A number with a sign before it or something after it, not zero. -/
def LooseCount (size : List Char) (n : Nat) : Prop :=
  ∃ sign digits rest m, Numeral size sign digits rest m ∧ (sign ≠ [] ∨ rest ≠ []) ∧ applySign sign m = n ∧ n ≠ 0

/-- The size of the part is loose. -/
def HasLooseSize (part : List Char) : Prop :=
  ∃ pattern policy size n, part = pattern ++ '=' :: (policy ++ ':' :: size) ∧ '=' ∉ pattern ∧ ':' ∉ policy ∧
    LooseCount (trimmed size) n

variable {split : StringSplit} {percentOf : PercentOf} {maxBytes : Nat}

theorem Denotes.imp {S T : List Char → Nat → Prop} (h : ∀ s n, S s n → T s n) {part : List Char} {e : SpecEntry}
    (hd : Denotes S part e) : Denotes T part e := by
  cases hd with
  | unsized hpat hne hpol hkind => exact .unsized hpat hne hpol hkind
  | sized hpat hne hpol hkind hsize => exact .sized hpat hne hpol hkind (h _ _ hsize)

/-- Digits only, or something else too. -/
theorem ByteCount.not_looseCount {size : List Char} {n m : Nat} (h : ByteCount size n) : ¬ LooseCount size m := by
  intro hl
  obtain ⟨sign, digits, rest, k, ⟨rfl, hsign, hd, hrest⟩, hne, -, -⟩ := hl
  have hall := h.1.digits
  have hmin : ('-' : Char).isDigit = false := rfl
  have hplus : ('+' : Char).isDigit = false := rfl
  rcases hne with hne | hne
  · rcases hsign with rfl | rfl | rfl
    · exact hne rfl
    · exact absurd (hall '+' (by simp)) (by simp [hplus])
    · exact absurd (hall '-' (by simp)) (by simp [hmin])
  · obtain ⟨c, cs, rfl⟩ := List.exists_cons_of_ne_nil hne
    exact absurd (hall c (by simp)) (by simp [hrest c rfl])

/-! ## What the parser accepts -/

theorem stoull_trimmed {size : List Char} {n : Nat} :
    stoull (trimmed size) = some n ∧ n ≠ 0 ↔ ByteCount (trimmed size) n ∨ LooseCount (trimmed size) n := by
  rw [stoull_eq_some, dropWhile_trim]
  constructor
  · intro h
    obtain ⟨⟨sign, digits, rest, m, hnum, hm⟩, hn⟩ := h
    by_cases hex : sign ≠ [] ∨ rest ≠ []
    · exact .inr ⟨sign, digits, rest, m, hnum, hex, hm, hn⟩
    · simp only [not_or, not_not] at hex
      obtain ⟨rfl, rfl⟩ := hex
      have hm' : m = n := by simpa [applySign] using hm
      have heq : trimmed size = digits := by simpa using hnum.eq
      exact .inl ⟨by rw [heq, ← hm']; exact hnum.digits, hn⟩
  · intro h
    rcases h with ⟨hd, hn⟩ | ⟨sign, digits, rest, m, hnum, -, hm, hn⟩
    · exact ⟨⟨[], trimmed size, [], n, ⟨by simp, .inl rfl, hd, by simp⟩, by simp [applySign]⟩, hn⟩
    · exact ⟨⟨sign, digits, rest, m, hnum, hm⟩, hn⟩

theorem parseEntrySize_ok {sizeStr entry : List Char} (h : '%' ∉ sizeStr) {n : Nat} :
    parseEntrySize percentOf maxBytes sizeStr entry = .ok n ↔ stoull sizeStr = some n ∧ n ≠ 0 := by
  have hlast : sizeStr.getLast? ≠ some '%' := fun hl => h (List.mem_of_getLast? hl)
  simp only [parseEntrySize, if_neg hlast]
  cases stoull sizeStr with
  | none => simp
  | some m =>
    by_cases hm : m = 0
    · simp [hm, eq_comm]
    · simp only [if_neg hm, Except.ok.injEq, Option.some.injEq]
      exact ⟨fun he => ⟨he, he ▸ hm⟩, (·.1)⟩

theorem checkEntry_ok {pattern policy entry : List Char} {bytes : Nat} {e : SpecEntry} :
    checkEntry pattern policy bytes entry = .ok e ↔ pattern ≠ [] ∧
      ∃ kind, EvictionPolicyKind.ofName (String.ofList policy) = some kind ∧
        e = ⟨String.ofList pattern, kind, bytes⟩ := by
  unfold checkEntry
  split
  next h => simp [h]
  next h =>
    cases EvictionPolicyKind.ofName (String.ofList policy) with
    | none => simp
    | some kind => simp [h, eq_comm]

theorem parseEntry_unsized {pattern policy : List Char} (hpat : '=' ∉ pattern) (hpol : ':' ∉ policy) :
    parseEntry percentOf maxBytes (pattern ++ '=' :: policy) =
      checkEntry (trimmed pattern) (trimmed policy) 0 (pattern ++ '=' :: policy) := by
  have hnone : (trimmed policy).idxOf? ':' = none := List.idxOf?_eq_none_iff.mpr fun h => hpol (mem_of_mem_trim h)
  have hdrop : (pattern ++ '=' :: policy).drop (pattern.length + 1) = policy := by simp [List.drop_append]
  simp only [parseEntry, idxOf?_append_cons hpat, hdrop, hnone, List.take_left]

theorem parseEntry_sized {pattern policy size : List Char} (hpat : '=' ∉ pattern) (hpol : ':' ∉ policy) :
    parseEntry percentOf maxBytes (pattern ++ '=' :: (policy ++ ':' :: size)) =
      match parseEntrySize percentOf maxBytes (trimmed size) (pattern ++ '=' :: (policy ++ ':' :: size)) with
      | .error f => .error f
      | .ok bytes => checkEntry (trimmed pattern) (trimmed policy) bytes
          (pattern ++ '=' :: (policy ++ ':' :: size)) := by
  have hrhs : trimmed (policy ++ ':' :: size) = policy.dropWhile isSpace ++ ':' :: size.rdropWhile isSpace :=
    trim_append_cons rfl
  have hcolon : ':' ∉ policy.dropWhile isSpace := fun h => hpol ((List.dropWhile_suffix _).subset h)
  have hdrop : (pattern ++ '=' :: (policy ++ ':' :: size)).drop (pattern.length + 1) = policy ++ ':' :: size := by
    simp [List.drop_append]
  have hsize : (policy.dropWhile isSpace ++ ':' :: size.rdropWhile isSpace).drop
      ((policy.dropWhile isSpace).length + 1) = size.rdropWhile isSpace := by
    simp [List.drop_append]
  simp only [parseEntry, idxOf?_append_cons hpat, hdrop, hrhs, idxOf?_append_cons hcolon, hsize, List.take_left,
    trimmed, trim_dropWhile, trim_rdropWhile]

/-- The part the parser works on is of one of three forms. -/
theorem part_cases (part : List Char) :
    '=' ∉ part ∨ (∃ pattern policy, part = pattern ++ '=' :: policy ∧ '=' ∉ pattern ∧ ':' ∉ policy) ∨
      ∃ pattern policy size, part = pattern ++ '=' :: (policy ++ ':' :: size) ∧ '=' ∉ pattern ∧ ':' ∉ policy := by
  rcases exists_first_cut part '=' with h | ⟨pattern, rhs, rfl, hpat⟩
  · exact .inl h
  · rcases exists_first_cut rhs ':' with h | ⟨policy, size, rfl, hpol⟩
    · exact .inr (.inl ⟨pattern, rhs, rfl, hpat, h⟩)
    · exact .inr (.inr ⟨pattern, policy, size, rfl, hpat, hpol⟩)

theorem parseEntry_noEq {part : List Char} (h : '=' ∉ part) :
    parseEntry percentOf maxBytes part = .error (.invalidInput
      s!"Malformed file policy entry '{String.ofList part}'; expected pattern=policy[:bytes]") := by
  simp only [parseEntry, List.idxOf?_eq_none_iff.mpr h]

/-- **One part.** It is accepted as the grammar with lenient sizes has it. -/
theorem parseEntry_ok {part : List Char} (h : '%' ∉ part) {e : SpecEntry} :
    parseEntry percentOf maxBytes part = .ok e ↔ Denotes (fun s n => ByteCount s n ∨ LooseCount s n) part e := by
  constructor
  · intro hok
    rcases part_cases part with hno | ⟨pattern, policy, rfl, hpat, hpol⟩ |
      ⟨pattern, policy, size, rfl, hpat, hpol⟩
    · rw [parseEntry_noEq hno] at hok
      cases hok
    · rw [parseEntry_unsized hpat hpol] at hok
      obtain ⟨hne, kind, hkind, rfl⟩ := checkEntry_ok.mp hok
      exact .unsized hpat hne hpol hkind
    · rw [parseEntry_sized hpat hpol] at hok
      have hsize : '%' ∉ trimmed size := fun hm => h (by simp [mem_of_mem_trim hm])
      split at hok
      · cases hok
      next bytes hbytes =>
      obtain ⟨hne, kind, hkind, rfl⟩ := checkEntry_ok.mp hok
      exact .sized hpat hne hpol hkind (stoull_trimmed.mp ((parseEntrySize_ok hsize).mp hbytes))
  · intro hd
    cases hd with
    | unsized hpat hne hpol hkind =>
      rw [parseEntry_unsized hpat hpol]
      exact checkEntry_ok.mpr ⟨hne, _, hkind, rfl⟩
    | @sized pattern policy size kind n hpat hne hpol hkind hs =>
      have hsize : '%' ∉ trimmed size := fun hm => h (by simp [mem_of_mem_trim hm])
      rw [parseEntry_sized hpat hpol, (parseEntrySize_ok hsize).mpr (stoull_trimmed.mpr hs)]
      exact checkEntry_ok.mpr ⟨hne, _, hkind, rfl⟩

theorem parseEntry_invalidInput {part : List Char} {f : Fault}
    (h : parseEntry percentOf maxBytes part = .error f) : ∃ m, f = .invalidInput m := by
  have hcheck : ∀ {pattern policy bytes}, checkEntry pattern policy bytes part = .error f →
      ∃ m, f = .invalidInput m := by
    intro pattern policy bytes hc
    unfold checkEntry at hc
    split at hc
    · cases hc
      exact ⟨_, rfl⟩
    split at hc
    · cases hc
      exact ⟨_, rfl⟩
    · cases hc
  have hsize : ∀ {sizeStr}, parseEntrySize percentOf maxBytes sizeStr part = .error f →
      ∃ m, f = .invalidInput m := by
    intro sizeStr hs
    simp only [parseEntrySize] at hs
    repeat' split at hs
    all_goals cases hs
    all_goals exact ⟨_, rfl⟩
  simp only [parseEntry] at h
  split at h
  · cases h
    exact ⟨_, rfl⟩
  split at h
  · exact hcheck h
  split at h
  next hs =>
    cases h
    exact hsize hs
  · exact hcheck h

theorem parseParts_ok {parts : List (List Char)} {entries : List SpecEntry} :
    parseParts percentOf maxBytes parts = .ok entries ↔
      List.Forall₂ (fun part e => parseEntry percentOf maxBytes part = .ok e)
        ((parts.map trimmed).filter (· ≠ [])) entries := by
  induction parts generalizing entries with
  | nil => simp [parseParts, eq_comm]
  | cons part parts ih =>
    rw [parseParts, List.map_cons]
    split
    next hnil =>
      rw [List.filter_cons_of_neg (by simp [hnil])]
      exact ih
    next hne =>
    rw [List.filter_cons_of_pos (by simp [hne])]
    cases hp : parseEntry percentOf maxBytes (trimmed part) with
    | error f => simp [List.forall₂_cons_left_iff, hp]
    | ok e =>
      rw [List.forall₂_cons_left_iff]
      constructor
      · intro h
        dsimp only at h
        split at h
        · cases h
        next es hes =>
        cases h
        exact ⟨e, es, hp, ih.mp hes, rfl⟩
      · intro h
        obtain ⟨e', es, he, hes, rfl⟩ := h
        rw [hp] at he
        cases he
        simp only [ih.mpr hes]

theorem parseParts_invalidInput {parts : List (List Char)} {f : Fault}
    (h : parseParts percentOf maxBytes parts = .error f) : ∃ m, f = .invalidInput m := by
  induction parts with
  | nil => cases h
  | cons part parts ih =>
    rw [parseParts] at h
    split at h
    · exact ih h
    split at h
    next hp =>
      cases h
      exact parseEntry_invalidInput hp
    split at h
    next hps =>
      cases h
      exact ih hps
    · cases h

/-- The empty pieces `Split` may leave out are skipped anyway. -/
theorem split_parts (split : StringSplit) (spec : String) :
    ((split.split spec.toList ';').map trimmed).filter (· ≠ []) = specParts spec := by
  have hskip : ∀ pieces : List (List Char),
      (pieces.map trimmed).filter (· ≠ []) = ((pieces.filter (· ≠ [])).map trimmed).filter (· ≠ []) := by
    intro pieces
    induction pieces with
    | nil => rfl
    | cons piece pieces ih =>
      by_cases hp : piece = []
      · simpa [hp] using ih
      · by_cases ht : trimmed piece = []
        · simpa [hp, ht] using ih
        · simpa [hp, ht] using ih
  rw [hskip, split.pieces, ← hskip, specParts]

/-- The empty spec is no special case. -/
theorem parseFilePolicySpec_eq (spec : String) :
    parseFilePolicySpec split percentOf maxBytes spec =
      parseParts percentOf maxBytes (split.split spec.toList ';') := by
  rw [parseFilePolicySpec]
  split
  next h =>
    subst h
    refine (parseParts_ok.mpr ?_).symm
    rw [split_parts]
    exact .nil
  · rfl

theorem notMem_specParts {spec : String} {c : Char} (h : c ∉ spec.toList) {part : List Char}
    (hp : part ∈ specParts spec) : c ∉ part := by
  intro hc
  obtain ⟨piece, hpiece, rfl⟩ := List.mem_map.mp (List.mem_of_mem_filter hp)
  exact h (mem_splitOn hpiece (mem_of_mem_trim hc)).1

/-- What is accepted: every part denotes its entry, sizes read leniently. -/
theorem parseFilePolicySpec_ok {spec : String} (h : '%' ∉ spec.toList) {entries : List SpecEntry} :
    parseFilePolicySpec split percentOf maxBytes spec = .ok entries ↔
      List.Forall₂ (Denotes fun s n => ByteCount s n ∨ LooseCount s n) (specParts spec) entries := by
  rw [parseFilePolicySpec_eq, parseParts_ok, split_parts]
  have hpart : ∀ part ∈ specParts spec, ∀ e, parseEntry percentOf maxBytes part = .ok e ↔ _ :=
    fun part hp e => parseEntry_ok (notMem_specParts h hp)
  exact ⟨fun hf => forall₂_imp_mem hf fun part hp e => (hpart part hp e).mp,
    fun hf => forall₂_imp_mem hf fun part hp e => (hpart part hp e).mpr⟩

theorem Denotes.byteCount_or_loose {part : List Char} {e : SpecEntry}
    (hd : Denotes (fun s n => ByteCount s n ∨ LooseCount s n) part e) :
    Denotes ByteCount part e ∨ HasLooseSize part := by
  cases hd with
  | unsized hpat hne hpol hkind => exact .inl (.unsized hpat hne hpol hkind)
  | sized hpat hne hpol hkind hsize =>
    rcases hsize with hs | hs
    · exact .inl (.sized hpat hne hpol hkind hs)
    · exact .inr ⟨_, _, _, _, rfl, hpat, hpol, hs⟩

theorem Denotes.not_loose {part : List Char} {e : SpecEntry} (hd : Denotes ByteCount part e) :
    ¬ HasLooseSize part := by
  intro hl
  obtain ⟨pattern, policy, size, n, heq, hpat, hpol, hloose⟩ := hl
  cases hd with
  | unsized hpat' _ hpol' _ =>
    obtain ⟨-, hrhs⟩ := append_first_inj hpat' hpat heq
    exact hpol' (by rw [hrhs]; simp)
  | sized hpat' _ hpol' _ hsize =>
    obtain ⟨-, hrhs⟩ := append_first_inj hpat' hpat heq
    obtain ⟨-, rfl⟩ := append_first_inj hpol' hpol hrhs
    exact hsize.not_looseCount hloose

/-- **The parser is exact unless a size is loose.** The specs it gets wrong
are those in which every part is an entry, sizes read leniently, and some
size is a number with a sign before it or anything after it. -/
theorem parseFilePolicySpec_exact_iff (split : StringSplit) (percentOf : PercentOf) (maxBytes : Nat)
    (spec : String) (h : '%' ∉ spec.toList) :
    ((∀ entries, parseFilePolicySpec split percentOf maxBytes spec = .ok entries ↔
        List.Forall₂ (Denotes ByteCount) (specParts spec) entries) ∧
      ((∀ entries, ¬ List.Forall₂ (Denotes ByteCount) (specParts spec) entries) →
        ∃ m, parseFilePolicySpec split percentOf maxBytes spec = .error (.invalidInput m))) ↔
    ¬ ((∀ part ∈ specParts spec, ∃ e, Denotes (fun s n => ByteCount s n ∨ LooseCount s n) part e) ∧
      ∃ part ∈ specParts spec, HasLooseSize part) := by
  have hok := @parseFilePolicySpec_ok split percentOf maxBytes spec h
  constructor
  · intro hexact hbad
    obtain ⟨hall, part, hpart, hloose⟩ := hbad
    obtain ⟨entries, hentries⟩ := exists_forall₂ hall
    obtain ⟨e, he⟩ := forall₂_mem ((hexact.1 entries).mp (hok.mpr hentries)) hpart
    exact he.not_loose hloose
  · intro hgood
    have hiff : ∀ entries, parseFilePolicySpec split percentOf maxBytes spec = .ok entries ↔
        List.Forall₂ (Denotes ByteCount) (specParts spec) entries := by
      intro entries
      rw [hok]
      refine ⟨fun hf => ?_, fun hf => hf.imp fun _ _ hd => hd.imp fun _ _ => .inl⟩
      refine forall₂_imp_mem hf fun part hp e hd => hd.byteCount_or_loose.resolve_right fun hl => ?_
      exact hgood ⟨fun q hq => forall₂_mem hf hq, part, hp, hl⟩
    refine ⟨hiff, fun hnone => ?_⟩
    cases hparse : parseFilePolicySpec split percentOf maxBytes spec with
    | ok entries => exact absurd ((hiff entries).mp hparse) (hnone entries)
    | error f =>
      rw [parseFilePolicySpec_eq] at hparse
      obtain ⟨m, rfl⟩ := parseParts_invalidInput hparse
      exact ⟨m, rfl⟩

theorem parseFilePolicySpec_exact_iff_two :
    (∀ entries, parseFilePolicySpec .keepEmpty (fun _ _ => .malformed) 0 "a = mru : 80;b=clock;" = .ok entries ↔
      List.Forall₂ (Denotes ByteCount) (specParts "a = mru : 80;b=clock;") entries) ∧
    parseFilePolicySpec .keepEmpty (fun _ _ => .malformed) 0 "a = mru : 80;b=clock;" =
      .ok [⟨"a", .mru, 80⟩, ⟨"b", .clock, 0⟩] := by
  refine ⟨((parseFilePolicySpec_exact_iff .keepEmpty (fun _ _ => .malformed) 0 "a = mru : 80;b=clock;"
    (by decide +kernel)).mpr fun hbad => ?_).1, by decide +kernel⟩
  obtain ⟨-, part, hpart, hloose⟩ := hbad
  have hparts : specParts "a = mru : 80;b=clock;" =
      [['a', ' '] ++ '=' :: ([' ', 'm', 'r', 'u', ' '] ++ ':' :: [' ', '8', '0']),
        ['b'] ++ '=' :: ['c', 'l', 'o', 'c', 'k']] := by
    decide +kernel
  rw [hparts, List.mem_pair] at hpart
  rcases hpart with rfl | rfl
  · have hsize : ByteCount (trimmed [' ', '8', '0']) 80 :=
      ⟨⟨by decide +kernel, List.all_eq_true.mp (by decide +kernel), by decide +kernel, by decide⟩, by decide⟩
    have hd : Denotes ByteCount (['a', ' '] ++ '=' :: ([' ', 'm', 'r', 'u', ' '] ++ ':' :: [' ', '8', '0']))
        ⟨String.ofList (trimmed ['a', ' ']), .mru, 80⟩ :=
      .sized (by decide) (by decide +kernel) (by decide) (by decide +kernel) hsize
    exact hd.not_loose hloose
  · have hd : Denotes ByteCount (['b'] ++ '=' :: ['c', 'l', 'o', 'c', 'k'])
        ⟨String.ofList (trimmed ['b']), .clock, 0⟩ :=
      .unsized (by decide) (by decide +kernel) (by decide) (by decide +kernel)
    exact hd.not_loose hloose

/-- `8GB` is taken for eight bytes. -/
theorem parseFilePolicySpec_unit_suffix :
    parseFilePolicySpec .keepEmpty (fun _ _ => .malformed) 0 "lineitem=lru:8GB" = .ok [⟨"lineitem", .lru, 8⟩] ∧
      ∀ entries, ¬ List.Forall₂ (Denotes ByteCount) (specParts "lineitem=lru:8GB") entries := by
  refine ⟨by decide +kernel, fun entries hf => ?_⟩
  have hparts : specParts "lineitem=lru:8GB" =
      [['l', 'i', 'n', 'e', 'i', 't', 'e', 'm'] ++ '=' :: (['l', 'r', 'u'] ++ ':' :: ['8', 'G', 'B'])] := by
    decide +kernel
  rw [hparts] at hf
  obtain ⟨e, he⟩ := forall₂_mem hf List.mem_cons_self
  have hnum : Numeral (trimmed ['8', 'G', 'B']) [] ['8'] ['G', 'B'] 8 :=
    ⟨by decide +kernel, .inl rfl, ⟨by decide, List.all_eq_true.mp (by decide), by decide, by decide⟩, by simp⟩
  exact he.not_loose ⟨_, _, _, 8, rfl, by decide, by decide, [], ['8'], ['G', 'B'], 8, hnum, .inr (by decide),
    rfl, by decide⟩

end ReadCacheFs
