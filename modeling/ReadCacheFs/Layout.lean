/-
`ParquetLayoutRegistry`: the column-chunk extents of each registered file.

`Register` sorts the extents by offset and drops the empty ones and those
that start before the end of the last one kept. `std::sort` is not stable,
so extents with one offset may come out in any order: what is stored is
`cleanExtents` of some list `SortsTo` relates to the input.

`Find` and `NextStart` are binary searches in the stored list; on it (it is
`Stored`: ascending, disjoint, non-empty) they answer what a linear scan
would (`findExtent_iff`, `nextStart_iff`).
-/
import Mathlib.Data.List.AList
import ReadCacheFs.Basic

namespace ReadCacheFs

/-- A byte range of a file: one column chunk. -/
structure FileExtent where
  offset : Nat
  size : Nat
  deriving DecidableEq, Repr, Inhabited

def FileExtent.endOff (e : FileExtent) : Nat := u64 (e.offset + e.size)

/-- No `idx_t` overflow at the end of the extent. -/
def FileExtent.NoWrap (e : FileExtent) : Prop := e.offset + e.size < 2 ^ 64

theorem FileExtent.NoWrap.endOff_eq {e : FileExtent} (h : e.NoWrap) : e.endOff = e.offset + e.size := u64_eq h

/-- `ParquetLayoutRegistry::layouts`. -/
abbrev Layouts := AList (fun _ : String => List FileExtent)

/-! ## Register -/

/-- What `std::sort` by offset may leave of the extents. -/
def SortsTo (extents sorted : List FileExtent) : Prop :=
  sorted.Perm extents ∧ sorted.Pairwise (·.offset ≤ ·.offset)

/-- One round of `Register`'s loop over the sorted extents. -/
def cleanStep (cleaned : List FileExtent) (extent : FileExtent) : List FileExtent :=
  if extent.size = 0 then cleaned
  else match cleaned.getLast? with
    | none => cleaned ++ [extent]
    | some back => if extent.offset < back.endOff then cleaned else cleaned ++ [extent]

def cleanExtents (sorted : List FileExtent) : List FileExtent := sorted.foldl cleanStep []

/-- `Register`, given the order `std::sort` left the extents in. -/
def Layouts.register (l : Layouts) (path : String) (sorted : List FileExtent) : Layouts :=
  l.insert path (cleanExtents sorted)

def Layouts.clearPath (l : Layouts) (path : String) : Layouts := l.erase path

/-! ## Lookups -/

def Layouts.hasLayout (l : Layouts) (path : String) : Bool := (l.lookup path).isSome

/-- `Find` in one file's extents: the first extent that starts after
`offset` (`std::upper_bound`), then one back. -/
def findExtent (extents : List FileExtent) (offset : Nat) : Option FileExtent :=
  let pos := extents.findIdx fun e => offset < e.offset
  if pos = 0 then none
  else match extents[pos - 1]? with
    | none => none
    | some e => if offset < e.endOff then some e else none

/-- `NextStart` in one file's extents (`std::lower_bound`). -/
def nextStartIn (extents : List FileExtent) (offset : Nat) : Option Nat :=
  (extents[extents.findIdx fun e => !decide (e.offset < offset)]?).map (·.offset)

def Layouts.find (l : Layouts) (path : String) (offset : Nat) : Option FileExtent :=
  (l.lookup path).bind fun extents => findExtent extents offset

def Layouts.nextStart (l : Layouts) (path : String) (offset : Nat) : Option Nat :=
  (l.lookup path).bind fun extents => nextStartIn extents offset

/-! ## What is stored -/

/-- Ascending, pairwise disjoint, non-empty extents that do not wrap. -/
structure Stored (extents : List FileExtent) : Prop where
  disjoint : extents.Pairwise fun a b => a.offset + a.size ≤ b.offset
  nonempty : ∀ e ∈ extents, 0 < e.size
  noWrap : ∀ e ∈ extents, e.NoWrap

theorem Stored.nil : Stored [] := ⟨.nil, by simp, by simp⟩

theorem Stored.snoc {cleaned : List FileExtent} {e : FileExtent} (h : Stored cleaned) (hs : 0 < e.size)
    (hw : e.NoWrap) (hb : ∀ b, cleaned.getLast? = some b → b.endOff ≤ e.offset) : Stored (cleaned ++ [e]) := by
  refine ⟨?_, ?_, ?_⟩
  · rw [List.pairwise_append]
    refine ⟨h.disjoint, by simp, fun a ha c hc => ?_⟩
    simp only [List.mem_singleton] at hc
    subst hc
    -- `a` ends before the last kept extent starts, or is that extent.
    have hne : cleaned ≠ [] := List.ne_nil_of_mem ha
    have hlast := hb _ (List.getLast?_eq_getLast_of_ne_nil hne)
    rw [(h.noWrap _ (List.getLast_mem hne)).endOff_eq] at hlast
    have hp := h.disjoint
    rw [← List.dropLast_append_getLast hne, List.pairwise_append] at hp
    rw [← List.dropLast_append_getLast hne, List.mem_append, List.mem_singleton] at ha
    rcases ha with ha | rfl
    · have := hp.2.2 a ha _ (List.mem_singleton_self _); omega
    · exact hlast
  · intro a ha
    simp only [List.mem_append, List.mem_singleton] at ha
    rcases ha with ha | rfl
    · exact h.nonempty a ha
    · exact hs
  · intro a ha
    simp only [List.mem_append, List.mem_singleton] at ha
    rcases ha with ha | rfl
    · exact h.noWrap a ha
    · exact hw

theorem Stored.cleanStep {cleaned : List FileExtent} {e : FileExtent} (h : Stored cleaned) (hw : e.NoWrap) :
    Stored (cleanStep cleaned e) := by
  unfold ReadCacheFs.cleanStep
  split
  · exact h
  · next hs =>
    split
    · next hl => exact h.snoc (by omega) hw (by simp [hl])
    · next back hl =>
      split
      · exact h
      · next hlt => exact h.snoc (by omega) hw (fun b hb => by rw [hl] at hb; cases hb; omega)

theorem stored_foldl_cleanStep : ∀ {sorted cleaned : List FileExtent}, Stored cleaned →
    (∀ e ∈ sorted, e.NoWrap) → Stored (sorted.foldl cleanStep cleaned)
  | [], _, h, _ => h
  | e :: sorted, _, h, hw => by
    rw [List.foldl_cons]
    exact stored_foldl_cleanStep (h.cleanStep (hw e (by simp))) fun e' he' => hw e' (by simp [he'])

/-- `Register` stores ascending, disjoint, non-empty extents. -/
theorem stored_cleanExtents {extents sorted : List FileExtent} (hs : SortsTo extents sorted)
    (hw : ∀ e ∈ extents, e.NoWrap) : Stored (cleanExtents sorted) :=
  stored_foldl_cleanStep .nil fun e he => hw e (hs.1.mem_iff.mp he)

/-! ## Lookups in what is stored -/

theorem Stored.getElem_lt {l : List FileExtent} (h : Stored l) {i j : Nat} (hij : i < j) (hj : j < l.length) :
    l[i].offset + l[i].size ≤ l[j].offset := List.pairwise_iff_getElem.mp h.disjoint i j (by omega) hj hij

theorem Stored.offset_mono {l : List FileExtent} (h : Stored l) {i j : Nat} (hij : i ≤ j) (hj : j < l.length) :
    l[i].offset ≤ l[j].offset := by
  rcases Nat.lt_or_ge i j with hlt | hge
  · have := h.getElem_lt hlt hj; omega
  · obtain rfl : i = j := by omega
    exact Nat.le_refl _

/-- `Find` answers the stored extent that contains the offset. -/
theorem findExtent_iff {l : List FileExtent} (h : Stored l) {off : Nat} {e : FileExtent} :
    findExtent l off = some e ↔ e ∈ l ∧ e.offset ≤ off ∧ off < e.offset + e.size := by
  unfold findExtent
  generalize hp : l.findIdx (fun e => decide (off < e.offset)) = pos
  have hle : pos ≤ l.length := hp ▸ List.findIdx_le_length
  have before : ∀ i (hi : i < pos), l[i].offset ≤ off := fun i hi => by
    have hi' : i < l.findIdx (fun e => decide (off < e.offset)) := by omega
    simpa using List.not_of_lt_findIdx hi'
  have after : ∀ i (hi : i < l.length), pos ≤ i → off < l[i].offset := fun i hi hpi => by
    have hpl : pos < l.length := by omega
    have hpl' : l.findIdx (fun e => decide (off < e.offset)) < l.length := by omega
    have h0 : off < l[pos].offset := by simpa [hp] using List.findIdx_getElem (w := hpl')
    exact Nat.lt_of_lt_of_le h0 (h.offset_mono hpi hi)
  by_cases hz : pos = 0
  · simp only [hz, if_true, reduceCtorEq, false_iff, not_and, not_lt]
    intro he
    obtain ⟨i, hi, rfl⟩ := List.getElem_of_mem he
    have := after i hi (by omega)
    omega
  · have hpl : pos - 1 < l.length := by omega
    simp only [hz, if_false, List.getElem?_eq_getElem hpl, (h.noWrap _ (List.getElem_mem hpl)).endOff_eq]
    constructor
    · intro hs
      split at hs
      · cases hs
        exact ⟨List.getElem_mem hpl, before _ (by omega), by assumption⟩
      · cases hs
    · rintro ⟨he, h1, h2⟩
      obtain ⟨i, hi, rfl⟩ := List.getElem_of_mem he
      -- The containing extent is the last one that starts at or before `off`.
      have hi' : i < pos := by
        by_contra hc
        have := after i hi (by omega); omega
      obtain rfl : i = pos - 1 := by
        by_contra hc
        have := h.getElem_lt (i := i) (j := pos - 1) (by omega) hpl
        have := before (pos - 1) (by omega)
        omega
      rw [if_pos h2]

/-- `NextStart` answers the least stored start at or after the offset. -/
theorem nextStartIn_some {l : List FileExtent} (h : Stored l) {off s : Nat} (hs : nextStartIn l off = some s) :
    off ≤ s ∧ (∃ e ∈ l, e.offset = s) ∧ ∀ e ∈ l, off ≤ e.offset → s ≤ e.offset := by
  unfold nextStartIn at hs
  generalize hp : l.findIdx (fun e => !decide (e.offset < off)) = pos at hs
  simp only [Option.map_eq_some_iff] at hs
  obtain ⟨e, he, rfl⟩ := hs
  obtain ⟨hpl, rfl⟩ := List.getElem?_eq_some_iff.mp he
  have hpl' : l.findIdx (fun e => !decide (e.offset < off)) < l.length := by omega
  have h0 : off ≤ l[pos].offset := by simpa [hp] using List.findIdx_getElem (w := hpl')
  refine ⟨h0, ⟨_, List.getElem_mem hpl, rfl⟩, fun e' he' hoff => ?_⟩
  obtain ⟨i, hi, rfl⟩ := List.getElem_of_mem he'
  by_cases hip : i < pos
  · have hi' : i < l.findIdx (fun e => !decide (e.offset < off)) := by omega
    have := List.not_of_lt_findIdx hi'
    simp at this; omega
  · exact h.offset_mono (by omega) hi

theorem nextStartIn_none {l : List FileExtent} {off : Nat} (hn : nextStartIn l off = none) :
    ∀ e ∈ l, e.offset < off := by
  unfold nextStartIn at hn
  simp only [Option.map_eq_none_iff, List.getElem?_eq_none_iff] at hn
  intro e he
  by_contra hc
  have hex : ∃ x ∈ l, (!decide (x.offset < off)) = true := ⟨e, he, by simp; omega⟩
  have := List.findIdx_lt_length_of_exists hex
  omega

/-- Where no extent contains the offset, the next one starts after it. -/
theorem nextStart_gt_of_find_none {l : List FileExtent} (h : Stored l) {off s : Nat}
    (hf : findExtent l off = none) (hs : nextStartIn l off = some s) : off < s := by
  obtain ⟨hle, ⟨e, he, rfl⟩, -⟩ := nextStartIn_some h hs
  by_contra hc
  have hmem : findExtent l off = some e :=
    (findExtent_iff h).mpr ⟨he, by omega, by have := h.nonempty e he; omega⟩
  rw [hf] at hmem
  cases hmem

/-- Every layout of the registry is `Stored`: what any calls of `Register`,
`Clear()` and `Clear(path)` leave. -/
def LayoutsOK (l : Layouts) : Prop := ∀ path extents, l.lookup path = some extents → Stored extents

theorem LayoutsOK.empty : LayoutsOK ∅ := by simp [LayoutsOK]

theorem LayoutsOK.register {l : Layouts} (h : LayoutsOK l) {path : String} {extents sorted : List FileExtent}
    (hs : SortsTo extents sorted) (hw : ∀ e ∈ extents, e.NoWrap) : LayoutsOK (l.register path sorted) := by
  intro p xs hp
  by_cases hpp : p = path
  · subst hpp
    simp only [Layouts.register, AList.lookup_insert, Option.some.injEq] at hp
    exact hp ▸ stored_cleanExtents hs hw
  · rw [Layouts.register, AList.lookup_insert_ne hpp] at hp
    exact h p xs hp

theorem LayoutsOK.clearPath {l : Layouts} (h : LayoutsOK l) {path : String} : LayoutsOK (l.clearPath path) := by
  intro p xs hp
  by_cases hpp : p = path
  · subst hpp; simp [Layouts.clearPath] at hp
  · rw [Layouts.clearPath, AList.lookup_erase_ne hpp] at hp
    exact h p xs hp

end ReadCacheFs
