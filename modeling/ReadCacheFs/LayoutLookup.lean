/-
`Register`, `Find` and `NextStart` from the outside: what one registration
stores of the extents it was given, and that the lookups in it answer what a
scan of the stored extents would.

`Layout` finds the positions of `std::upper_bound` and `std::lower_bound`
by a scan. Here they are the binary searches; on what is stored both find
the same position.
-/
import ReadCacheFs.Layout
import ReadCacheFs.Lib.Bisection

namespace ReadCacheFs

open Lib

def FileExtent.Contains (e : FileExtent) (offset : Nat) : Prop := e.offset ≤ offset ∧ offset < e.offset + e.size

/-- Some byte of the file is in both. -/
def FileExtent.Overlaps (a b : FileExtent) : Prop := ∃ offset, a.Contains offset ∧ b.Contains offset

/-! ## The searches -/

/-- `std::upper_bound`: the first extent that starts after `offset`. -/
def upperBound (extents : List FileExtent) (offset : Nat) : Nat :=
  bisect (fun e => offset < e.offset) extents 0 extents.length

/-- `std::lower_bound`: the first extent that does not start before `offset`. -/
def lowerBound (extents : List FileExtent) (offset : Nat) : Nat :=
  bisect (fun e => !decide (e.offset < offset)) extents 0 extents.length

section Stored

variable {l : List FileExtent} {off : Nat}

theorem Stored.ascending (h : Stored l) : l.Pairwise (·.offset < ·.offset) := by
  refine h.disjoint.imp_of_mem fun {a b} ha _ hab => ?_
  have := h.nonempty a ha
  omega

theorem Stored.not_overlaps (h : Stored l) : l.Pairwise fun a b => ¬ a.Overlaps b := by
  refine h.disjoint.imp fun {a b} hab hover => ?_
  obtain ⟨x, hxa, hxb⟩ := hover
  simp only [FileExtent.Contains] at hxa hxb
  omega

theorem Stored.upperBound_eq (h : Stored l) (off : Nat) :
    upperBound l off = l.findIdx fun e => off < e.offset := by
  refine bisect_eq_findIdx (h.ascending.imp fun {a b} hab hp => ?_)
  simp only [decide_eq_true_eq] at hp ⊢
  omega

theorem Stored.lowerBound_eq (h : Stored l) (off : Nat) :
    lowerBound l off = l.findIdx fun e => !decide (e.offset < off) := by
  refine bisect_eq_findIdx (h.ascending.imp fun {a b} hab hp => ?_)
  simp only [Bool.not_eq_true', decide_eq_false_iff_not] at hp ⊢
  omega

/-- Only one of the extents contains the offset. -/
theorem Stored.eq_of_contains (h : Stored l) {a b : FileExtent} (ha : a ∈ l) (hb : b ∈ l) (hca : a.Contains off)
    (hcb : b.Contains off) : a = b :=
  Option.some.inj (((findExtent_iff h).mpr ⟨ha, hca⟩).symm.trans ((findExtent_iff h).mpr ⟨hb, hcb⟩))

theorem nextStartIn_eq_none : nextStartIn l off = none ↔ ∀ e ∈ l, e.offset < off := by
  constructor
  · exact nextStartIn_none
  · intro h
    have hno : ∀ e ∈ l, (!decide (e.offset < off)) = false := fun e he => by simp [h e he]
    rw [nextStartIn, List.findIdx_eq_length_of_false hno]
    simp

end Stored

/-! ## What is kept of the extents -/

section Kept

variable {cleaned : List FileExtent} {e : FileExtent}

theorem cleanStep_cases (cleaned : List FileExtent) (e : FileExtent) :
    cleanStep cleaned e = cleaned ∨ cleanStep cleaned e = cleaned ++ [e] := by
  unfold cleanStep
  split
  · exact .inl rfl
  · split
    · exact .inr rfl
    · split
      · exact .inl rfl
      · exact .inr rfl

theorem subset_cleanStep : cleaned ⊆ cleanStep cleaned e := by
  rcases cleanStep_cases cleaned e with h | h <;> rw [h]
  · exact List.Subset.refl _
  · exact List.subset_append_left _ _

theorem mem_of_mem_cleanStep {x : FileExtent} (h : x ∈ cleanStep cleaned e) : x ∈ cleaned ∨ x = e := by
  rcases cleanStep_cases cleaned e with hc | hc <;> rw [hc] at h
  · exact .inl h
  · simpa using h

/-- An extent is dropped only if it has no bytes, or its first byte is in
the last extent kept. -/
theorem kept_or_overlaps (h : Stored cleaned) (hle : ∀ k ∈ cleaned, k.offset ≤ e.offset) (hs : 0 < e.size) :
    e ∈ cleanStep cleaned e ∨ ∃ k ∈ cleanStep cleaned e, e.Overlaps k := by
  have hsize : ¬ e.size = 0 := by omega
  have hfirst : e.Contains e.offset := ⟨Nat.le_refl _, by omega⟩
  rw [cleanStep, if_neg hsize]
  split
  · exact .inl (by simp)
  next back hback =>
    have hmem : back ∈ cleaned := List.mem_of_getLast? hback
    rw [(h.noWrap back hmem).endOff_eq]
    split
    next hlt => exact .inr ⟨back, hmem, e.offset, hfirst, hle back hmem, hlt⟩
    · exact .inl (by simp)

theorem mem_of_mem_foldl_cleanStep {x : FileExtent} :
    ∀ {sorted cleaned : List FileExtent}, x ∈ sorted.foldl cleanStep cleaned → x ∈ cleaned ∨ x ∈ sorted
  | [], _, h => .inl h
  | e :: sorted, cleaned, h => by
    rw [List.foldl_cons] at h
    rcases mem_of_mem_foldl_cleanStep h with h | h
    · rcases mem_of_mem_cleanStep h with h | rfl
      · exact .inl h
      · exact .inr List.mem_cons_self
    · exact .inr (List.mem_cons_of_mem _ h)

theorem subset_foldl_cleanStep : ∀ {sorted cleaned : List FileExtent}, cleaned ⊆ sorted.foldl cleanStep cleaned
  | [], _ => fun _ h => h
  | _ :: _, _ => List.Subset.trans subset_cleanStep subset_foldl_cleanStep

/-- Every extent with bytes is kept, or shares a byte with one that is. -/
theorem covered_foldl_cleanStep : ∀ {sorted cleaned : List FileExtent}, Stored cleaned →
    sorted.Pairwise (·.offset ≤ ·.offset) → (∀ k ∈ cleaned, ∀ e ∈ sorted, k.offset ≤ e.offset) →
    (∀ e ∈ sorted, e.NoWrap) → ∀ e ∈ sorted, 0 < e.size →
      e ∈ sorted.foldl cleanStep cleaned ∨ ∃ k ∈ sorted.foldl cleanStep cleaned, e.Overlaps k
  | [], _, _, _, _, _ => by simp
  | e :: sorted, cleaned, h, hsort, hle, hw => by
    rw [List.pairwise_cons] at hsort
    have hle' : ∀ k ∈ cleanStep cleaned e, ∀ x ∈ sorted, k.offset ≤ x.offset := by
      intro k hk x hx
      rcases mem_of_mem_cleanStep hk with hk | rfl
      · exact hle k hk x (List.mem_cons_of_mem _ hx)
      · exact hsort.1 x hx
    intro x hx hs
    rw [List.foldl_cons]
    rcases List.mem_cons.mp hx with rfl | hx
    · rcases kept_or_overlaps h (fun k hk => hle k hk x List.mem_cons_self) hs with hm | ⟨k, hk, hover⟩
      · exact .inl (subset_foldl_cleanStep hm)
      · exact .inr ⟨k, subset_foldl_cleanStep hk, hover⟩
    · exact covered_foldl_cleanStep (h.cleanStep (hw e List.mem_cons_self)) hsort.2 hle'
        (fun x hx => hw x (List.mem_cons_of_mem _ hx)) x hx hs

end Kept

/-! ## One registration -/

/-- What `Register` stores of some extents. -/
structure Registered (extents stored : List FileExtent) : Prop where
  ascending : stored.Pairwise (·.offset < ·.offset)
  disjoint : stored.Pairwise fun a b => ¬ a.Overlaps b
  nonempty : ∀ e ∈ stored, 0 < e.size
  inputs : stored ⊆ extents
  covered : ∀ e ∈ extents, 0 < e.size → e ∈ stored ∨ ∃ k ∈ stored, e.Overlaps k

/-- The lookups answer what a scan of the stored extents would, and the
binary searches in them end where it does. -/
structure ScansAs (l : Layouts) (path : String) (stored : List FileExtent) : Prop where
  upperBound : ∀ off, upperBound stored off = stored.findIdx fun e => off < e.offset
  lowerBound : ∀ off, lowerBound stored off = stored.findIdx fun e => !decide (e.offset < off)
  find_isSome : ∀ off, (l.find path off).isSome = true ↔ ∃ e ∈ stored, e.Contains off
  find_some : ∀ off e, l.find path off = some e →
    e ∈ stored ∧ e.Contains off ∧ ∀ e' ∈ stored, e'.Contains off → e' = e
  nextStart_some : ∀ off s, l.nextStart path off = some s →
    off ≤ s ∧ (∃ e ∈ stored, e.offset = s) ∧ ∀ e ∈ stored, off ≤ e.offset → s ≤ e.offset
  nextStart_none : ∀ off, l.nextStart path off = none ↔ ∀ e ∈ stored, ¬ off ≤ e.offset
  progress : ∀ off s, l.find path off = none → l.nextStart path off = some s → off < s

theorem registered_cleanExtents {extents sorted : List FileExtent} (hs : SortsTo extents sorted)
    (hw : ∀ e ∈ extents, e.NoWrap) : Registered extents (cleanExtents sorted) where
  ascending := (stored_cleanExtents hs hw).ascending
  disjoint := (stored_cleanExtents hs hw).not_overlaps
  nonempty := (stored_cleanExtents hs hw).nonempty
  inputs x hx := by
    rcases mem_of_mem_foldl_cleanStep hx with h | h
    · cases h
    · exact hs.1.mem_iff.mp h
  covered e he := covered_foldl_cleanStep .nil hs.2 (by simp) (fun x hx => hw x (hs.1.mem_iff.mp hx)) e
    (hs.1.mem_iff.mpr he)

theorem Stored.scansAs {l : Layouts} {path : String} {stored : List FileExtent} (h : Stored stored)
    (hl : l.lookup path = some stored) : ScansAs l path stored := by
  have hfind : ∀ off, l.find path off = findExtent stored off :=
    fun off => by rw [Layouts.find, hl, Option.bind_some]
  have hnext : ∀ off, l.nextStart path off = nextStartIn stored off := fun off => by
    rw [Layouts.nextStart, hl, Option.bind_some]
  refine ⟨h.upperBound_eq, h.lowerBound_eq, fun off => ?_, fun off e he => ?_, fun off s hs => ?_, fun off => ?_,
    fun off s hf hs => ?_⟩
  · rw [hfind, Option.isSome_iff_exists]
    exact exists_congr fun e => findExtent_iff h
  · rw [hfind] at he
    obtain ⟨hm, hc⟩ := (findExtent_iff h).mp he
    exact ⟨hm, hc, fun e' he' hc' => h.eq_of_contains he' hm hc' hc⟩
  · rw [hnext] at hs
    exact nextStartIn_some h hs
  · simp only [hnext, nextStartIn_eq_none, Nat.not_le]
  · rw [hfind] at hf
    rw [hnext] at hs
    exact nextStart_gt_of_find_none h hf hs

/-- `Register` keeps ascending, disjoint, non-empty extents among those it is
given, drops only what overlaps them, and the lookups scan what it kept. -/
theorem register_lookups (l : Layouts) (path : String) {extents sorted : List FileExtent}
    (hs : SortsTo extents sorted) (hw : ∀ e ∈ extents, e.NoWrap) :
    ∃ stored, (l.register path sorted).lookup path = some stored ∧ Registered extents stored ∧
      ScansAs (l.register path sorted) path stored := by
  have hl : (l.register path sorted).lookup path = some (cleanExtents sorted) := AList.lookup_insert _
  exact ⟨cleanExtents sorted, hl, registered_cleanExtents hs hw, (stored_cleanExtents hs hw).scansAs hl⟩

/-- An empty extent, and one that starts in the chunk before it. -/
theorem register_lookups_overlapping :
    ∃ stored, (Layouts.register ∅ "f" [⟨4, 96⟩, ⟨50, 100⟩, ⟨100, 28⟩, ⟨128, 0⟩]).lookup "f" = some stored ∧
      Registered [⟨128, 0⟩, ⟨100, 28⟩, ⟨4, 96⟩, ⟨50, 100⟩] stored ∧
      ScansAs (Layouts.register ∅ "f" [⟨4, 96⟩, ⟨50, 100⟩, ⟨100, 28⟩, ⟨128, 0⟩]) "f" stored :=
  register_lookups ∅ "f" ⟨by decide, by decide⟩ (by simp [FileExtent.NoWrap])

end ReadCacheFs
