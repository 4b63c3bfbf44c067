/-
The runs of the remap. The walk over a file's slices skips those that start
before the last one it kept ends, and joins the ones it keeps into runs
that are as long as one version tag lasts: a range whose bytes are all kept
under one tag lies in one run (`Runs.interval`). What is emitted for a run
is then known key by key.
-/
import ReadCacheFs.RemapFacts

namespace ReadCacheFs

open Lib

/-! ## The walk, split in two -/

/-- The slices the walk keeps when the last one kept ends at `e`. -/
def keptSegments : Nat → List (Nat × CachedSlice) → List Segment
  | _, [] => []
  | e, (s, sl) :: rest =>
    match sl.entry with
    | none => keptSegments e rest
    | some entry =>
      if sl.byteLen = 0 then keptSegments e rest
      else if s < e then keptSegments e rest
      else ⟨s, sl.byteLen, entry⟩ :: keptSegments (s + sl.byteLen) rest

namespace Run

def single (seg : Segment) : Run := ⟨seg.start, seg.start + seg.byteLen, [seg], seg.entry.versionTag⟩

def extend (r : Run) (seg : Segment) : Run :=
  { r with runEnd := seg.start + seg.byteLen, runSegments := r.runSegments ++ [seg] }

def range (r : Run) : Nat × Nat := (r.runStart, r.runEnd - r.runStart)

end Run

/-- The runs of segments that follow a run. -/
def joinRuns : Run → List Segment → List Run
  | r, [] => [r]
  | r, seg :: segs =>
    if seg.start = r.runEnd ∧ seg.entry.versionTag = r.runTag then joinRuns (r.extend seg) segs
    else r :: joinRuns (.single seg) segs

def runsOf : List Segment → List Run
  | [] => []
  | seg :: segs => joinRuns (.single seg) segs

section Walk

variable (page : Nat) (fname : String) (newBlockSize : Nat) (fileSize : Option Nat)

def emitRuns : List Run → Except Fault (List (InMemCacheBlock × InMemCacheDataEntry))
  | [] => .ok []
  | r :: rs => do
    let out ← emitRunOnNewGrid page fname r newBlockSize fileSize
    let more ← emitRuns rs
    return out ++ more

theorem emitRuns_single (r : Run) :
    emitRuns page fname newBlockSize fileSize [r] = emitRunOnNewGrid page fname r newBlockSize fileSize := by
  rw [emitRuns, emitRuns]
  cases emitRunOnNewGrid page fname r newBlockSize fileSize with
  | error e => rfl
  | ok out => exact congrArg Except.ok (List.append_nil out)

theorem beginRun_eq {s len : Nat} {entry : InMemCacheDataEntry} (h : s + len < 2 ^ 64) :
    beginRun s len entry = .single ⟨s, len, entry⟩ := by
  rw [beginRun, u64_eq h]
  rfl

/-- The walk from a run on. -/
theorem remapSlices_some_eq {slices : List (Nat × CachedSlice)}
    (hw : ∀ p ∈ slices, p.1 + p.2.byteLen < 2 ^ 64) (r : Run) :
    remapSlices page fname newBlockSize fileSize slices (some r) =
      emitRuns page fname newBlockSize fileSize (joinRuns r (keptSegments r.runEnd slices)) := by
  induction slices generalizing r with
  | nil => exact (emitRuns_single page fname newBlockSize fileSize r).symm
  | cons p rest ih =>
    obtain ⟨s, sl⟩ := p
    have hp : s + sl.byteLen < 2 ^ 64 := hw (s, sl) (by simp)
    replace ih := ih fun p hp => hw p (by simp [hp])
    rw [remapSlices, keptSegments]
    cases sl.entry with
    | none => exact ih r
    | some entry =>
      dsimp only
      split
      · exact ih r
      split
      · exact ih r
      rw [joinRuns, beginRun_eq hp, u64_eq hp]
      dsimp only
      split
      · exact ih (r.extend ⟨s, sl.byteLen, entry⟩)
      · rw [emitRuns, flushRun, ih]
        rfl

theorem remapSlices_none_eq {slices : List (Nat × CachedSlice)} (hw : ∀ p ∈ slices, p.1 + p.2.byteLen < 2 ^ 64) :
    remapSlices page fname newBlockSize fileSize slices none =
      emitRuns page fname newBlockSize fileSize (runsOf (keptSegments 0 slices)) := by
  induction slices with
  | nil => rfl
  | cons p rest ih =>
    obtain ⟨s, sl⟩ := p
    have hp : s + sl.byteLen < 2 ^ 64 := hw (s, sl) (by simp)
    have hrest : ∀ p ∈ rest, p.1 + p.2.byteLen < 2 ^ 64 := fun p hp => hw p (by simp [hp])
    replace ih := ih hrest
    rw [remapSlices, keptSegments]
    cases sl.entry with
    | none => exact ih
    | some entry =>
      dsimp only
      split
      · exact ih
      · rw [if_neg (by omega), beginRun_eq hp]
        exact remapSlices_some_eq page fname newBlockSize fileSize hrest _

end Walk

/-! ## Runs are as long as a tag lasts -/

/-- A segment with tag `t` is around `p`. -/
def SegmentTag (segs : List Segment) (p : Nat) (t : String) : Prop :=
  ∃ seg ∈ segs, seg.start ≤ p ∧ p < seg.start + seg.byteLen ∧ seg.entry.versionTag = t

/-- A run over some of the segments. -/
structure Run.Over (segs : List Segment) (r : Run) : Prop where
  tiles : Tiles r.runStart r.runEnd (r.runSegments.map Segment.range)
  source : ∀ seg ∈ r.runSegments, seg ∈ segs ∧ seg.entry.versionTag = r.runTag
  nonempty : r.runStart < r.runEnd

/-- The runs of the segments: every segment is in one, and none could go on. -/
structure Runs (segs : List Segment) (runs : List Run) : Prop where
  whole : ∀ r ∈ runs, r.Over segs
  apart : runs.Pairwise fun r r' => r.runEnd ≤ r'.runStart
  covers : ∀ seg ∈ segs, ∃ r ∈ runs, seg ∈ r.runSegments
  maximal : ∀ r ∈ runs, ∀ seg ∈ segs, seg.start = r.runEnd → seg.entry.versionTag ≠ r.runTag

section Runs

variable {all segs : List Segment} {runs : List Run} {r : Run}

theorem Run.Over.single {seg : Segment} (hm : seg ∈ all) (hpos : 0 < seg.byteLen) :
    (Run.single seg).Over all := by
  refine ⟨.cons hpos .nil, ?_, Nat.lt_add_of_pos_right hpos⟩
  intro seg' hs
  cases List.mem_singleton.mp hs
  exact ⟨hm, rfl⟩

theorem Run.Over.extend (h : r.Over all) {seg : Segment} (hm : seg ∈ all) (hpos : 0 < seg.byteLen)
    (hs : seg.start = r.runEnd) (ht : seg.entry.versionTag = r.runTag) : (r.extend seg).Over all := by
  have hne := h.nonempty
  refine ⟨?_, ?_, ?_⟩
  · have hsnoc := h.tiles.snoc hpos
    rw [← hs] at hsnoc
    rw [Run.extend, List.map_append]
    exact hsnoc
  · intro seg' hseg
    rcases List.mem_append.mp hseg with hseg | hseg
    · exact h.source seg' hseg
    · cases List.mem_singleton.mp hseg
      exact ⟨hm, ht⟩
  · show r.runStart < seg.start + seg.byteLen
    omega

/-- What joining the segments that follow a run makes of it. -/
structure Joined (all : List Segment) (r : Run) (segs : List Segment) (runs : List Run) : Prop where
  whole : ∀ r' ∈ runs, r'.Over all
  from_start : ∀ r' ∈ runs, r.runStart ≤ r'.runStart
  past : ∀ r' ∈ runs, r.runEnd ≤ r'.runEnd
  apart : runs.Pairwise fun r r' => r.runEnd ≤ r'.runStart
  covers : ∀ seg ∈ r.runSegments ++ segs, ∃ r' ∈ runs, seg ∈ r'.runSegments
  maximal : ∀ r' ∈ runs, ∀ seg ∈ segs, seg.start = r'.runEnd → seg.entry.versionTag ≠ r'.runTag

theorem joinRuns_spec {b : Nat} (hr : r.Over all) (hsub : segs ⊆ all) (hpos : ∀ seg ∈ segs, 0 < seg.byteLen)
    (hasc : Ascending r.runEnd b (segs.map Segment.range)) : Joined all r segs (joinRuns r segs) := by
  induction segs generalizing r with
  | nil =>
    refine ⟨?_, ?_, ?_, List.pairwise_singleton _ _, ?_, by simp⟩
    · simpa [joinRuns] using hr
    · simp [joinRuns]
    · simp [joinRuns]
    · simp [joinRuns]
  | cons seg segs ih =>
    have hseg : seg ∈ all := hsub (by simp)
    have hlen : 0 < seg.byteLen := hpos seg (by simp)
    have hsub' : segs ⊆ all := fun x hx => hsub (by simp [hx])
    have hpos' : ∀ x ∈ segs, 0 < x.byteLen := fun x hx => hpos x (by simp [hx])
    obtain ⟨hge, _, hrest⟩ := hasc
    dsimp only [Segment.range] at hge hrest
    have hlater : ∀ x ∈ segs, seg.start + seg.byteLen ≤ x.start := fun x hx =>
      hrest.lower x.range (List.mem_map_of_mem hx)
    rw [joinRuns]
    split
    next hjoin =>
      have h := ih (hr.extend hseg hlen hjoin.1 hjoin.2) hsub' hpos' hrest
      have hend : (r.extend seg).runEnd = seg.start + seg.byteLen := rfl
      refine ⟨h.whole, h.from_start, fun r' hr' => ?_, h.apart, fun x hx => ?_, fun r' hr' x hx hstart => ?_⟩
      · have := h.past r' hr'
        omega
      · refine h.covers x ?_
        rw [Run.extend, List.append_assoc]
        exact hx
      · rcases List.mem_cons.mp hx with rfl | hx
        · have := h.past r' hr'
          omega
        · exact h.maximal r' hr' x hx hstart
    next hnot =>
      have h := ih (Run.Over.single hseg hlen) hsub' hpos' hrest
      have hfrom : ∀ r' ∈ joinRuns (.single seg) segs, seg.start ≤ r'.runStart := h.from_start
      have hne := hr.nonempty
      refine ⟨?_, ?_, ?_, ?_, ?_, ?_⟩
      · exact List.forall_mem_cons.mpr ⟨hr, h.whole⟩
      · refine List.forall_mem_cons.mpr ⟨Nat.le_refl _, fun r' hr' => ?_⟩
        have := hfrom r' hr'
        omega
      · refine List.forall_mem_cons.mpr ⟨Nat.le_refl _, fun r' hr' => ?_⟩
        have := hfrom r' hr'
        have := (h.whole r' hr').nonempty
        omega
      · refine List.pairwise_cons.mpr ⟨fun r' hr' => ?_, h.apart⟩
        have := hfrom r' hr'
        omega
      · intro x hx
        rcases List.mem_append.mp hx with hx | hx
        · exact ⟨r, by simp, hx⟩
        · obtain ⟨r', hr', hx'⟩ := h.covers x hx
          exact ⟨r', by simp [hr'], hx'⟩
      · intro r' hr' x hx hstart
        rcases List.mem_cons.mp hr' with rfl | hr'
        · rcases List.mem_cons.mp hx with rfl | hx
          · exact fun htag => hnot ⟨hstart, htag⟩
          · have := hlater x hx
            omega
        · rcases List.mem_cons.mp hx with rfl | hx
          · have := hfrom r' hr'
            have := (h.whole r' hr').nonempty
            omega
          · exact h.maximal r' hr' x hx hstart

theorem runsOf_spec {a b : Nat} (hpos : ∀ seg ∈ segs, 0 < seg.byteLen)
    (hasc : Ascending a b (segs.map Segment.range)) :
    Runs segs (runsOf segs) := by
  cases segs with
  | nil => exact ⟨by simp [runsOf], .nil, by simp, by simp [runsOf]⟩
  | cons seg segs =>
    have hlen := hpos seg (by simp)
    have h := joinRuns_spec (Run.Over.single (List.mem_cons_self (a := seg) (l := segs)) hlen)
      (fun x hx => List.mem_cons_of_mem seg hx) (fun x hx => hpos x (by simp [hx])) hasc.2.2
    refine ⟨h.whole, h.apart, h.covers, fun r hr x hx hstart => ?_⟩
    rcases List.mem_cons.mp hx with rfl | hx
    · have hfrom : x.start ≤ r.runStart := h.from_start r hr
      have := (h.whole r hr).nonempty
      omega
    · exact h.maximal r hr x hx hstart

namespace Runs

/-- Two runs with a point in common are one. -/
theorem eq_of_point (h : Runs segs runs) {r' : Run} (hr : r ∈ runs) (hr' : r' ∈ runs) {p : Nat}
    (h1 : r.runStart ≤ p) (h2 : p < r.runEnd) (h1' : r'.runStart ≤ p) (h2' : p < r'.runEnd) : r = r' := by
  by_contra hne
  have hapart : runs.Pairwise fun r r' => r.runEnd ≤ r'.runStart ∨ r'.runEnd ≤ r.runStart := h.apart.imp .inl
  have : Std.Symm fun r r' : Run => r.runEnd ≤ r'.runStart ∨ r'.runEnd ≤ r.runStart := ⟨fun _ _ => Or.symm⟩
  rcases hapart.forall hr hr' hne with hle | hle
  · omega
  · omega

/-- The bytes of a run are all under its tag. -/
theorem tag (h : Runs segs runs) (hr : r ∈ runs) {p : Nat} (hlo : r.runStart ≤ p) (hhi : p < r.runEnd) :
    SegmentTag segs p r.runTag := by
  obtain ⟨q, hq, h1, h2⟩ := (h.whole r hr).tiles.cover hlo hhi
  obtain ⟨seg, hseg, rfl⟩ := List.mem_map.mp hq
  obtain ⟨hm, ht⟩ := (h.whole r hr).source seg hseg
  exact ⟨seg, hm, h1, h2, ht⟩

/-- The run of a segment. -/
theorem run_of_mem (h : Runs segs runs) {seg : Segment} (hs : seg ∈ segs) :
    ∃ r ∈ runs, r.runStart ≤ seg.start ∧ seg.start + seg.byteLen ≤ r.runEnd ∧
      r.runTag = seg.entry.versionTag := by
  obtain ⟨r, hr, hseg⟩ := h.covers seg hs
  obtain ⟨h1, h2, _⟩ := (h.whole r hr).tiles.mem (List.mem_map.mpr ⟨seg, hseg, rfl⟩)
  exact ⟨r, hr, h1, h2, ((h.whole r hr).source seg hseg).2.symm⟩

/-- The tag ends where the run does. -/
theorem not_tag_runEnd (h : Runs segs runs) (hr : r ∈ runs) : ¬ SegmentTag segs r.runEnd r.runTag := by
  intro ⟨seg, hs, h1, h2, ht⟩
  obtain ⟨r', hr', h3, h4, _⟩ := h.run_of_mem hs
  have hne := (h.whole r hr).nonempty
  rcases Nat.eq_or_lt_of_le h1 with he | hlt
  · exact h.maximal r hr seg hs he ht
  · -- The segment would reach over the end of the run it is in.
    have hcommon : max r.runStart seg.start < r.runEnd := by omega
    obtain rfl := h.eq_of_point hr hr' (Nat.le_max_left _ seg.start) hcommon (by omega) (by omega)
    omega

/-- **A range whose bytes are all under one tag lies in one run.** -/
theorem interval (h : Runs segs runs) {lo hi : Nat} {t : String} (hne : lo < hi)
    (htag : ∀ p, lo ≤ p → p < hi → SegmentTag segs p t) :
    ∃ r ∈ runs, r.runTag = t ∧ r.runStart ≤ lo ∧ hi ≤ r.runEnd := by
  obtain ⟨seg, hs, h1, h2, ht⟩ := htag lo (Nat.le_refl _) hne
  obtain ⟨r, hr, h3, h4, ht'⟩ := h.run_of_mem hs
  refine ⟨r, hr, ht'.trans ht, by omega, ?_⟩
  by_contra hlt
  refine h.not_tag_runEnd hr ?_
  rw [ht', ht]
  exact htag r.runEnd (by omega) (by omega)

end Runs

end Runs

/-! ## The slices kept -/

section Kept

variable {slices : List (Nat × CachedSlice)} {e : Nat}

theorem keptSegments_ascending (hw : ∀ p ∈ slices, p.1 + p.2.byteLen < 2 ^ 64) :
    Ascending e (2 ^ 64) ((keptSegments e slices).map Segment.range) := by
  induction slices generalizing e with
  | nil => trivial
  | cons p rest ih =>
    obtain ⟨s, sl⟩ := p
    have hp : s + sl.byteLen < 2 ^ 64 := hw (s, sl) (by simp)
    replace ih := fun e => ih (e := e) fun p hp => hw p (by simp [hp])
    rw [keptSegments]
    cases sl.entry with
    | none => exact ih e
    | some entry =>
      dsimp only
      split
      · exact ih e
      split
      · exact ih e
      next hge => exact ⟨Nat.le_of_not_lt hge, Nat.le_of_lt hp, ih _⟩

/-- A segment kept is a slice with bytes, from `e` on. -/
theorem mem_of_keptSegments {seg : Segment} (h : seg ∈ keptSegments e slices) :
    (seg.start, ⟨seg.byteLen, some seg.entry⟩) ∈ slices ∧ 0 < seg.byteLen ∧ e ≤ seg.start := by
  induction slices generalizing e with
  | nil => cases h
  | cons p rest ih =>
    obtain ⟨s, len, entry⟩ := p
    have hskip : seg ∈ keptSegments e rest →
        (seg.start, ⟨seg.byteLen, some seg.entry⟩) ∈ (s, ⟨len, entry⟩) :: rest ∧ 0 < seg.byteLen ∧
          e ≤ seg.start :=
      fun h => ⟨List.mem_cons_of_mem _ (ih h).1, (ih h).2⟩
    rw [keptSegments] at h
    cases entry with
    | none => exact hskip h
    | some entry =>
      dsimp only at h
      split at h
      · exact hskip h
      split at h
      · exact hskip h
      · rcases List.mem_cons.mp h with rfl | h
        · exact ⟨by simp, by dsimp only; omega, by dsimp only; omega⟩
        · obtain ⟨hm, hpos, hle⟩ := ih h
          exact ⟨List.mem_cons_of_mem _ hm, hpos, by omega⟩

/-- Slices in order: one with bytes is kept if no earlier one that is kept
ends after its start. -/
theorem mem_keptSegments (hsorted : slices.Pairwise fun p q => p.1 < q.1) {seg : Segment}
    (hm : (seg.start, ⟨seg.byteLen, some seg.entry⟩) ∈ slices) (hpos : 0 < seg.byteLen) (hge : e ≤ seg.start)
    (hclear : ∀ seg' ∈ keptSegments e slices, seg'.start < seg.start → seg'.start + seg'.byteLen ≤ seg.start) :
    seg ∈ keptSegments e slices := by
  induction slices generalizing e with
  | nil => cases hm
  | cons p rest ih =>
    obtain ⟨s, len, entry⟩ := p
    obtain ⟨hfirst, hrest⟩ := List.pairwise_cons.mp hsorted
    rw [keptSegments] at hclear ⊢
    rcases List.mem_cons.mp hm with he | hin
    · cases he
      dsimp only
      rw [if_neg (by omega), if_neg (by omega)]
      exact List.mem_cons_self
    · have hlt : s < seg.start := hfirst _ hin
      cases entry with
      | none => exact ih hrest hin hge hclear
      | some entry =>
        dsimp only at hclear ⊢
        split at hclear
        next h0 =>
          rw [if_pos h0]
          exact ih hrest hin hge hclear
        next h0 =>
          rw [if_neg h0]
          split at hclear
          next h1 =>
            rw [if_pos h1]
            exact ih hrest hin hge hclear
          next h1 =>
            rw [if_neg h1]
            exact List.mem_cons_of_mem _ (ih hrest hin (hclear _ List.mem_cons_self hlt)
              fun seg' hs' => hclear seg' (List.mem_cons_of_mem _ hs'))

end Kept

end ReadCacheFs
