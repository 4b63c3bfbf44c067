/-
A column-chunk read while layouts are registered and cleared.

`PlanColumnChunks` asks the registry one question at a time, each under the
registry's lock: `HasLayout` once, then `Find` and, where it fails,
`NextStart` for each round. Between two of them any thread may register or
clear layouts. The machine here steps the reading thread from one registry
call to the next and lets the others in between.

`Find` failing at `pos` and `NextStart` then answering `pos` itself (an
extent registered in between starts right there) leaves an empty entry, and
the planner's break ends the plan short. `covered_iff`: that is the only
way a read ends with part of its request not planned, and only when some
chunk was planned before it, since an empty plan falls back to the grid.
-/
import ReadCacheFs.Chunking
import ReadCacheFs.Lib.Runs
import ReadCacheFs.Planner

namespace ReadCacheFs

open Lib

inductive PlanPc
  /-- Before `HasLayout`. -/
  | start
  /-- Before `Find` at `pos`. -/
  | find (pos : Nat) (chunks : List CacheReadChunk)
  /-- `Find` failed at `pos`; before `NextStart`. -/
  | nextStart (pos : Nat) (chunks : List CacheReadChunk)
  /-- The chunks the read schedules: the plan, or the grid's. -/
  | done (chunks : Except Fault (List CacheReadChunk))
  deriving DecidableEq

structure PlanState where
  layouts : Layouts
  pc : PlanPc

inductive PlanAct
  | register (path : String) (extents sorted : List FileExtent)
  | clear
  | clearPath (path : String)
  /-- The reading thread makes its next registry call. -/
  | read

instance (a b : List FileExtent) : Decidable (SortsTo a b) := inferInstanceAs (Decidable (_ ∧ _))
instance (e : FileExtent) : Decidable e.NoWrap := inferInstanceAs (Decidable (_ < _))

section Machine

variable (path : String) (r : ColumnChunkPlanRequest)

def planTop (pos : Nat) (chunks : List CacheReadChunk) : PlanPc :=
  if pos < r.reqEnd then .find pos chunks else .done (schedule r chunks)

/-- The end of a round, with the entry looked up. -/
def planAdvance (pos : Nat) (chunks : List CacheReadChunk) (entry : Nat × Nat) : PlanPc :=
  match planEntry r pos entry.1 entry.2 with
  | none => .done (schedule r chunks)
  | some c => planTop r c.nextPos (chunks ++ [c])

/-- The reading thread's next registry call. -/
def planRead (l : Layouts) : PlanPc → Option PlanPc
  | .start => some (if l.hasLayout path then planTop r r.requestedStartOffset [] else .done (schedule r []))
  | .find pos chunks => some <| match l.find path pos with
    | some e => planAdvance r pos chunks (e.offset, e.size)
    | none => .nextStart pos chunks
  | .nextStart pos chunks => some (planAdvance r pos chunks (gapEntry r pos (l.nextStart path pos)))
  | .done _ => none

/-- Extents are those `RegisterParquetLayoutFromFooter` reads, whose ends do
not wrap. -/
def planStep (s : PlanState) : PlanAct → Option PlanState
  | .register p extents sorted =>
    if SortsTo extents sorted ∧ ∀ e ∈ extents, e.NoWrap then some { s with layouts := s.layouts.register p sorted }
    else none
  | .clear => some { s with layouts := ∅ }
  | .clearPath p => some { s with layouts := s.layouts.clearPath p }
  | .read => (planRead path r s.layouts s.pc).map fun pc => { s with pc }

/-- The read has its chunks and each byte of the request is in one of them. -/
def PlanState.Covered (s : PlanState) : Prop :=
  ∃ chunks, s.pc = .done (.ok chunks) ∧ ∀ i, r.requestedStartOffset ≤ i →
    i < r.requestedStartOffset + r.requestedBytesToRead →
      ∃ c ∈ chunks, c.requestedStartOffset ≤ i ∧ i < c.requestedStartOffset + c.bytesToCopy

/-- Once a chunk is planned, `NextStart` is not asked at a position where
an extent now starts. -/
def NoExtentAppears (s : PlanState) (a : PlanAct) : Prop :=
  ∀ pos chunks, a = .read → s.pc = .nextStart pos chunks → chunks ≠ [] →
    ∀ extents, s.layouts.lookup path = some extents → ∀ e ∈ extents, e.offset ≠ pos

end Machine

/-! ## The invariant -/

/-- A request as `ReadImpl` makes it, with the block size as the gap cap. -/
structure ReadRequestOK (r : ColumnChunkPlanRequest) : Prop where
  pos : 0 < r.requestedBytesToRead
  fits : r.requestedStartOffset + r.requestedBytesToRead ≤ r.fileSize
  size_lt : r.fileSize < 2 ^ 63
  block : 0 < r.maxGapEntrySize
  block_le : r.maxGapEntrySize ≤ 2 ^ 63

section Invariant

variable {path : String} {r : ColumnChunkPlanRequest}

theorem ReadRequestOK.plan (h : ReadRequestOK r) : PlanRequestOK r :=
  ⟨h.pos, h.fits, by have := h.size_lt; omega, h.block⟩

theorem ReadRequestOK.grid (h : ReadRequestOK r) :
    GridRequest r.requestedStartOffset r.requestedBytesToRead r.maxGapEntrySize r.fileSize :=
  ⟨h.pos, h.fits, h.block, by have := h.size_lt; have := h.block_le; omega, by have := h.size_lt; omega⟩

/-- What is planned so far tiles the request up to the current position. -/
def PlanPc.Sound (r : ColumnChunkPlanRequest) : PlanPc → Prop
  | .start => True
  | .find pos chunks | .nextStart pos chunks =>
    pos < r.reqEnd ∧ Tiles r.requestedStartOffset pos (chunks.map CacheReadChunk.copyRange)
  | .done res => ∃ chunks, res = .ok chunks ∧
    Tiles r.requestedStartOffset r.reqEnd (chunks.map CacheReadChunk.copyRange)

theorem schedule_sound (h : ReadRequestOK r) {chunks : List CacheReadChunk}
    (hc : chunks ≠ [] → Tiles r.requestedStartOffset r.reqEnd (chunks.map CacheReadChunk.copyRange)) :
    (PlanPc.done (schedule r chunks)).Sound r := by
  unfold schedule
  split
  · obtain ⟨st, hst, hch⟩ := fixedGridChunks_eq h.grid
    refine ⟨st.chunks, by rw [hst]; rfl, ?_⟩
    rw [hch, h.plan.reqEnd_eq]
    exact fixedGrid_tiles h.grid
  · next hne => exact ⟨chunks, rfl, hc hne⟩

theorem planTop_sound (h : ReadRequestOK r) {pos : Nat} {chunks : List CacheReadChunk} (hle : pos ≤ r.reqEnd)
    (ht : Tiles r.requestedStartOffset pos (chunks.map CacheReadChunk.copyRange)) :
    (planTop r pos chunks).Sound r := by
  unfold planTop
  split
  · exact ⟨by assumption, ht⟩
  · obtain rfl : pos = r.reqEnd := by omega
    exact schedule_sound h fun _ => ht

theorem planAdvance_sound (h : ReadRequestOK r) {pos es sz : Nat} {chunks : List CacheReadChunk}
    (hpos : pos < r.reqEnd) (ht : Tiles r.requestedStartOffset pos (chunks.map CacheReadChunk.copyRange))
    (hlow : es ≤ pos) (hhigh : pos < es + sz) : (planAdvance r pos chunks (es, sz)).Sound r := by
  obtain ⟨c, hc, hat, -, -⟩ := planEntry_ok h.plan hpos hlow hhigh
  simp only [planAdvance, hc]
  refine planTop_sound h hat.inRequest ?_
  have hcr : c.copyRange = (pos, c.bytesToCopy) := by simp [CacheReadChunk.copyRange, hat.from_pos]
  have hnp : c.nextPos = pos + c.bytesToCopy := by simp [CacheReadChunk.nextPos, hat.from_pos]
  rw [List.map_append, List.map_cons, List.map_nil, hcr, hnp]
  exact ht.snoc hat.nonempty

structure PlanInv (r : ColumnChunkPlanRequest) (s : PlanState) : Prop where
  layouts : LayoutsOK s.layouts
  pc : s.pc.Sound r

theorem gapEntry_contains (h : PlanRequestOK r) {l : Layouts} (hl : LayoutsOK l) {pos : Nat}
    (hpos : pos < r.reqEnd) (hno : ∀ extents, l.lookup path = some extents → ∀ e ∈ extents, e.offset ≠ pos) :
    pos < pos + (gapEntry r pos (l.nextStart path pos)).2 := by
  have hcap := h.cap
  have hend := h.reqEnd_eq; have hfits := h.fits; have hlt := h.size_lt
  have key : ∀ g, (l.nextStart path pos).getD (max r.reqEnd r.fileSize) = g → pos < g ∧ g < 2 ^ 64 := by
    intro g hg
    cases hn : l.nextStart path pos with
    | none => rw [hn] at hg; simp only [Option.getD_none] at hg; omega
    | some s =>
      rw [hn] at hg; simp only [Option.getD_some] at hg; subst hg
      simp only [Layouts.nextStart, Option.bind_eq_some_iff] at hn
      obtain ⟨extents, hx, hs⟩ := hn
      obtain ⟨hle, ⟨e, he, rfl⟩, -⟩ := nextStartIn_some (hl path extents hx) hs
      have h1 := hno extents hx e he
      have h2 := (hl path extents hx).noWrap e he
      unfold FileExtent.NoWrap at h2
      omega
  obtain ⟨h1, h2⟩ := key _ rfl
  simp only [gapEntry, h.gapCap_eq]
  rw [u64Sub_eq (by omega) h2]
  omega

/-- A registry call that meets the condition keeps the plan sound. -/
theorem planRead_sound (h : ReadRequestOK r) {l : Layouts} (hl : LayoutsOK l) {pc pc' : PlanPc} (hs : pc.Sound r)
    (hg : NoExtentAppears path ⟨l, pc⟩ .read) (hr : planRead path r l pc = some pc') : pc'.Sound r := by
  cases pc with
  | start =>
    simp only [planRead, Option.some.injEq] at hr
    subst hr
    split
    · exact planTop_sound h (by rw [h.plan.reqEnd_eq]; omega) .nil
    · exact schedule_sound h (by simp)
  | find pos chunks =>
    obtain ⟨hpos, ht⟩ := hs
    simp only [planRead, Option.some.injEq] at hr
    subst hr
    cases hf : l.find path pos with
    | none => exact ⟨hpos, ht⟩
    | some e =>
      simp only [Layouts.find, Option.bind_eq_some_iff] at hf
      obtain ⟨extents, hx, hf⟩ := hf
      obtain ⟨-, hlo, hhi⟩ := (findExtent_iff (hl path extents hx)).mp hf
      exact planAdvance_sound h hpos ht hlo hhi
  | nextStart pos chunks =>
    obtain ⟨hpos, ht⟩ := hs
    simp only [planRead, Option.some.injEq] at hr
    subst hr
    by_cases hz : (gapEntry r pos (l.nextStart path pos)).2 = 0
    · -- The break: nothing may be planned yet, and the grid takes over.
      have hne : chunks = [] := by
        by_contra hc
        have := gapEntry_contains h.plan hl hpos (hg pos chunks rfl rfl hc)
        omega
      subst hne
      simp only [planAdvance, hz, planEntry_zero]
      exact schedule_sound h (by simp)
    · exact planAdvance_sound h hpos ht (Nat.le_refl pos) (by simp only [gapEntry] at hz ⊢; omega)
  | done res => simp [planRead] at hr

theorem planStep_inv (h : ReadRequestOK r) {s s' : PlanState} {a : PlanAct} (hi : PlanInv r s)
    (hg : NoExtentAppears path s a) (hs : planStep path r s a = some s') : PlanInv r s' := by
  cases a with
  | register p extents sorted =>
    simp only [planStep] at hs
    split at hs
    · next hok => cases hs; exact ⟨hi.layouts.register hok.1 hok.2, hi.pc⟩
    · cases hs
  | clear => cases hs; exact ⟨.empty, hi.pc⟩
  | clearPath p => cases hs; exact ⟨hi.layouts.clearPath, hi.pc⟩
  | read =>
    simp only [planStep, Option.map_eq_some_iff] at hs
    obtain ⟨pc, hr, rfl⟩ := hs
    exact ⟨hi.layouts, planRead_sound h hi.layouts hi.pc hg hr⟩

theorem PlanInv.covered (h : ReadRequestOK r) {s : PlanState} (hi : PlanInv r s) (hd : ∃ res, s.pc = .done res) :
    s.Covered r := by
  obtain ⟨res, hres⟩ := hd
  have hp := hi.pc
  rw [hres] at hp
  obtain ⟨chunks, rfl, ht⟩ := hp
  refine ⟨chunks, hres, fun i h1 h2 => ?_⟩
  rw [h.plan.reqEnd_eq] at ht
  obtain ⟨rg, hrg, h3⟩ := ht.cover h1 h2
  obtain ⟨c, hc, rfl⟩ := List.mem_map.mp hrg
  exact ⟨c, hc, h3⟩

/-! ## The short plan -/

theorem exec_done : ∀ {as : List PlanAct} {s s' : PlanState} {res : Except Fault (List CacheReadChunk)},
    s.pc = .done res → exec (planStep path r) s as = some s' → s'.pc = .done res
  | [], s, s', res, hp, h => by simp at h; exact h ▸ hp
  | a :: as, s, s', res, hp, h => by
    obtain ⟨t, ht, hr⟩ := exec_cons.mp h
    refine exec_done (s := t) ?_ hr
    cases a with
    | register p extents sorted =>
      simp only [planStep] at ht
      split at ht
      · cases ht; exact hp
      · cases ht
    | clear => cases ht; exact hp
    | clearPath p => cases ht; exact hp
    | read => simp [planStep, hp, planRead] at ht

/-- A `NextStart` at a position where an extent has appeared, after some
chunk, ends the plan there. -/
theorem planStep_short {s t : PlanState} {a : PlanAct} (hi : PlanInv r s)
    (hg : ¬ NoExtentAppears path s a) (hs : planStep path r s a = some t) :
    ∃ pos chunks, pos < r.reqEnd ∧ t.pc = .done (.ok chunks) ∧
      Tiles r.requestedStartOffset pos (chunks.map CacheReadChunk.copyRange) := by
  simp only [NoExtentAppears, not_forall] at hg
  obtain ⟨pos, chunks, rfl, hpc, hne, extents, hx, e, he, hoff⟩ := hg
  have hst := hi.layouts path extents hx
  have hpos : pos < r.reqEnd ∧ Tiles r.requestedStartOffset pos (chunks.map CacheReadChunk.copyRange) := by
    have := hi.pc; rw [hpc] at this; exact this
  -- The first stored start at or after `pos` is `pos`.
  have hnext : s.layouts.nextStart path pos = some pos := by
    rw [Layouts.nextStart, hx, Option.bind_some]
    cases hn : nextStartIn extents pos with
    | none => have := nextStartIn_none hn e he; omega
    | some q =>
      obtain ⟨hle, -, hmin⟩ := nextStartIn_some hst hn
      have := hmin e he (by omega)
      congr 1; omega
  have hz : (gapEntry r pos (some pos)).2 = 0 := by
    simp only [gapEntry, Option.getD_some]
    have : u64Sub pos pos = 0 := by unfold u64Sub; omega
    omega
  simp only [planStep, hpc, planRead, hnext, Option.map_some, Option.some.injEq] at hs
  refine ⟨pos, chunks, hpos.1, ?_, hpos.2⟩
  rw [← hs]
  simp only [planAdvance, hz, planEntry_zero, schedule, hne, if_false]

theorem not_covered_of_short (h : ReadRequestOK r) {s : PlanState} {pos : Nat} {chunks : List CacheReadChunk}
    (hpos : pos < r.reqEnd) (hpc : s.pc = .done (.ok chunks))
    (ht : Tiles r.requestedStartOffset pos (chunks.map CacheReadChunk.copyRange)) : ¬ s.Covered r := by
  rintro ⟨cs, hcs, hcov⟩
  rw [hpc] at hcs
  cases hcs
  have hle := ht.le
  obtain ⟨c, hc, h1, h2⟩ := hcov pos hle (by rw [← h.plan.reqEnd_eq]; exact hpos)
  have := ht.mem (List.mem_map_of_mem (f := CacheReadChunk.copyRange) hc)
  simp only [CacheReadChunk.copyRange] at this
  omega

/-! ## Every interleaving -/

/-- From any sound state: a finished run covers the request exactly when
every registry call met the condition. -/
theorem covered_iff_guarded (h : ReadRequestOK r) : ∀ {as : List PlanAct} {s s' : PlanState}, PlanInv r s →
    exec (planStep path r) s as = some s' → (∃ res, s'.pc = .done res) →
      (s'.Covered r ↔ Guarded (planStep path r) (NoExtentAppears path) s as)
  | [], s, s', hi, hx, hd => by
    simp at hx; subst hx
    simp only [Guarded, iff_true]
    exact hi.covered h hd
  | a :: as, s, s', hi, hx, hd => by
    obtain ⟨t, ht, hr⟩ := exec_cons.mp hx
    by_cases hg : NoExtentAppears path s a
    · rw [covered_iff_guarded h (planStep_inv h hi hg ht) hr hd]
      refine ⟨fun hgu => ⟨hg, fun t' ht' => ?_⟩, fun hgu => hgu.2 t ht⟩
      rw [ht] at ht'; cases ht'; exact hgu
    · obtain ⟨pos, chunks, hpos, hpc, htile⟩ := planStep_short hi hg ht
      refine ⟨fun hc => ?_, fun hgu => absurd hgu.1 hg⟩
      exact absurd hc (not_covered_of_short h hpos (exec_done hpc hr) htile)

end Invariant

/-- **Plans under concurrent layout changes.** A read whose registry calls
interleave with any registrations and clears schedules chunks for every byte
of its request exactly when, in every round after the first chunk, no extent
starts at the position where `Find` failed by the time `NextStart` is asked. -/
theorem covered_iff_no_extent_appears (path : String) (r : ColumnChunkPlanRequest) (h : ReadRequestOK r)
    (l : Layouts) (hl : LayoutsOK l) (as : List PlanAct) (s : PlanState)
    (hx : exec (planStep path r) ⟨l, .start⟩ as = some s) (hd : ∃ res, s.pc = .done res) :
    s.Covered r ↔ Guarded (planStep path r) (NoExtentAppears path) ⟨l, .start⟩ as :=
  covered_iff_guarded h ⟨hl, trivial⟩ hx hd

/-! ## A short plan -/

def raceRequest : ColumnChunkPlanRequest := ⟨0, 20, 100, 8⟩

def raceLayouts : Layouts := Layouts.register ∅ "f" [⟨0, 4⟩]

/-- A second extent is registered between the `Find` that fails at 4 and the
`NextStart` there. -/
def raceActs : List PlanAct :=
  [.read, .read, .read, .register "f" [⟨0, 4⟩, ⟨4, 6⟩] [⟨0, 4⟩, ⟨4, 6⟩], .read]

/-- The same registration one call later. -/
def calmActs : List PlanAct :=
  [.read, .read, .read, .read, .register "f" [⟨0, 4⟩, ⟨4, 6⟩] [⟨0, 4⟩, ⟨4, 6⟩], .read, .read]

theorem raceRequest_ok : ReadRequestOK raceRequest := by constructor <;> decide

theorem raceLayouts_ok : LayoutsOK raceLayouts := by
  have hs : SortsTo [⟨0, 4⟩] [⟨0, 4⟩] := by decide
  exact LayoutsOK.empty.register hs (by decide)

theorem covered_calm :
    ∃ s, exec (planStep "f" raceRequest) ⟨raceLayouts, .start⟩ calmActs = some s ∧
      (∃ res, s.pc = .done res) ∧
      (s.Covered raceRequest ↔
        Guarded (planStep "f" raceRequest) (NoExtentAppears "f") ⟨raceLayouts, .start⟩ calmActs) := by
  obtain ⟨s, hs, hd⟩ : ∃ s, exec (planStep "f" raceRequest) ⟨raceLayouts, .start⟩ calmActs = some s ∧
      ∃ res, s.pc = .done res := ⟨_, rfl, ⟨_, rfl⟩⟩
  exact ⟨s, hs, hd,
    covered_iff_no_extent_appears "f" raceRequest raceRequest_ok raceLayouts raceLayouts_ok calmActs s hs hd⟩

/-- **A plan that ends short.** The read of `[0, 20)` schedules one chunk,
for `[0, 4)`, and returns with the rest of the buffer unwritten. -/
theorem race_not_covered :
    ¬ ∀ as s, exec (planStep "f" raceRequest) ⟨raceLayouts, .start⟩ as = some s → (∃ res, s.pc = .done res) →
      s.Covered raceRequest := by
  intro h
  have hx : (exec (planStep "f" raceRequest) ⟨raceLayouts, .start⟩ raceActs).map (·.pc) =
      some (.done (.ok [⟨0, 0, 0, 4, 4⟩])) := by decide +kernel
  obtain ⟨s, hs, hpc⟩ := Option.map_eq_some_iff.mp hx
  obtain ⟨chunks, hch, hcov⟩ := h raceActs s hs ⟨_, hpc⟩
  rw [hpc] at hch
  cases hch
  obtain ⟨c, hc, hin⟩ := hcov 4 (by decide) (by decide)
  simp only [List.mem_singleton] at hc
  subst hc
  exact absurd hin (by decide)

end ReadCacheFs
