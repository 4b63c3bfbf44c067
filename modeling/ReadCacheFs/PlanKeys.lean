/-
The entries two requests of one file plan.

An extent is planned under its own range, whatever the request. An entry of a
gap starts at the position being planned: a request that enters a gap at `p`
cuts it at `p`, `p + cap`, `p + 2 * cap`, and two requests that enter one gap
at positions no multiple of the cap apart cache its bytes under two keys
(`planColumnChunks_disjoint_iff` says when).
-/
import Mathlib.Logic.Relation
import Mathlib.Data.Nat.ModEq
import ReadCacheFs.Planner

namespace ReadCacheFs

open Relation

/-- The range an entry is cached under. -/
def CacheReadChunk.entry (c : CacheReadChunk) : Nat × Nat := (c.alignedStartOffset, c.chunkSize)

def SameOrDisjoint (a b : Nat × Nat) : Prop := a = b ∨ a.1 + a.2 ≤ b.1 ∨ b.1 + b.2 ≤ a.1

instance (a b : Nat × Nat) : Decidable (SameOrDisjoint a b) := inferInstanceAs (Decidable (_ ∨ _))

theorem SameOrDisjoint.symm {a b : Nat × Nat} (h : SameOrDisjoint a b) : SameOrDisjoint b a := by
  rcases h with rfl | h | h
  · exact .inl rfl
  · exact .inr (.inr h)
  · exact .inr (.inl h)

/-- A request, empty or not, that ends inside the file. -/
structure InsideFile (r : ColumnChunkPlanRequest) : Prop where
  fits : r.requestedStartOffset + r.requestedBytesToRead ≤ r.fileSize
  size_lt : r.fileSize < 2 ^ 64
  cap : 0 < r.maxGapEntrySize

theorem InsideFile.reqEnd_eq {r : ColumnChunkPlanRequest} (h : InsideFile r) :
    r.reqEnd = r.requestedStartOffset + r.requestedBytesToRead :=
  u64_eq (by have := h.fits; have := h.size_lt; omega)

theorem InsideFile.ok {r : ColumnChunkPlanRequest} (h : InsideFile r) (hlt : r.requestedStartOffset < r.reqEnd) :
    PlanRequestOK r := ⟨by have := h.reqEnd_eq; omega, h.fits, h.size_lt, h.cap⟩

/-! ## Gaps -/

/-- Where the gap at a position ends: at the next extent, or with the file. -/
def gapEnd (extents : List FileExtent) (fileSize pos : Nat) : Nat :=
  min ((nextStartIn extents pos).getD fileSize) fileSize

section Gaps

variable {extents : List FileExtent} {fileSize pos x : Nat}

theorem gapEnd_gt (hs : Stored extents) (hfree : findExtent extents pos = none) (hpos : pos < fileSize) :
    pos < gapEnd extents fileSize pos := by
  unfold gapEnd
  cases hn : nextStartIn extents pos with
  | none => simpa using hpos
  | some s =>
    have := nextStart_gt_of_find_none hs hfree hn
    simpa using ⟨this, hpos⟩

theorem extent_off_gap (hs : Stored extents) (hfree : findExtent extents pos = none) (fileSize : Nat)
    {e : FileExtent} (he : e ∈ extents) :
    e.offset + e.size ≤ pos ∨ gapEnd extents fileSize pos ≤ e.offset := by
  by_cases hle : e.offset ≤ pos
  · refine .inl ?_
    by_contra hc
    have hin := (findExtent_iff hs).mpr ⟨he, hle, by omega⟩
    rw [hfree] at hin
    cases hin
  · refine .inr ?_
    unfold gapEnd
    cases hn : nextStartIn extents pos with
    | none =>
      have := nextStartIn_none hn e he
      omega
    | some s =>
      have := (nextStartIn_some hs hn).2.2 e he (by omega)
      exact (Nat.min_le_left _ _).trans this

theorem free_of_lt_gapEnd (hs : Stored extents) (hfree : findExtent extents pos = none) (hle : pos ≤ x)
    (hlt : x < gapEnd extents fileSize pos) : findExtent extents x = none := by
  cases hf : findExtent extents x with
  | none => rfl
  | some e =>
    obtain ⟨he, hlo, hhi⟩ := (findExtent_iff hs).mp hf
    rcases extent_off_gap hs hfree fileSize he with h | h
    · omega
    · omega

theorem gapEnd_eq_of_lt (hs : Stored extents) (hle : pos ≤ x) (hlt : x < gapEnd extents fileSize pos) :
    gapEnd extents fileSize x = gapEnd extents fileSize pos := by
  unfold gapEnd at *
  congr 2
  cases hn : nextStartIn extents pos with
  | none =>
    cases hx : nextStartIn extents x with
    | none => rfl
    | some s =>
      obtain ⟨hxs, ⟨e, he, rfl⟩, -⟩ := nextStartIn_some hs hx
      have := nextStartIn_none hn e he
      omega
  | some s =>
    rw [hn] at hlt
    obtain ⟨hps, ⟨e, he, rfl⟩, hmin⟩ := nextStartIn_some hs hn
    have hxe : x < e.offset := lt_of_lt_of_le hlt (Nat.min_le_left _ _)
    cases hx : nextStartIn extents x with
    | none =>
      have := nextStartIn_none hx e he
      omega
    | some s' =>
      obtain ⟨hxs, ⟨e', he', rfl⟩, hmin'⟩ := nextStartIn_some hs hx
      have h1 := hmin' e he (by omega)
      have h2 := hmin e' he' (by omega)
      rw [show e'.offset = e.offset by omega]

theorem covered_at_gapEnd (hs : Stored extents) (hlt : gapEnd extents fileSize pos < fileSize) :
    ∃ e, findExtent extents (gapEnd extents fileSize pos) = some e := by
  unfold gapEnd at *
  cases hn : nextStartIn extents pos with
  | none =>
    rw [hn] at hlt
    simp at hlt
  | some s =>
    rw [hn] at hlt
    obtain ⟨-, ⟨e, he, rfl⟩, -⟩ := nextStartIn_some hs hn
    have hmin : min ((some e.offset).getD fileSize) fileSize = e.offset := by
      simp only [Option.getD_some] at hlt ⊢
      omega
    rw [hmin]
    exact ⟨e, (findExtent_iff hs).mpr ⟨he, le_refl _, by have := hs.nonempty e he; omega⟩⟩

end Gaps

/-! ## One round -/

/-- The entry of a position: its extent clipped at the end of the file, or
what is left of its gap up to the cap. -/
def entryAt (extents : List FileExtent) (r : ColumnChunkPlanRequest) (pos : Nat) : Nat × Nat :=
  match findExtent extents pos with
  | some e => (e.offset, min e.size (r.fileSize - e.offset))
  | none => (pos, min r.maxGapEntrySize (gapEnd extents r.fileSize pos - pos))

/-- Where the round after that of `pos` starts. -/
def nextPosition (extents : List FileExtent) (r : ColumnChunkPlanRequest) (pos : Nat) : Nat :=
  min r.reqEnd ((entryAt extents r pos).1 + (entryAt extents r pos).2)

theorem planEntry_nextPos {r : ColumnChunkPlanRequest} {pos es sz : Nat} {c : CacheReadChunk}
    (h : planEntry r pos es sz = some c) :
    c.nextPos = min r.reqEnd (u64 (c.alignedStartOffset + c.chunkSize)) := by
  unfold planEntry at h
  split at h
  · cases h
  · simp only at h
    repeat' split at h
    all_goals first | (cases h; done) | (cases h; simp only [CacheReadChunk.nextPos]; omega)

section Rounds

variable {l : Layouts} {path : String} {extents : List FileExtent} {r : ColumnChunkPlanRequest} {pos : Nat}

theorem planRound_entry (hl : l.lookup path = some extents) (hs : Stored extents) (h : PlanRequestOK r)
    (hpos : pos < r.reqEnd) :
    ∃ c, planEntry r pos
        (match l.find path pos with
          | some e => (e.offset, e.size)
          | none => gapEntry r pos (l.nextStart path pos)).1
        (match l.find path pos with
          | some e => (e.offset, e.size)
          | none => gapEntry r pos (l.nextStart path pos)).2 = some c ∧
      c.entry = entryAt extents r pos ∧ c.nextPos = nextPosition extents r pos := by
  have hfind : l.find path pos = findExtent extents pos := by simp [Layouts.find, hl]
  have hnext : l.nextStart path pos = nextStartIn extents pos := by simp [Layouts.nextStart, hl]
  have hend := h.reqEnd_eq; have hfits := h.fits; have hlt := h.size_lt; have hcap := h.cap
  -- the chunk of an entry that contains `pos` and is clipped to the one of the position
  have finish : ∀ es sz, es ≤ pos → pos < es + sz → (es, min sz (r.fileSize - es)) = entryAt extents r pos →
      ∃ c, planEntry r pos es sz = some c ∧ c.entry = entryAt extents r pos ∧
        c.nextPos = nextPosition extents r pos := by
    intro es sz hlow hhigh heq
    obtain ⟨c, hc, hat, h1, h2⟩ := planEntry_ok h hpos hlow hhigh
    have hentry : c.entry = entryAt extents r pos := by rw [← heq, CacheReadChunk.entry, h1, h2]
    have hin := hat.inFile
    refine ⟨c, hc, hentry, ?_⟩
    rw [planEntry_nextPos hc, u64_eq (by omega), nextPosition, ← hentry]
    rfl
  rw [hfind, hnext]
  cases hf : findExtent extents pos with
  | some e =>
    obtain ⟨he, hlo, hhi⟩ := (findExtent_iff hs).mp hf
    exact finish e.offset e.size hlo hhi (by rw [entryAt, hf])
  | none =>
    have hgt := gapEnd_gt hs hf (show pos < r.fileSize by omega)
    obtain ⟨g, hg, hgap, hg64⟩ : ∃ g, (nextStartIn extents pos).getD (max r.reqEnd r.fileSize) = g ∧
        gapEnd extents r.fileSize pos = min g r.fileSize ∧ g < 2 ^ 64 := by
      cases hn : nextStartIn extents pos with
      | none =>
        refine ⟨max r.reqEnd r.fileSize, rfl, ?_, by omega⟩
        rw [gapEnd, hn, Option.getD_none]
        omega
      | some s =>
        obtain ⟨-, ⟨e, he, rfl⟩, -⟩ := nextStartIn_some hs hn
        have hw := hs.noWrap e he
        unfold FileExtent.NoWrap at hw
        refine ⟨e.offset, rfl, ?_, by omega⟩
        rw [gapEnd, hn, Option.getD_some]
    have hsub : u64Sub g pos = g - pos := u64Sub_eq (by omega) hg64
    simp only [gapEntry, hg, hsub, h.gapCap_eq]
    refine finish pos _ (le_refl _) (by omega) ?_
    rw [entryAt, hf, Prod.mk.injEq]
    exact ⟨rfl, by omega⟩

theorem nextPosition_gt (hs : Stored extents) (h : PlanRequestOK r) (hpos : pos < r.reqEnd) :
    pos < nextPosition extents r pos := by
  have hend := h.reqEnd_eq; have hfits := h.fits; have hcap := h.cap
  unfold nextPosition entryAt
  cases hf : findExtent extents pos with
  | some e =>
    obtain ⟨he, hlo, hhi⟩ := (findExtent_iff hs).mp hf
    dsimp only
    omega
  | none =>
    have := gapEnd_gt hs hf (show pos < r.fileSize by omega)
    dsimp only
    omega

end Rounds

/-! ## The positions of a plan -/

def Advances (extents : List FileExtent) (r : ColumnChunkPlanRequest) (pos next : Nat) : Prop :=
  next = nextPosition extents r pos ∧ next < r.reqEnd

def PlannedAt (extents : List FileExtent) (r : ColumnChunkPlanRequest) (pos : Nat) : Prop :=
  r.requestedStartOffset < r.reqEnd ∧ ReflTransGen (Advances extents r) r.requestedStartOffset pos

section Positions

variable {l : Layouts} {path : String} {extents : List FileExtent} {r : ColumnChunkPlanRequest} {pos x : Nat}

theorem planLoop_entries (hl : l.lookup path = some extents) (hs : Stored extents) (h : PlanRequestOK r) :
    ∀ (k pos : Nat) (chunks : List CacheReadChunk), r.reqEnd - pos = k → pos < r.reqEnd →
      ∃ cs, planLoop l path r pos chunks = chunks ++ cs ∧
        ∀ x, (∃ c ∈ cs, c.entry = x) ↔ ∃ p, ReflTransGen (Advances extents r) pos p ∧
          entryAt extents r p = x := by
  intro k
  induction k using Nat.strongRecOn with
  | ind k ih =>
  intro pos chunks hk hpos
  obtain ⟨c, hc, hentry, hnext⟩ := planRound_entry hl hs h hpos
  have hgt := nextPosition_gt hs h hpos
  have hround : planLoop l path r pos chunks = planLoop l path r c.nextPos (chunks ++ [c]) := by
    rw [planLoop]
    simp only [hpos, if_true]
    split
    · next hn => cases hc.symm.trans hn
    · next c' hc' =>
      cases hc.symm.trans hc'
      rfl
  by_cases hlast : c.nextPos < r.reqEnd
  · obtain ⟨cs, hcs, hall⟩ := ih (r.reqEnd - c.nextPos) (by omega) c.nextPos (chunks ++ [c]) rfl hlast
    refine ⟨c :: cs, by rw [hround, hcs, List.append_assoc, List.singleton_append], fun x => ?_⟩
    rw [List.exists_mem_cons_iff, hall x, hentry]
    constructor
    · intro hex
      rcases hex with he | ⟨p, hp, he⟩
      · exact ⟨pos, .refl, he⟩
      · exact ⟨p, .head ⟨hnext, hlast⟩ hp, he⟩
    · intro ⟨p, hp, he⟩
      rcases hp.cases_head with rfl | ⟨next, ⟨hstep, -⟩, hrest⟩
      · exact .inl he
      · exact .inr ⟨p, by rw [hnext, ← hstep]; exact hrest, he⟩
  · refine ⟨[c], by rw [hround, planLoop, if_neg hlast], fun x => ?_⟩
    rw [List.exists_mem_cons_iff, hentry]
    constructor
    · intro hex
      rcases hex with he | ⟨c', hc', -⟩
      · exact ⟨pos, .refl, he⟩
      · cases hc'
    · intro ⟨p, hp, he⟩
      rcases hp.cases_head with rfl | ⟨next, ⟨hstep, hlt⟩, -⟩
      · exact .inl he
      · omega

/-- **The entries of a plan** are those of the positions it plans at. -/
theorem planColumnChunks_entries (hl : l.lookup path = some extents) (hs : Stored extents) (h : InsideFile r)
    (entry : Nat × Nat) :
    (∃ c ∈ planColumnChunks l r path, c.entry = entry) ↔ ∃ p, PlannedAt extents r p ∧
      entryAt extents r p = entry := by
  have hend := h.reqEnd_eq
  unfold planColumnChunks
  by_cases hzero : r.requestedBytesToRead = 0
  · rw [if_pos hzero]
    constructor
    · intro ⟨c, hc, _⟩
      cases hc
    · intro ⟨p, hp, _⟩
      have := hp.1
      omega
  · have hlt : r.requestedStartOffset < r.reqEnd := by omega
    obtain ⟨cs, hcs, hall⟩ := planLoop_entries hl hs (h.ok hlt) _ _ [] rfl hlt
    rw [if_neg hzero, hcs, List.nil_append, hall]
    simp only [PlannedAt, hlt, true_and]

theorem PlannedAt.lt (h : PlannedAt extents r pos) : pos < r.reqEnd := by
  rcases h.2.cases_tail with rfl | ⟨_, -, hstep⟩
  · exact h.1
  · exact hstep.2

theorem plannedAt_covers (hs : Stored extents) (h : PlanRequestOK r) (hlow : r.requestedStartOffset ≤ x)
    (hhigh : x < r.reqEnd) :
    ∃ p, PlannedAt extents r p ∧ p ≤ x ∧ x < nextPosition extents r p := by
  have hlt : r.requestedStartOffset < r.reqEnd := by omega
  have go : ∀ (k p : Nat), r.reqEnd - p = k → PlannedAt extents r p → p ≤ x →
      ∃ q, PlannedAt extents r q ∧ q ≤ x ∧ x < nextPosition extents r q := by
    intro k
    induction k using Nat.strongRecOn with
    | ind k ih =>
    intro p hk hp hpx
    by_cases hin : x < nextPosition extents r p
    · exact ⟨p, hp, hpx, hin⟩
    · have hgt := nextPosition_gt hs h hp.lt
      have hstep : Advances extents r p (nextPosition extents r p) := ⟨rfl, by omega⟩
      exact ih (r.reqEnd - nextPosition extents r p) (by have := hp.lt; omega) _ rfl ⟨hp.1, hp.2.tail hstep⟩
        (by omega)
  exact go _ _ rfl ⟨hlt, .refl⟩ hlow

/-! ## Where a request enters a gap -/

/-- The request's first position in a gap: where it starts, or the end of an extent. -/
def EntersGap (extents : List FileExtent) (r : ColumnChunkPlanRequest) (p : Nat) : Prop :=
  r.requestedStartOffset ≤ p ∧ p < r.reqEnd ∧ findExtent extents p = none ∧
    (p = r.requestedStartOffset ∨ ∃ e ∈ extents, e.offset + e.size = p)

theorem PlannedAt.low (hs : Stored extents) (h : PlanRequestOK r) (hp : PlannedAt extents r pos) :
    r.requestedStartOffset ≤ pos := by
  obtain ⟨hlt, hreach⟩ := hp
  induction hreach with
  | refl => exact le_refl _
  | tail hprev hstep ih =>
    have hgt := nextPosition_gt hs h (show PlannedAt extents r _ from ⟨hlt, hprev⟩).lt
    have hnext := hstep.1
    omega

/-- A position of a gap lies a multiple of the cap after the one where the request entered it. -/
theorem PlannedAt.grid (hs : Stored extents) (h : PlanRequestOK r) (hp : PlannedAt extents r pos)
    (hfree : findExtent extents pos = none) :
    ∃ p, EntersGap extents r p ∧ p ≤ pos ∧ pos < gapEnd extents r.fileSize p ∧
      pos ≡ p [MOD r.maxGapEntrySize] := by
  have hend := h.reqEnd_eq; have hfits := h.fits
  obtain ⟨hlt, hreach⟩ := hp
  induction hreach with
  | refl => exact ⟨_, ⟨le_refl _, hlt, hfree, .inl rfl⟩, le_refl _, gapEnd_gt hs hfree (by omega), rfl⟩
  | @tail prev pos hprev hstep ih =>
    have hpos : PlannedAt extents r pos := ⟨hlt, hprev.tail hstep⟩
    have hlow := hpos.low hs h
    have hposlt := hpos.lt
    have hnext := hstep.1
    unfold nextPosition entryAt at hnext
    cases hf : findExtent extents prev with
    | some e =>
      -- the round before planned an extent, and the gap starts where that ends
      obtain ⟨he, hlo, hhi⟩ := (findExtent_iff hs).mp hf
      rw [hf] at hnext
      dsimp only at hnext
      have hpe : e.offset + e.size = pos := by omega
      exact ⟨pos, ⟨hlow, hposlt, hfree, .inr ⟨e, he, hpe⟩⟩, le_refl _, gapEnd_gt hs hfree (by omega), rfl⟩
    | none =>
      -- the round before planned an entry of the gap, of the cap's size: where it
      -- ends with the gap an extent starts
      rw [hf] at hnext
      dsimp only at hnext
      obtain ⟨p, hp, hle, hin, hmod⟩ := ih hf
      have hsame := gapEnd_eq_of_lt hs hle hin
      have hgap := gapEnd_gt hs hf (show prev < r.fileSize by omega)
      have hne : pos ≠ gapEnd extents r.fileSize prev := by
        intro heq
        obtain ⟨e, he⟩ := covered_at_gapEnd hs (show gapEnd extents r.fileSize prev < r.fileSize by omega)
        rw [← heq, hfree] at he
        cases he
      have hcap : pos = prev + r.maxGapEntrySize := by omega
      refine ⟨p, hp, by omega, by omega, ?_⟩
      rw [hcap]
      exact Nat.add_modEq_right.trans hmod

theorem EntersGap.plannedAt (hs : Stored extents) (h : PlanRequestOK r) {p : Nat} (hp : EntersGap extents r p) :
    PlannedAt extents r p := by
  obtain ⟨hlow, hlt, hfree, rfl | ⟨e, he, rfl⟩⟩ := hp
  · exact ⟨hlt, .refl⟩
  have hend := h.reqEnd_eq; have hfits := h.fits; have hsize := h.size_lt
  have hne := hs.nonempty e he
  by_cases hstart : r.requestedStartOffset = e.offset + e.size
  · rw [← hstart] at hlt ⊢
    exact ⟨hlt, .refl⟩
  -- the round that copies the last byte of the extent plans the extent
  obtain ⟨q, hq, hqle, hqlt⟩ := plannedAt_covers hs h (show _ ≤ e.offset + e.size - 1 by omega) (by omega)
  have hnext : nextPosition extents r q = e.offset + e.size := by
    unfold nextPosition entryAt at hqlt ⊢
    cases hf : findExtent extents q with
    | some e' =>
      obtain ⟨he', hlo', hhi'⟩ := (findExtent_iff hs).mp hf
      rw [hf] at hqlt
      dsimp only at hqlt ⊢
      have hlast : findExtent extents (e.offset + e.size - 1) = some e :=
        (findExtent_iff hs).mpr ⟨he, by omega, by omega⟩
      have hlast' : findExtent extents (e.offset + e.size - 1) = some e' :=
        (findExtent_iff hs).mpr ⟨he', by omega, by omega⟩
      rw [hlast, Option.some.injEq] at hlast'
      subst hlast'
      omega
    | none =>
      rw [hf] at hqlt
      dsimp only at hqlt
      rcases extent_off_gap hs hf r.fileSize he with hoff | hoff
      · omega
      · omega
  exact ⟨hq.1, hq.2.tail ⟨hnext.symm, hlt⟩⟩

theorem EntersGap.plannedAt_add (hs : Stored extents) (h : PlanRequestOK r) {p : Nat}
    (hp : EntersGap extents r p) :
    ∀ k, p + k * r.maxGapEntrySize < gapEnd extents r.fileSize p → p + k * r.maxGapEntrySize < r.reqEnd →
      PlannedAt extents r (p + k * r.maxGapEntrySize)
  | 0, _, _ => by
    rw [Nat.zero_mul, Nat.add_zero]
    exact hp.plannedAt hs h
  | k + 1, hin, hlt => by
    have hcap := h.cap
    rw [Nat.succ_mul] at hin hlt ⊢
    have hprev := hp.plannedAt_add hs h k (by omega) (by omega)
    have hle : p ≤ p + k * r.maxGapEntrySize := Nat.le_add_right _ _
    have hin' : p + k * r.maxGapEntrySize < gapEnd extents r.fileSize p := by omega
    have hfree := free_of_lt_gapEnd hs hp.2.2.1 hle hin'
    have hsame := gapEnd_eq_of_lt hs hle hin'
    refine ⟨hprev.1, hprev.2.tail ⟨?_, by omega⟩⟩
    unfold nextPosition entryAt
    rw [hfree]
    dsimp only
    omega

end Positions

/-! ## Two requests -/

/-- A request that entered a gap at `p` cuts it at `q` too, or ends by the last cut below `q`. -/
def CutsAgree (cap reqEnd p q : Nat) : Prop := q ≡ p [MOD cap] ∨ reqEnd ≤ q - (q - p) % cap

/-- In every gap that both requests enter, the one that enters it first cuts
it where the other enters, or has ended. -/
def GapsAgree (extents : List FileExtent) (r₁ r₂ : ColumnChunkPlanRequest) : Prop :=
  ∀ p₁ p₂, EntersGap extents r₁ p₁ → EntersGap extents r₂ p₂ →
    gapEnd extents r₁.fileSize p₁ = gapEnd extents r₂.fileSize p₂ →
      (p₁ ≤ p₂ → CutsAgree r₁.maxGapEntrySize r₁.reqEnd p₁ p₂) ∧ (p₂ ≤ p₁ → CutsAgree r₂.maxGapEntrySize r₂.reqEnd p₂ p₁)

theorem lastCut_eq {p q cap : Nat} (hpq : p ≤ q) : q - (q - p) % cap = p + (q - p) / cap * cap := by
  have hdiv := Nat.div_add_mod (q - p) cap
  rw [Nat.mul_comm] at hdiv
  omega

theorem add_le_of_modEq {a b cap : Nat} (h : a ≡ b [MOD cap]) (hlt : a < b) : a + cap ≤ b := by
  have hdvd : cap ∣ b - a := (Nat.modEq_iff_dvd' hlt.le).mp h
  have := Nat.le_of_dvd (by omega) hdvd
  omega

theorem CutsAgree.apart {cap reqEnd p q x y : Nat} (h : CutsAgree cap reqEnd p q) (hpq : p ≤ q)
    (hx : x ≡ p [MOD cap]) (hxlt : x < reqEnd) (hy : y ≡ q [MOD cap]) (hqy : q ≤ y) :
    x = y ∨ x + cap ≤ y ∨ y + cap ≤ x := by
  rcases h with hmod | hend
  · have hxy : x ≡ y [MOD cap] := (hx.trans hmod.symm).trans hy.symm
    rcases Nat.lt_trichotomy x y with hlt | heq | hlt
    · exact .inr (.inl (add_le_of_modEq hxy hlt))
    · exact .inl heq
    · exact .inr (.inr (add_le_of_modEq hxy.symm hlt))
  · have hcut : x ≡ q - (q - p) % cap [MOD cap] := by
      rw [lastCut_eq hpq, Nat.ModEq, Nat.add_mul_mod_self_right]
      exact hx
    have := add_le_of_modEq hcut (by omega)
    exact .inr (.inl (by omega))

section Requests

variable {extents : List FileExtent} {r r₁ r₂ : ColumnChunkPlanRequest}

theorem entryAt_extent_gap (hs : Stored extents) {x y : Nat} {e : FileExtent} (hx : findExtent extents x = some e)
    (hy : findExtent extents y = none) (hlt : y < r₂.fileSize) :
    SameOrDisjoint (entryAt extents r₁ x) (entryAt extents r₂ y) := by
  obtain ⟨he, -, -⟩ := (findExtent_iff hs).mp hx
  have hgap := gapEnd_gt hs hy hlt
  unfold entryAt
  rw [hx, hy]
  rcases extent_off_gap hs hy r₂.fileSize he with hoff | hoff
  · exact .inr (.inl (by dsimp only; omega))
  · exact .inr (.inr (by dsimp only; omega))

theorem entryAt_extents (hs : Stored extents) (hfile : r₁.fileSize = r₂.fileSize) {x y : Nat} {e e' : FileExtent}
    (hx : findExtent extents x = some e) (hy : findExtent extents y = some e') :
    SameOrDisjoint (entryAt extents r₁ x) (entryAt extents r₂ y) := by
  obtain ⟨he, -, -⟩ := (findExtent_iff hs).mp hx
  obtain ⟨he', -, -⟩ := (findExtent_iff hs).mp hy
  unfold entryAt
  rw [hx, hy]
  dsimp only
  obtain ⟨i, hi, rfl⟩ := List.getElem_of_mem he
  obtain ⟨j, hj, rfl⟩ := List.getElem_of_mem he'
  rcases Nat.lt_trichotomy i j with hlt | heq | hlt
  · have := hs.getElem_lt hlt hj
    exact .inr (.inl (by dsimp only; omega))
  · subst heq
    rw [hfile]
    exact .inl rfl
  · have := hs.getElem_lt hlt hi
    exact .inr (.inr (by dsimp only; omega))

theorem entryAt_gaps (hs : Stored extents) (h₁ : InsideFile r₁) (h₂ : InsideFile r₂)
    (hfile : r₁.fileSize = r₂.fileSize) (hcap : r₁.maxGapEntrySize = r₂.maxGapEntrySize)
    (hagree : GapsAgree extents r₁ r₂) {x y : Nat} (hx : PlannedAt extents r₁ x)
    (hy : PlannedAt extents r₂ y) (hfx : findExtent extents x = none) (hfy : findExtent extents y = none) :
    SameOrDisjoint (entryAt extents r₁ x) (entryAt extents r₂ y) := by
  obtain ⟨p, hp, hpx, hxin, hxmod⟩ := hx.grid hs (h₁.ok hx.1) hfx
  obtain ⟨q, hq, hqy, hyin, hymod⟩ := hy.grid hs (h₂.ok hy.1) hfy
  have hxgap := gapEnd_eq_of_lt hs hpx hxin
  have hygap := gapEnd_eq_of_lt hs hqy hyin
  unfold entryAt
  rw [hfx, hfy]
  dsimp only
  rw [← hfile] at hyin hygap ⊢
  rw [← hcap] at hymod ⊢
  by_cases hsame : gapEnd extents r₁.fileSize p = gapEnd extents r₁.fileSize q
  · have hapart : x = y ∨ x + r₁.maxGapEntrySize ≤ y ∨ y + r₁.maxGapEntrySize ≤ x := by
      obtain ⟨hpq, hqp⟩ := hagree p q hp hq (by rw [← hfile]; exact hsame)
      rcases Nat.le_total p q with hle | hle
      · exact (hpq hle).apart hle hxmod hx.lt hymod hqy
      · have hcuts := hqp hle
        rw [← hcap] at hcuts
        rcases hcuts.apart hle hymod hy.lt hxmod hpx with heq | hfar | hfar
        · exact .inl heq.symm
        · exact .inr (.inr hfar)
        · exact .inr (.inl hfar)
    rcases hapart with rfl | hlt | hlt
    · exact .inl rfl
    · exact .inr (.inl (by dsimp only; omega))
    · exact .inr (.inr (by dsimp only; omega))
  · -- in two gaps: the later entry starts where the other gap has ended
    rcases Nat.le_total x y with hle | hle
    · have hend : gapEnd extents r₁.fileSize x ≤ y := by
        by_contra hc
        have := gapEnd_eq_of_lt hs hle (Nat.lt_of_not_le hc)
        omega
      exact .inr (.inl (by dsimp only; omega))
    · have hend : gapEnd extents r₁.fileSize y ≤ x := by
        by_contra hc
        have := gapEnd_eq_of_lt hs hle (Nat.lt_of_not_le hc)
        omega
      exact .inr (.inr (by dsimp only; omega))

/-- Where a cut of one request lies strictly between two of the other, the two plan overlapping entries. -/
theorem cutsAgree_of_disjoint (hs : Stored extents) (h₁ : InsideFile r₁) (h₂ : InsideFile r₂)
    (hcap : r₁.maxGapEntrySize = r₂.maxGapEntrySize)
    (hall : ∀ x y, PlannedAt extents r₁ x → PlannedAt extents r₂ y →
      SameOrDisjoint (entryAt extents r₁ x) (entryAt extents r₂ y)) {p q : Nat} (hp : EntersGap extents r₁ p)
    (hq : EntersGap extents r₂ q) (hgap : gapEnd extents r₁.fileSize p = gapEnd extents r₂.fileSize q)
    (hpq : p ≤ q) :
    CutsAgree r₁.maxGapEntrySize r₁.reqEnd p q := by
  by_contra hc
  obtain ⟨hmod, hlt⟩ := not_or.mp hc
  have hcappos := h₁.cap
  have hok₁ := h₁.ok (Nat.lt_of_le_of_lt hp.1 hp.2.1)
  have hok₂ := h₂.ok (Nat.lt_of_le_of_lt hq.1 hq.2.1)
  have hqgap := gapEnd_gt hs hq.2.2.1
      (show q < r₂.fileSize by have := h₂.fits; have := h₂.reqEnd_eq; have := hq.2.1; omega)
  -- `r₁` cuts the gap at the last cut below `q`
  rw [lastCut_eq hpq] at hlt
  have hcut : q - (q - p) % r₁.maxGapEntrySize = p + (q - p) / r₁.maxGapEntrySize * r₁.maxGapEntrySize :=
    lastCut_eq hpq
  have hrest : 0 < (q - p) % r₁.maxGapEntrySize := by
    refine Nat.pos_of_ne_zero fun hzero => hmod ?_
    exact ((Nat.modEq_iff_dvd' hpq).mpr (Nat.dvd_of_mod_eq_zero hzero)).symm
  have hlast := Nat.mod_lt (q - p) hcappos
  have hle := Nat.mod_le (q - p) r₁.maxGapEntrySize
  have hx := hp.plannedAt_add hs hok₁ ((q - p) / r₁.maxGapEntrySize) (by omega) (by omega)
  rw [← hcut] at hx
  have hin : q - (q - p) % r₁.maxGapEntrySize < gapEnd extents r₁.fileSize p := by omega
  have hple : p ≤ q - (q - p) % r₁.maxGapEntrySize := by omega
  have hfx := free_of_lt_gapEnd hs hp.2.2.1 hple hin
  have hgx := gapEnd_eq_of_lt hs hple hin
  have hover := hall _ _ hx (hq.plannedAt hs hok₂)
  unfold entryAt at hover
  rw [hfx, hq.2.2.1] at hover
  rcases hover with heq | hover | hover
  · have := congrArg Prod.fst heq
    dsimp only at this
    omega
  · dsimp only at hover
    omega
  · dsimp only at hover
    omega

end Requests

/-- **One set of bytes, one key.** On a registered layout the entries of two
requests inside the file, with one cap, are equal or disjoint just where the
requests agree on the gaps they both enter. -/
theorem planColumnChunks_disjoint_iff (l : Layouts) (path : String) (extents sorted : List FileExtent)
    (r₁ r₂ : ColumnChunkPlanRequest) (hsort : SortsTo extents sorted) (hw : ∀ e ∈ extents, e.NoWrap)
    (h₁ : InsideFile r₁) (h₂ : InsideFile r₂) (hfile : r₁.fileSize = r₂.fileSize)
    (hcap : r₁.maxGapEntrySize = r₂.maxGapEntrySize) :
    (∀ c₁ ∈ planColumnChunks (l.register path sorted) r₁ path,
      ∀ c₂ ∈ planColumnChunks (l.register path sorted) r₂ path,
      SameOrDisjoint c₁.entry c₂.entry) ↔ GapsAgree (cleanExtents sorted) r₁ r₂ := by
  have hl : (l.register path sorted).lookup path = some (cleanExtents sorted) := by simp [Layouts.register]
  have hs := stored_cleanExtents hsort hw
  have hentries₁ := planColumnChunks_entries hl hs h₁
  have hentries₂ := planColumnChunks_entries hl hs h₂
  constructor
  · intro hall p₁ p₂ hp₁ hp₂ hgap
    have hpositions : ∀ x y, PlannedAt (cleanExtents sorted) r₁ x → PlannedAt (cleanExtents sorted) r₂ y →
        SameOrDisjoint (entryAt (cleanExtents sorted) r₁ x) (entryAt (cleanExtents sorted) r₂ y) := by
      intro x y hx hy
      obtain ⟨c₁, hc₁, he₁⟩ := (hentries₁ _).mpr ⟨x, hx, rfl⟩
      obtain ⟨c₂, hc₂, he₂⟩ := (hentries₂ _).mpr ⟨y, hy, rfl⟩
      rw [← he₁, ← he₂]
      exact hall c₁ hc₁ c₂ hc₂
    exact ⟨cutsAgree_of_disjoint hs h₁ h₂ hcap hpositions hp₁ hp₂ hgap,
      cutsAgree_of_disjoint hs h₂ h₁ hcap.symm (fun y x hy hx => (hpositions x y hx hy).symm) hp₂ hp₁ hgap.symm⟩
  · intro hagree c₁ hc₁ c₂ hc₂
    obtain ⟨x, hx, he₁⟩ := (hentries₁ _).mp ⟨c₁, hc₁, rfl⟩
    obtain ⟨y, hy, he₂⟩ := (hentries₂ _).mp ⟨c₂, hc₂, rfl⟩
    rw [← he₁, ← he₂]
    have hxlt : x < r₁.fileSize := by have := hx.lt; have := h₁.reqEnd_eq; have := h₁.fits; omega
    have hylt : y < r₂.fileSize := by have := hy.lt; have := h₂.reqEnd_eq; have := h₂.fits; omega
    cases hfx : findExtent (cleanExtents sorted) x with
    | some e =>
      cases hfy : findExtent (cleanExtents sorted) y with
      | some e' => exact entryAt_extents hs hfile hfx hfy
      | none => exact entryAt_extent_gap hs hfx hfy hylt
    | none =>
      cases hfy : findExtent (cleanExtents sorted) y with
      | some e => exact (entryAt_extent_gap hs hfy hfx hxlt).symm
      | none => exact entryAt_gaps hs h₁ h₂ hfile hcap hagree hx hy hfx hfy

theorem EntersGap.eq_start {extents : List FileExtent} {r : ColumnChunkPlanRequest} {p : Nat}
    (h : EntersGap extents r p) (hends : ∀ e ∈ extents, r.reqEnd ≤ e.offset + e.size) :
    p = r.requestedStartOffset := by
  obtain ⟨-, hlt, -, hp | ⟨e, he, hp⟩⟩ := h
  · exact hp
  · have := hends e he
    omega

/-- Two requests that enter one gap a cap apart. -/
theorem planColumnChunks_disjoint_cap_apart :
    GapsAgree (cleanExtents [⟨40, 10⟩]) ⟨0, 20, 100, 8⟩ ⟨8, 40, 100, 8⟩ ∧
      ∀ c₁ ∈ planColumnChunks (Layouts.register ∅ "f" [⟨40, 10⟩]) ⟨0, 20, 100, 8⟩ "f",
      ∀ c₂ ∈ planColumnChunks (Layouts.register ∅ "f" [⟨40, 10⟩]) ⟨8, 40, 100, 8⟩ "f",
        SameOrDisjoint c₁.entry c₂.entry := by
  have hagree : GapsAgree (cleanExtents [⟨40, 10⟩]) ⟨0, 20, 100, 8⟩ ⟨8, 40, 100, 8⟩ := by
    intro p₁ p₂ hp₁ hp₂ _
    obtain rfl : p₁ = 0 := hp₁.eq_start (by decide)
    obtain rfl : p₂ = 8 := hp₂.eq_start (by decide)
    exact ⟨fun _ => .inl rfl, fun hle => absurd hle (by decide)⟩
  exact ⟨hagree, (planColumnChunks_disjoint_iff ∅ "f" [⟨40, 10⟩] [⟨40, 10⟩] ⟨0, 20, 100, 8⟩ ⟨8, 40, 100, 8⟩
    ⟨by decide, by decide⟩
    (by simp [FileExtent.NoWrap]) ⟨by decide, by decide, by decide⟩
      ⟨by decide, by decide, by decide⟩ rfl rfl).mpr hagree⟩

/-- A request at 0 and one at 4 of a gap of 40 bytes, cut every 8: the bytes from
4 to 8 are planned under both `(0, 8)` and `(4, 8)`. -/
theorem planColumnChunks_overlap :
    ∃ c₁ ∈ planColumnChunks (Layouts.register ∅ "f" [⟨40, 10⟩]) ⟨0, 8, 100, 8⟩ "f",
      ∃ c₂ ∈ planColumnChunks (Layouts.register ∅ "f" [⟨40, 10⟩]) ⟨4, 8, 100, 8⟩ "f",
        c₁.entry = (0, 8) ∧ c₂.entry = (4, 8) ∧ ¬SameOrDisjoint c₁.entry c₂.entry := by
  decide +kernel

end ReadCacheFs
