/-
`PlanColumnChunks`: cutting a read so that each cache entry is one Parquet
column chunk, and the entries between them stay off every chunk.

A round at `pos` looks up the entry that covers `pos` (a stored extent, or a
gap up to the next one) and `planEntry` makes the chunk, or breaks. An entry
that contains `pos` always makes progress (`planEntry_ok`), so on an
unchanging layout no break is ever taken before the request is covered
(`planLoop_spec`).
-/
import ReadCacheFs.Chunking
import ReadCacheFs.Layout

namespace ReadCacheFs

open Lib

structure ColumnChunkPlanRequest where
  requestedStartOffset : Nat
  requestedBytesToRead : Nat
  fileSize : Nat
  maxGapEntrySize : Nat
  deriving DecidableEq, Repr

namespace ColumnChunkPlanRequest

def reqEnd (r : ColumnChunkPlanRequest) : Nat := u64 (r.requestedStartOffset + r.requestedBytesToRead)

def gapCap (r : ColumnChunkPlanRequest) : Nat :=
  if r.maxGapEntrySize > 0 then r.maxGapEntrySize else r.requestedBytesToRead

end ColumnChunkPlanRequest

/-- The entry for a position no extent covers: up to the next extent, at
most the gap cap. -/
def gapEntry (r : ColumnChunkPlanRequest) (pos : Nat) (next : Option Nat) : Nat × Nat :=
  (pos, min r.gapCap (u64Sub (next.getD (max r.reqEnd r.fileSize)) pos))

/-- The second half of a round: the chunk for the entry, clipped at the end
of the file; `none` for each of the three breaks. -/
def planEntry (r : ColumnChunkPlanRequest) (pos entryStart entrySize : Nat) : Option CacheReadChunk :=
  if 0 < r.fileSize ∧ r.fileSize ≤ entryStart then none
  else
    let entrySize := if 0 < r.fileSize then min entrySize (u64Sub r.fileSize entryStart) else entrySize
    if entrySize = 0 then none
    else
      let entryEnd := u64 (entryStart + entrySize)
      let copyFrom := max pos entryStart
      let copyTo := min r.reqEnd entryEnd
      if copyTo ≤ copyFrom then none
      else some
        { alignedStartOffset := entryStart, chunkSize := entrySize, requestedStartOffset := copyFrom
          bytesToCopy := copyTo - copyFrom, requestedStartAddr := copyFrom - r.requestedStartOffset }

/-- Where the next round starts. -/
def CacheReadChunk.nextPos (c : CacheReadChunk) : Nat := c.requestedStartOffset + c.bytesToCopy

theorem planEntry_progress {r : ColumnChunkPlanRequest} {pos es sz : Nat} {c : CacheReadChunk}
    (h : planEntry r pos es sz = some c) : pos < c.nextPos ∧ c.nextPos ≤ r.reqEnd := by
  unfold planEntry at h
  split at h
  · cases h
  · simp only at h
    repeat' split at h
    all_goals first | (cases h; done) | (cases h; simp only [CacheReadChunk.nextPos]; omega)

def planLoop (l : Layouts) (path : String) (r : ColumnChunkPlanRequest) (pos : Nat)
    (chunks : List CacheReadChunk) :
    List CacheReadChunk :=
  if pos < r.reqEnd then
    let entry := match l.find path pos with
      | some e => (e.offset, e.size)
      | none => gapEntry r pos (l.nextStart path pos)
    match _h : planEntry r pos entry.1 entry.2 with
    | none => chunks
    | some c => planLoop l path r c.nextPos (chunks ++ [c])
  else chunks
termination_by r.reqEnd - pos
decreasing_by
  have := planEntry_progress _h
  omega

def planColumnChunks (l : Layouts) (r : ColumnChunkPlanRequest) (path : String) : List CacheReadChunk :=
  if r.requestedBytesToRead = 0 then [] else planLoop l path r r.requestedStartOffset []

/-- What `ReadAndCache` schedules: the plan, or where it is empty the chunks of the grid. -/
def schedule (r : ColumnChunkPlanRequest) (chunks : List CacheReadChunk) : Except Fault (List CacheReadChunk) :=
  if chunks = [] then
    (fixedGridChunks r.requestedStartOffset r.requestedBytesToRead r.maxGapEntrySize r.fileSize).map (·.chunks)
  else .ok chunks

/-! ## One round -/

/-- What `ReadImpl` guarantees of a plan request: it is not empty and ends
inside the file. -/
structure PlanRequestOK (r : ColumnChunkPlanRequest) : Prop where
  pos : 0 < r.requestedBytesToRead
  fits : r.requestedStartOffset + r.requestedBytesToRead ≤ r.fileSize
  size_lt : r.fileSize < 2 ^ 64
  cap : 0 < r.maxGapEntrySize

theorem PlanRequestOK.reqEnd_eq {r : ColumnChunkPlanRequest} (h : PlanRequestOK r) :
    r.reqEnd = r.requestedStartOffset + r.requestedBytesToRead :=
  u64_eq (by have := h.fits; have := h.size_lt; omega)

theorem PlanRequestOK.gapCap_eq {r : ColumnChunkPlanRequest} (h : PlanRequestOK r) :
    r.gapCap = r.maxGapEntrySize := if_pos h.cap

/-- The chunk of a round at `pos`: it copies from `pos` on, to its place in
the buffer, out of an entry inside the file. -/
structure ChunkAt (r : ColumnChunkPlanRequest) (pos : Nat) (c : CacheReadChunk) : Prop where
  from_pos : c.requestedStartOffset = pos
  addr : c.requestedStartAddr = pos - r.requestedStartOffset
  nonempty : 0 < c.bytesToCopy
  inRequest : c.nextPos ≤ r.reqEnd
  low : c.alignedStartOffset ≤ pos
  high : c.nextPos ≤ c.alignedStartOffset + c.chunkSize
  inFile : c.alignedStartOffset + c.chunkSize ≤ r.fileSize

/-- **Progress.** An entry that contains `pos` makes a chunk. -/
theorem planEntry_ok {r : ColumnChunkPlanRequest} (h : PlanRequestOK r) {pos es sz : Nat} (hpos : pos < r.reqEnd)
    (hlow : es ≤ pos) (hhigh : pos < es + sz) :
    ∃ c, planEntry r pos es sz = some c ∧ ChunkAt r pos c ∧ c.alignedStartOffset = es ∧
      c.chunkSize = min sz (r.fileSize - es) := by
  have hend := h.reqEnd_eq; have hfits := h.fits; have hlt := h.size_lt
  have hsub : u64Sub r.fileSize es = r.fileSize - es := u64Sub_eq (by omega) hlt
  have hclip : u64 (es + min sz (r.fileSize - es)) = es + min sz (r.fileSize - es) := u64_eq (by omega)
  have h0 : 0 < r.fileSize := by omega
  simp only [planEntry, h0, true_and, if_true, hsub, hclip]
  rw [if_neg (by omega), if_neg (by omega), if_neg (by omega)]
  refine ⟨_, rfl, ?_, rfl, rfl⟩
  constructor <;> simp only [CacheReadChunk.nextPos] <;> omega

/-- An entry that ends at `pos` breaks. -/
theorem planEntry_zero {r : ColumnChunkPlanRequest} {pos es : Nat} : planEntry r pos es 0 = none := by
  simp only [planEntry]
  split <;> simp

/-! ## Which entries -/

/-- An entry is a stored extent clipped at the end of the file, or at most
the gap cap long and off every stored extent. -/
def Canonical (extents : List FileExtent) (r : ColumnChunkPlanRequest) (c : CacheReadChunk) : Prop :=
  (∃ e ∈ extents, c.alignedStartOffset = e.offset ∧ c.chunkSize = min e.size (r.fileSize - e.offset)) ∨
    (c.chunkSize ≤ r.maxGapEntrySize ∧ ∀ e ∈ extents,
      e.offset + e.size ≤ c.alignedStartOffset ∨ c.alignedStartOffset + c.chunkSize ≤ e.offset)

/-- One round on a stored layout. -/
theorem planRound_ok {l : Layouts} {path : String} {extents : List FileExtent} (hl : l.lookup path = some extents)
    (hs : Stored extents) {r : ColumnChunkPlanRequest} (h : PlanRequestOK r) {pos : Nat} (hpos : pos < r.reqEnd) :
    ∃ c, planEntry r pos
        (match l.find path pos with
          | some e => (e.offset, e.size)
          | none => gapEntry r pos (l.nextStart path pos)).1
        (match l.find path pos with
          | some e => (e.offset, e.size)
          | none => gapEntry r pos (l.nextStart path pos)).2 = some c ∧
      ChunkAt r pos c ∧ Canonical extents r c := by
  have hfind : l.find path pos = findExtent extents pos := by simp [Layouts.find, hl]
  have hnext : l.nextStart path pos = nextStartIn extents pos := by simp [Layouts.nextStart, hl]
  have hend := h.reqEnd_eq; have hfits := h.fits; have hlt := h.size_lt; have hcap := h.cap
  rw [hfind, hnext]
  cases hf : findExtent extents pos with
  | some e =>
    obtain ⟨he, hlo, hhi⟩ := (findExtent_iff hs).mp hf
    obtain ⟨c, hc, hat, h1, h2⟩ := planEntry_ok h hpos hlo hhi
    exact ⟨c, hc, hat, .inl ⟨e, he, h1, h2⟩⟩
  | none =>
    -- The gap ends at the next stored start, or past the request.
    have before : ∀ e ∈ extents, e.offset ≤ pos → e.offset + e.size ≤ pos := fun e he hle => by
      by_contra hc
      have := (findExtent_iff hs).mpr ⟨he, hle, by omega⟩
      rw [hf] at this; cases this
    obtain ⟨g, hg, hgt, hg64, hoff⟩ : ∃ g, (nextStartIn extents pos).getD (max r.reqEnd r.fileSize) = g ∧
        pos < g ∧ g < 2 ^ 64 ∧ ∀ e ∈ extents, e.offset + e.size ≤ pos ∨ g ≤ e.offset := by
      cases hn : nextStartIn extents pos with
      | some s =>
        obtain ⟨-, ⟨e₀, he₀, rfl⟩, hmin⟩ := nextStartIn_some hs hn
        refine ⟨e₀.offset, rfl, nextStart_gt_of_find_none hs hf hn, ?_, fun e he => ?_⟩
        · have := hs.noWrap e₀ he₀; unfold FileExtent.NoWrap at this; omega
        · by_cases hle : e.offset ≤ pos
          · exact .inl (before e he hle)
          · exact .inr (hmin e he (by omega))
      | none =>
        refine ⟨max r.reqEnd r.fileSize, rfl, by omega, by omega, fun e he => .inl (before e he ?_)⟩
        have := nextStartIn_none hn e he; omega
    have hsub : u64Sub g pos = g - pos := u64Sub_eq (by omega) hg64
    simp only [gapEntry, hg, hsub, h.gapCap_eq]
    have hin : pos < pos + min r.maxGapEntrySize (g - pos) := by omega
    obtain ⟨c, hc, hat, h1, h2⟩ := planEntry_ok h hpos (Nat.le_refl pos) hin
    refine ⟨c, hc, hat, .inr ⟨by omega, fun e he => ?_⟩⟩
    rcases hoff e he with h3 | h3
    · exact .inl (by omega)
    · exact .inr (by omega)

/-! ## The loop -/

theorem planLoop_spec {l : Layouts} {path : String} {extents : List FileExtent}
    (hl : l.lookup path = some extents) (hs : Stored extents) {r : ColumnChunkPlanRequest}
    (h : PlanRequestOK r) :
    ∀ (k pos : Nat) (chunks : List CacheReadChunk), r.reqEnd - pos = k → pos ≤ r.reqEnd →
      ∃ cs, planLoop l path r pos chunks = chunks ++ cs ∧ Tiles pos r.reqEnd (cs.map CacheReadChunk.copyRange) ∧
        ∀ c ∈ cs, ChunkAt r c.requestedStartOffset c ∧ Canonical extents r c := by
  intro k
  induction k using Nat.strongRecOn with
  | ind k ih =>
  intro pos chunks hk hle
  rw [planLoop]
  by_cases hpos : pos < r.reqEnd
  · simp only [hpos, if_true]
    obtain ⟨c, hc, hat, hcan⟩ := planRound_ok hl hs h hpos
    have hprog := planEntry_progress hc
    obtain ⟨cs, hcs, htile, hall⟩ := ih (r.reqEnd - c.nextPos) (by omega) c.nextPos (chunks ++ [c]) rfl hprog.2
    refine ⟨c :: cs, ?_, ?_, ?_⟩
    · split
      · next hn => rw [hc] at hn; cases hn
      · next c' hc' =>
        rw [hc] at hc'; cases hc'
        rw [hcs, List.append_assoc, List.singleton_append]
    · rw [List.map_cons]
      have hcr : c.copyRange = (pos, c.bytesToCopy) := by simp [CacheReadChunk.copyRange, hat.from_pos]
      rw [hcr]
      refine .cons hat.nonempty ?_
      have hnp : c.nextPos = pos + c.bytesToCopy := by simp [CacheReadChunk.nextPos, hat.from_pos]
      rw [← hnp]
      exact htile
    · intro c' hc'
      simp only [List.mem_cons] at hc'
      rcases hc' with rfl | hc'
      · exact ⟨hat.from_pos ▸ hat, hcan⟩
      · exact hall c' hc'
  · refine ⟨[], by simp [hpos], ?_, by simp⟩
    obtain rfl : pos = r.reqEnd := by omega
    exact .nil

theorem planColumnChunks_spec {l : Layouts} {path : String} {extents : List FileExtent}
    (hl : l.lookup path = some extents) (hs : Stored extents) {r : ColumnChunkPlanRequest}
    (h : PlanRequestOK r) :
    Tiles r.requestedStartOffset (r.requestedStartOffset + r.requestedBytesToRead)
        ((planColumnChunks l r path).map CacheReadChunk.copyRange) ∧
      ∀ c ∈ planColumnChunks l r path, ChunkAt r c.requestedStartOffset c ∧ Canonical extents r c := by
  have hle : r.requestedStartOffset ≤ r.reqEnd := by rw [h.reqEnd_eq]; omega
  obtain ⟨cs, hcs, htile, hall⟩ := planLoop_spec hl hs h _ _ [] rfl hle
  have hchunks : planColumnChunks l r path = cs := by
    have hne : r.requestedBytesToRead ≠ 0 := by have := h.pos; omega
    simp only [planColumnChunks, hne, if_false, hcs, List.nil_append]
  rw [hchunks]
  exact ⟨h.reqEnd_eq ▸ htile, hall⟩

/-- **Column-chunk plans are complete and canonical.** On a registered
layout that does not change while the plan is made, the chunks' copy ranges
tile the request, each at its place in the buffer and inside its entry; each
entry lies in the file, and is a stored extent (clipped at the end of the
file) or a gap entry of at most the cap, off every stored extent. -/
theorem planColumnChunks_complete (l : Layouts) (path : String) (extents sorted : List FileExtent)
    (r : ColumnChunkPlanRequest) (hsort : SortsTo extents sorted) (hw : ∀ e ∈ extents, e.NoWrap)
    (h : PlanRequestOK r) :
    let chunks := planColumnChunks (l.register path sorted) r path
    Tiles r.requestedStartOffset (r.requestedStartOffset + r.requestedBytesToRead)
        (chunks.map CacheReadChunk.copyRange) ∧
      ∀ c ∈ chunks, c.requestedStartAddr = c.requestedStartOffset - r.requestedStartOffset ∧
        c.alignedStartOffset ≤ c.requestedStartOffset ∧
        c.requestedStartOffset + c.bytesToCopy ≤ c.alignedStartOffset + c.chunkSize ∧
        c.alignedStartOffset + c.chunkSize ≤ r.fileSize ∧ Canonical (cleanExtents sorted) r c := by
  have hl : (l.register path sorted).lookup path = some (cleanExtents sorted) := by simp [Layouts.register]
  obtain ⟨htile, hall⟩ := planColumnChunks_spec hl (stored_cleanExtents hsort hw) h
  refine ⟨htile, fun c hc => ?_⟩
  obtain ⟨hat, hcan⟩ := hall c hc
  exact ⟨hat.addr, hat.low, hat.high, hat.inFile, hcan⟩

theorem planColumnChunks_complete_two_extents :
    let chunks := planColumnChunks
      (Layouts.register ∅ "f" [⟨4, 10⟩, ⟨8, 2⟩, ⟨20, 0⟩, ⟨30, 90⟩]) ⟨2, 40, 50, 8⟩ "f"
    Tiles 2 42 (chunks.map CacheReadChunk.copyRange) ∧
      ∀ c ∈ chunks, c.requestedStartAddr = c.requestedStartOffset - 2 ∧
        c.alignedStartOffset ≤ c.requestedStartOffset ∧
        c.requestedStartOffset + c.bytesToCopy ≤ c.alignedStartOffset + c.chunkSize ∧
        c.alignedStartOffset + c.chunkSize ≤ 50 ∧
        Canonical (cleanExtents [⟨4, 10⟩, ⟨8, 2⟩, ⟨20, 0⟩, ⟨30, 90⟩]) ⟨2, 40, 50, 8⟩ c :=
  planColumnChunks_complete ∅ "f" [⟨30, 90⟩, ⟨4, 10⟩, ⟨20, 0⟩, ⟨8, 2⟩] _ ⟨2, 40, 50, 8⟩
    ⟨by decide, by decide⟩ (by simp [FileExtent.NoWrap]) ⟨by decide, by decide, by decide, by decide⟩

end ReadCacheFs
