/-
Cutting a read on the fixed block grid: `CalculateChunkAlignment` and the
chunk loop of `ReadAndCache`, which the in-memory and the on-disk reader
have in the same words.

`fixedGridChunks_eq` is what the loop computes: one chunk per block from
the aligned start to the last block, each with the part of the request
that falls in it.
-/
import ReadCacheFs.Basic

namespace ReadCacheFs

open Lib

structure ChunkAlignmentInfo where
  alignedStartOffset : Nat
  alignedLastChunkOffset : Nat
  subrequestCount : Nat
  deriving DecidableEq, Repr

def calculateChunkAlignment (requestedStartOffset requestedBytesToRead blockSize : Nat) : ChunkAlignmentInfo :=
  let alignedStartOffset := requestedStartOffset / blockSize * blockSize
  let alignedLastChunkOffset := u64Sub (u64 (requestedStartOffset + requestedBytesToRead)) 1 / blockSize * blockSize
  { alignedStartOffset, alignedLastChunkOffset
    subrequestCount := u64 (u64Sub alignedLastChunkOffset alignedStartOffset / blockSize + 1) }

/-- The variables of the chunk loop, and the chunks scheduled so far. -/
structure GridState where
  addrToWrite : Nat := 0
  alreadyReadBytes : Nat := 0
  requestedStartOffset : Nat
  totalBytesToCache : Nat := 0
  chunks : List CacheReadChunk := []
  deriving DecidableEq, Repr

def gridStep (info : ChunkAlignmentInfo) (requestedBytesToRead blockSize fileSize io : Nat) (st : GridState) :
    GridState :=
  -- No bytes to read for the last chunk.
  if io = fileSize then st
  else
    let isFirst := io == info.alignedStartOffset
    let isLast := io == info.alignedLastChunkOffset
    let delta := u64Sub st.requestedStartOffset info.alignedStartOffset
    let (chunkSize, bytesToCopy, advance) :=
      if isFirst && isLast then (min blockSize (u64Sub fileSize io), requestedBytesToRead, 0)
      else if isFirst then (blockSize, u64Sub blockSize delta, u64Sub blockSize delta)
      else if isLast then
        (min blockSize (u64Sub fileSize io), u64Sub requestedBytesToRead st.alreadyReadBytes, 0)
      else (blockSize, blockSize, blockSize)
    { addrToWrite := st.addrToWrite + advance
      alreadyReadBytes := u64 (st.alreadyReadBytes + advance)
      requestedStartOffset := u64 (io + blockSize)
      totalBytesToCache := u64 (st.totalBytesToCache + chunkSize)
      chunks := st.chunks ++ [{ requestedStartAddr := st.addrToWrite, alignedStartOffset := io
                                requestedStartOffset := st.requestedStartOffset, chunkSize, bytesToCopy }] }

def gridLoop (info : ChunkAlignmentInfo) (requestedBytesToRead blockSize fileSize : Nat) :
    Nat → Nat → GridState → Except Fault GridState
  | 0, _, _ => .error .diverges
  | fuel + 1, io, st =>
    if io ≤ info.alignedLastChunkOffset then
      gridLoop info requestedBytesToRead blockSize fileSize fuel (u64 (io + blockSize))
        (gridStep info requestedBytesToRead blockSize fileSize io st)
    else .ok st

/-- The chunks of a read on the fixed grid, and the loop's other results. -/
def fixedGridChunks (requestedStartOffset requestedBytesToRead blockSize fileSize : Nat) :
    Except Fault GridState :=
  let info := calculateChunkAlignment requestedStartOffset requestedBytesToRead blockSize
  gridLoop info requestedBytesToRead blockSize fileSize loopBound info.alignedStartOffset
    { requestedStartOffset }

/-! ## What the loop computes -/

/-- A request that fits the file, on a grid that does not wrap. -/
structure GridRequest (start n block fileSize : Nat) : Prop where
  pos : 0 < n
  fits : start + n ≤ fileSize
  block_pos : 0 < block
  noWrap : fileSize + block ≤ 2 ^ 64
  size_lt : fileSize < 2 ^ 64

/-- The chunk of the block at `io`: the part of the request in it. -/
def gridChunk (start n block fileSize io : Nat) : CacheReadChunk :=
  { requestedStartAddr := max start io - start, requestedStartOffset := max start io, alignedStartOffset := io
    chunkSize := min block (fileSize - io), bytesToCopy := min (start + n) (io + block) - max start io }

def gridCount (start n block : Nat) : Nat := (start + n - 1) / block - start / block + 1

/-- The blocks a request touches, by their starts. -/
def gridBlocks (start n block : Nat) : List Nat :=
  List.range' (start / block * block) (gridCount start n block) block

section Loop

variable {start n block fileSize : Nat}

theorem block_bounds (x : Nat) (hb : 0 < block) : x / block * block ≤ x ∧ x < x / block * block + block := by
  have h1 := Nat.div_add_mod x block
  have h2 := Nat.mod_lt x hb
  rw [Nat.mul_comm] at h1
  omega

theorem gridCount_le (h : GridRequest start n block fileSize) : gridCount start n block ≤ start + n := by
  have h1 : (start + n - 1) / block ≤ start + n - 1 := Nat.div_le_self _ _
  have h2 := h.pos
  unfold gridCount
  generalize (start + n - 1) / block = q at *
  generalize start / block = r at *
  omega

theorem GridRequest.alignment (h : GridRequest start n block fileSize) :
    calculateChunkAlignment start n block =
      { alignedStartOffset := start / block * block, alignedLastChunkOffset := (start + n - 1) / block * block
        subrequestCount := gridCount start n block } := by
  have h1 := h.pos; have h2 := h.fits; have h3 := h.size_lt
  have hsub : u64Sub (u64 (start + n)) 1 = start + n - 1 := by
    rw [u64_eq (by omega), u64Sub_eq (by omega) (by omega)]
  have hle : start / block * block ≤ (start + n - 1) / block * block :=
    Nat.mul_le_mul_right _ (Nat.div_le_div_right (by omega))
  have hlast := (block_bounds (start + n - 1) h.block_pos).1
  have hc : u64 ((start + n - 1) / block - start / block + 1) = gridCount start n block :=
    u64_eq (by have := gridCount_le h; unfold gridCount at this; omega)
  simp only [calculateChunkAlignment, hsub]
  rw [u64Sub_eq hle (by omega), ← Nat.sub_mul, Nat.mul_div_cancel _ h.block_pos, hc]

structure OnGrid (block first last io : Nat) : Prop where
  low : io = first ∨ first + block ≤ io
  high : io = last ∨ io + block ≤ last

/-- Where the loop variables stand before the block at `io`: at the
request's start before the first block, at the block's own start after. -/
structure AtBlock (start io : Nat) (st : GridState) : Prop where
  off : st.requestedStartOffset = max start io
  addr : st.addrToWrite = max start io - start
  already : st.alreadyReadBytes = max start io - start

/-- One round: the block's chunk is scheduled, and the variables stand at
the next block unless this was the last one. -/
theorem gridStep_spec (h : GridRequest start n block fileSize) {io : Nat}
    (hio : OnGrid block (start / block * block) ((start + n - 1) / block * block) io)
    {st : GridState} (hst : AtBlock start io st) :
    (gridStep (calculateChunkAlignment start n block) n block fileSize io st).chunks =
        st.chunks ++ [gridChunk start n block fileSize io] ∧
      (io ≠ (start + n - 1) / block * block → AtBlock start (io + block)
        (gridStep (calculateChunkAlignment start n block) n block fileSize io st)) := by
  have hp := h.pos; have hf := h.fits; have hw := h.noWrap; have hs := h.size_lt; have hb := h.block_pos
  obtain ⟨b1, b2⟩ := block_bounds start hb
  obtain ⟨b3, b4⟩ := block_bounds (start + n - 1) hb
  rw [h.alignment]
  generalize start / block * block = first at *
  generalize (start + n - 1) / block * block = last at *
  obtain ⟨hlow, hhigh⟩ := hio
  have hne : ¬ io = fileSize := by omega
  have hsz : u64Sub fileSize io = fileSize - io := by rw [u64Sub_eq (by omega) hs]
  simp only [gridStep, hne, if_false, hst.off, hst.addr, hst.already, hsz]
  -- The cases of the source: only chunk, first, last, middle.
  by_cases hfst : io = first <;> by_cases hlst : io = last
  · have e1 : (io == first) = true := by simpa using hfst
    have e2 : (io == last) = true := by simpa using hlst
    simp only [e1, e2, Bool.and_self, if_true]
    refine ⟨?_, fun hc => absurd hlst hc⟩
    simp only [gridChunk, List.append_cancel_left_eq, List.cons.injEq, and_true, CacheReadChunk.mk.injEq,
      true_and]
    omega
  · have e1 : (io == first) = true := by simpa using hfst
    have e2 : (io == last) = false := by simpa using hlst
    have hd : u64Sub (max start io) first = start - first := by rw [u64Sub_eq (by omega) (by omega)]; omega
    have hbd : u64Sub block (start - first) = block - (start - first) := u64Sub_eq (by omega) (by omega)
    simp only [e1, e2, Bool.and_false, Bool.false_eq_true, if_false, if_true, hd, hbd]
    rw [u64_eq (by omega), u64_eq (by omega)]
    refine ⟨?_, fun _ => by constructor <;> simp only <;> omega⟩
    simp only [gridChunk, List.append_cancel_left_eq, List.cons.injEq, and_true, CacheReadChunk.mk.injEq,
      true_and]
    omega
  · have e1 : (io == first) = false := by simpa using hfst
    have e2 : (io == last) = true := by simpa using hlst
    have hrd : u64Sub n (max start io - start) = n - (max start io - start) := u64Sub_eq (by omega) (by omega)
    simp only [e1, e2, Bool.and_true, Bool.false_eq_true, if_false, if_true, hrd]
    refine ⟨?_, fun hc => absurd hlst hc⟩
    simp only [gridChunk, List.append_cancel_left_eq, List.cons.injEq, and_true, CacheReadChunk.mk.injEq,
      true_and]
    omega
  · have e1 : (io == first) = false := by simpa using hfst
    have e2 : (io == last) = false := by simpa using hlst
    simp only [e1, e2, Bool.and_self, Bool.false_eq_true, if_false]
    rw [u64_eq (by omega), u64_eq (by omega)]
    refine ⟨?_, fun _ => by constructor <;> simp only <;> omega⟩
    simp only [gridChunk, List.append_cancel_left_eq, List.cons.injEq, and_true, CacheReadChunk.mk.injEq,
      true_and]
    omega

theorem onGrid_of_left {first last io m k : Nat} (hf : io = first + k * block) (hl : last = io + m * block) :
    OnGrid block first last io := by
  constructor
  · rcases Nat.eq_zero_or_pos k with hk | hk
    · left; simp [hf, hk]
    · right; have := Nat.mul_le_mul_right block hk; omega
  · rcases Nat.eq_zero_or_pos m with hm | hm
    · left; simp [hl, hm]
    · right; have := Nat.mul_le_mul_right block hm; omega

theorem gridCount_last (h : GridRequest start n block fileSize) :
    (start + n - 1) / block * block + block = start / block * block + gridCount start n block * block := by
  have h1 := h.pos
  have hle : start / block ≤ (start + n - 1) / block := Nat.div_le_div_right (by omega)
  rw [gridCount, ← Nat.add_mul, ← Nat.succ_mul]
  congr 1; omega

/-- The loop from the block at `io` on, with `m` blocks left. -/
theorem gridLoop_spec (h : GridRequest start n block fileSize) :
    ∀ (m k io fuel : Nat) (st : GridState), io = start / block * block + k * block →
      io + m * block = (start + n - 1) / block * block + block → m < fuel → (m ≠ 0 → AtBlock start io st) →
      ∃ st', gridLoop (calculateChunkAlignment start n block) n block fileSize fuel io st = .ok st' ∧
        st'.chunks = st.chunks ++ (List.range' io m block).map (gridChunk start n block fileSize) := by
  have hw := h.noWrap; have hfits := h.fits; have hp := h.pos; have hb := h.block_pos
  obtain ⟨b3, b4⟩ := block_bounds (start + n - 1) hb
  intro m
  induction m with
  | zero =>
    intro k io fuel st _ hl hf _
    obtain ⟨fuel, rfl⟩ : ∃ f, fuel = f + 1 := ⟨fuel - 1, by omega⟩
    refine ⟨st, ?_, by simp⟩
    rw [gridLoop, if_neg (by rw [h.alignment]; simp only; omega)]
  | succ m ih =>
    intro k io fuel st hk hl hf hst
    obtain ⟨fuel, rfl⟩ : ∃ f, fuel = f + 1 := ⟨fuel - 1, by omega⟩
    rw [Nat.succ_mul] at hl
    obtain ⟨hch, hnext⟩ := gridStep_spec h (onGrid_of_left (m := m) hk (by omega)) (hst (by omega))
    have hio : u64 (io + block) = io + block := u64_eq (by omega)
    obtain ⟨st', hloop, hc⟩ := ih (k + 1) (io + block) fuel _ (by rw [Nat.succ_mul]; omega) (by omega) (by omega)
      (fun hm => hnext (by have := Nat.mul_le_mul_right block (Nat.pos_of_ne_zero hm); omega))
    refine ⟨st', ?_, ?_⟩
    · rw [gridLoop, if_pos (by rw [h.alignment]; simp only; omega), hio]
      exact hloop
    · rw [hc, hch, List.range'_succ, List.map_cons, List.append_assoc, List.singleton_append]

/-- **The fixed grid.** The loop ends, with one chunk for each block the
request touches. -/
theorem fixedGridChunks_eq (h : GridRequest start n block fileSize) :
    ∃ st, fixedGridChunks start n block fileSize = .ok st ∧
      st.chunks = (gridBlocks start n block).map (gridChunk start n block fileSize) := by
  have hc : gridCount start n block < loopBound := by
    have := gridCount_le h; have := h.fits; have := h.size_lt
    simp only [loopBound]; omega
  have hat : AtBlock start (start / block * block) { requestedStartOffset := start } := by
    have := (block_bounds start h.block_pos).1
    constructor <;> simp only <;> omega
  obtain ⟨st, hl, hch⟩ := gridLoop_spec h (gridCount start n block) 0 (start / block * block) loopBound _
    (by omega) (gridCount_last h).symm hc (fun _ => hat)
  refine ⟨st, ?_, by simpa [gridBlocks] using hch⟩
  simp only [fixedGridChunks]
  rw [h.alignment] at hl ⊢
  exact hl

theorem gridChunk_tiles (h : GridRequest start n block fileSize) :
    ∀ (m k io : Nat), io = start / block * block + k * block →
      io + m * block = (start + n - 1) / block * block + block → 0 < m →
      Tiles (max start io) (start + n)
        (((List.range' io m block).map (gridChunk start n block fileSize)).map CacheReadChunk.copyRange) := by
  have hp := h.pos; have hb := h.block_pos
  obtain ⟨b1, b2⟩ := block_bounds start hb
  obtain ⟨b3, b4⟩ := block_bounds (start + n - 1) hb
  intro m
  induction m with
  | zero => intro k io _ _ hm; omega
  | succ m ih =>
    intro k io hk hl _
    rw [Nat.succ_mul] at hl
    have hlast : (start + n - 1) / block * block = io + m * block := by omega
    obtain ⟨hlow, hhigh⟩ := onGrid_of_left hk hlast
    rw [List.range'_succ, List.map_cons, List.map_cons]
    generalize hf : start / block * block = first at *
    generalize hla : (start + n - 1) / block * block = last at *
    have hpos : 0 < (gridChunk start n block fileSize io).bytesToCopy := by simp only [gridChunk]; omega
    refine .cons hpos ?_
    rcases Nat.eq_zero_or_pos m with hm | hm
    · have hend : max start io + (gridChunk start n block fileSize io).bytesToCopy = start + n := by
        subst hm; simp only [gridChunk]; omega
      rw [hend, hm]
      exact .nil
    · have hmb := Nat.mul_le_mul_right block hm
      have hend : max start io + (gridChunk start n block fileSize io).bytesToCopy = max start (io + block) := by
        simp only [gridChunk]; omega
      rw [hend]
      exact ih (k + 1) (io + block) (by rw [Nat.succ_mul]; omega) (by omega) hm

/-- **The grid's chunks tile the request.** -/
theorem fixedGrid_tiles (h : GridRequest start n block fileSize) :
    Tiles start (start + n)
      (((gridBlocks start n block).map (gridChunk start n block fileSize)).map CacheReadChunk.copyRange) := by
  have hc : 0 < gridCount start n block := by simp [gridCount]
  have ht := gridChunk_tiles h (gridCount start n block) 0 (start / block * block) (by omega)
    (gridCount_last h).symm hc
  rwa [Nat.max_eq_left (block_bounds start h.block_pos).1] at ht

theorem gridBlocks_mem (h : GridRequest start n block fileSize) {io : Nat} (hio : io ∈ gridBlocks start n block) :
    io + (gridChunk start n block fileSize io).chunkSize ≤ fileSize ∧
      0 < (gridChunk start n block fileSize io).chunkSize ∧
      io ≤ max start io ∧ max start io + (gridChunk start n block fileSize io).bytesToCopy ≤
        io + (gridChunk start n block fileSize io).chunkSize := by
  have hp := h.pos; have hb := h.block_pos; have hf := h.fits
  obtain ⟨b1, b2⟩ := block_bounds start hb
  obtain ⟨b3, b4⟩ := block_bounds (start + n - 1) hb
  have hlast := gridCount_last h
  simp only [gridBlocks, List.mem_range'] at hio
  obtain ⟨i, hi, rfl⟩ := hio
  have hmul := Nat.mul_le_mul_left block (Nat.succ_le_of_lt hi)
  rw [Nat.mul_succ, Nat.mul_comm block (gridCount start n block)] at hmul
  simp only [gridChunk]
  omega

end Loop

end ReadCacheFs
