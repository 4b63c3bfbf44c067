/-
The chunk loop of the fixed grid in exact arithmetic.

The model of the loop takes every sum and difference of `idx_t`s modulo
`2^64`. Here the same loop is written with operations that give up where
one would wrap; on a grid of a power of two it never gives up, so the two
compute the same and nothing has wrapped.
-/
import ReadCacheFs.Readers

namespace ReadCacheFs

open Lib

/-! ## `idx_t` operations that do not wrap -/

def addExact (a b : Nat) : Option Nat := if a + b < 2 ^ 64 then some (a + b) else none

def subExact (a b : Nat) : Option Nat := if b ≤ a then some (a - b) else none

def mulExact (a b : Nat) : Option Nat := if a * b < 2 ^ 64 then some (a * b) else none

theorem addExact_eq {a b : Nat} (h : a + b < 2 ^ 64) : addExact a b = some (u64 (a + b)) := by
  rw [addExact, if_pos h, u64_eq h]

theorem subExact_eq {a b : Nat} (h : b ≤ a) (ha : a < 2 ^ 64) : subExact a b = some (u64Sub a b) := by
  rw [subExact, if_pos h, u64Sub_eq h ha]

theorem mulExact_eq {a b : Nat} (h : a * b < 2 ^ 64) : mulExact a b = some (a * b) := if_pos h

theorem bind_of_eq {α β : Type} {x : Option α} {f : α → Option β} {a : α} {b : β} (hx : x = some a)
    (hf : f a = some b) :
    (x >>= f) = some b := by
  rw [hx]
  exact hf

/-! ## The loop -/

/-- `CalculateChunkAlignment`. -/
def calculateChunkAlignmentExact (requestedStartOffset requestedBytesToRead blockSize : Nat) :
    Option ChunkAlignmentInfo := do
  let alignedStartOffset ← mulExact (requestedStartOffset / blockSize) blockSize
  let requestedEnd ← addExact requestedStartOffset requestedBytesToRead
  let lastByte ← subExact requestedEnd 1
  let alignedLastChunkOffset ← mulExact (lastByte / blockSize) blockSize
  let span ← subExact alignedLastChunkOffset alignedStartOffset
  let subrequestCount ← addExact (span / blockSize) 1
  return { alignedStartOffset, alignedLastChunkOffset, subrequestCount }

/-- The sizes of the chunk of the block at `io`, and how far it moves the
running variables: the four cases of the source. -/
def gridSizesExact (info : ChunkAlignmentInfo) (requestedBytesToRead blockSize fileSize io : Nat)
    (st : GridState) :
    Option (Nat × Nat × Nat) :=
  if io = info.alignedStartOffset ∧ io = info.alignedLastChunkOffset then do
    let rest ← subExact fileSize io
    return (min blockSize rest, requestedBytesToRead, 0)
  else if io = info.alignedStartOffset then do
    let deltaOffset ← subExact st.requestedStartOffset info.alignedStartOffset
    let part ← subExact blockSize deltaOffset
    return (blockSize, part, part)
  else if io = info.alignedLastChunkOffset then do
    let rest ← subExact fileSize io
    let part ← subExact requestedBytesToRead st.alreadyReadBytes
    return (min blockSize rest, part, 0)
  else return (blockSize, blockSize, blockSize)

def gridStepExact (info : ChunkAlignmentInfo) (requestedBytesToRead blockSize fileSize io : Nat)
    (st : GridState) :
    Option GridState :=
  if io = fileSize then some st
  else do
    let (chunkSize, bytesToCopy, advance) ← gridSizesExact info requestedBytesToRead blockSize fileSize io st
    let alreadyReadBytes ← addExact st.alreadyReadBytes advance
    let totalBytesToCache ← addExact st.totalBytesToCache chunkSize
    let requestedStartOffset ← addExact io blockSize
    return { addrToWrite := st.addrToWrite + advance, alreadyReadBytes, requestedStartOffset, totalBytesToCache
             chunks := st.chunks ++ [{ requestedStartAddr := st.addrToWrite, alignedStartOffset := io
                                       requestedStartOffset := st.requestedStartOffset, chunkSize, bytesToCopy }] }

/-- `none` also where the loop has not ended after `fuel` rounds. -/
def gridLoopExact (info : ChunkAlignmentInfo) (requestedBytesToRead blockSize fileSize : Nat) :
    Nat → Nat → GridState → Option GridState
  | 0, _, _ => none
  | fuel + 1, io, st =>
    if io ≤ info.alignedLastChunkOffset then do
      let st ← gridStepExact info requestedBytesToRead blockSize fileSize io st
      let next ← addExact io blockSize
      gridLoopExact info requestedBytesToRead blockSize fileSize fuel next st
    else some st

def fixedGridChunksExact (requestedStartOffset requestedBytesToRead blockSize fileSize : Nat) :
    Option (ChunkAlignmentInfo × GridState) := do
  let info ← calculateChunkAlignmentExact requestedStartOffset requestedBytesToRead blockSize
  let st ← gridLoopExact info requestedBytesToRead blockSize fileSize loopBound info.alignedStartOffset
    { requestedStartOffset }
  return (info, st)

/-! ## Nothing wraps -/

section Loop

variable {start n block fileSize : Nat}

theorem GridRequest.alignmentExact (h : GridRequest start n block fileSize) :
    calculateChunkAlignmentExact start n block = some (calculateChunkAlignment start n block) := by
  have hpos := h.pos
  have hfits := h.fits
  have hsize := h.size_lt
  have hfirst := (block_bounds start h.block_pos).1
  have hlast := (block_bounds (start + n - 1) h.block_pos).1
  have hend : u64 (start + n) = start + n := u64_eq (by omega)
  have hbyte : u64Sub (start + n) 1 = start + n - 1 := u64Sub_eq (by omega) (by omega)
  have hle : start / block * block ≤ (start + n - 1) / block * block :=
    Nat.mul_le_mul_right _ (Nat.div_le_div_right (by omega))
  have hspan : u64Sub ((start + n - 1) / block * block) (start / block * block) / block + 1 < 2 ^ 64 := by
    rw [u64Sub_eq hle (by omega)]
    have := Nat.div_le_self ((start + n - 1) / block * block - start / block * block) block
    omega
  have hfirst' := mulExact_eq (by omega : start / block * block < 2 ^ 64)
  have hend' := addExact_eq (by omega : start + n < 2 ^ 64)
  have hbyte' := subExact_eq (by omega : 1 ≤ start + n) (by omega)
  have hlast' := mulExact_eq (by omega : (start + n - 1) / block * block < 2 ^ 64)
  have hspan' := subExact_eq hle (by omega)
  rw [hend] at hend'
  rw [hbyte] at hbyte'
  have halign : calculateChunkAlignment start n block =
      { alignedStartOffset := start / block * block, alignedLastChunkOffset := (start + n - 1) / block * block
        subrequestCount := u64 (u64Sub ((start + n - 1) / block * block) (start / block * block) / block + 1) } := by
    rw [calculateChunkAlignment, hend, hbyte]
  rw [halign, calculateChunkAlignmentExact]
  exact bind_of_eq hfirst' (bind_of_eq hend' (bind_of_eq hbyte' (bind_of_eq hlast' (bind_of_eq hspan'
    (bind_of_eq (addExact_eq hspan) rfl)))))

/-- What is cached before the block at `io`: every block so far, whole. -/
structure CachedTo (start block io : Nat) (st : GridState) : Prop where
  total : st.totalBytesToCache = io - start / block * block

/-- One round wraps nowhere, and caches the block whole unless it was the last. -/
theorem gridStepExact_spec (h : GridRequest start n block fileSize) {io : Nat}
    (hio : OnGrid block (start / block * block) ((start + n - 1) / block * block) io) {st : GridState}
    (hst : AtBlock start io st) (hcached : CachedTo start block io st) :
    gridStepExact (calculateChunkAlignment start n block) n block fileSize io st =
        some (gridStep (calculateChunkAlignment start n block) n block fileSize io st) ∧
      (io ≠ (start + n - 1) / block * block → CachedTo start block (io + block)
        (gridStep (calculateChunkAlignment start n block) n block fileSize io st)) := by
  have hp := h.pos
  have hf := h.fits
  have hw := h.noWrap
  have hs := h.size_lt
  have hb := h.block_pos
  have htotal := hcached.total
  obtain ⟨b1, b2⟩ := block_bounds start hb
  obtain ⟨b3, b4⟩ := block_bounds (start + n - 1) hb
  rw [h.alignment]
  suffices hgoal : _ ∧ (io ≠ (start + n - 1) / block * block → (gridStep
      { alignedStartOffset := start / block * block, alignedLastChunkOffset := (start + n - 1) / block * block,
        subrequestCount := gridCount start n block } n block fileSize io st).totalBytesToCache =
          io + block - start / block * block) from ⟨hgoal.1, fun hne => ⟨hgoal.2 hne⟩⟩
  generalize start / block * block = first at *
  generalize (start + n - 1) / block * block = last at *
  obtain ⟨hlow, hhigh⟩ := hio
  have hne : ¬ io = fileSize := by omega
  have hrest := subExact_eq (by omega : io ≤ fileSize) hs
  have hnext := addExact_eq (by omega : io + block < 2 ^ 64)
  have hsz : u64Sub fileSize io = fileSize - io := u64Sub_eq (by omega) hs
  simp only [gridStepExact, gridSizesExact, gridStep, hne, if_false, hst.off, hst.addr, hst.already, htotal,
    hrest, hsz,
    hnext]
  by_cases hfst : io = first <;> by_cases hlst : io = last
  · have e1 : (io == first) = true := by simpa using hfst
    have e2 : (io == last) = true := by simpa using hlst
    refine ⟨?_, fun hc => absurd hlst hc⟩
    simp only [e1, e2, Bool.and_self, if_true, if_pos (And.intro hfst hlst), Option.bind_eq_bind,
      Option.bind_some,
      Option.pure_def, addExact_eq (by omega : max start io - start + 0 < 2 ^ 64),
      addExact_eq (by omega : io - first + min block (fileSize - io) < 2 ^ 64)]
  · have e1 : (io == first) = true := by simpa using hfst
    have e2 : (io == last) = false := by simpa using hlst
    have hd : u64Sub (max start io) first = start - first := by rw [u64Sub_eq (by omega) (by omega)]; omega
    have hbd : u64Sub block (start - first) = block - (start - first) := u64Sub_eq (by omega) (by omega)
    have hnot : ¬ (io = first ∧ io = last) := fun hc => hlst hc.2
    have hdelta := subExact_eq (by omega : first ≤ max start io) (by omega)
    have hpart := subExact_eq (by omega : start - first ≤ block) (by omega)
    rw [hd] at hdelta
    rw [hbd] at hpart
    simp only [e1, e2, Bool.and_false, Bool.false_eq_true, if_false, if_true, if_neg hnot, if_pos hfst, hd, hbd,
      hdelta, hpart, Option.bind_eq_bind, Option.bind_some, Option.pure_def,
      addExact_eq (by omega : max start io - start + (block - (start - first)) < 2 ^ 64),
      addExact_eq (by omega : io - first + block < 2 ^ 64)]
    refine ⟨trivial, fun _ => ?_⟩
    rw [u64_eq (by omega)]
    omega
  · have e1 : (io == first) = false := by simpa using hfst
    have e2 : (io == last) = true := by simpa using hlst
    have hnot : ¬ (io = first ∧ io = last) := fun hc => hfst hc.1
    have hpart := subExact_eq (by omega : max start io - start ≤ n) (by omega)
    refine ⟨?_, fun hc => absurd hlst hc⟩
    simp only [e1, e2, Bool.and_true, Bool.false_eq_true, if_false, if_true, if_neg hnot, if_neg hfst,
      if_pos hlst,
      hpart, Option.bind_eq_bind, Option.bind_some, Option.pure_def,
      addExact_eq (by omega : max start io - start + 0 < 2 ^ 64),
      addExact_eq (by omega : io - first + min block (fileSize - io) < 2 ^ 64)]
  · have e1 : (io == first) = false := by simpa using hfst
    have e2 : (io == last) = false := by simpa using hlst
    have hnot : ¬ (io = first ∧ io = last) := fun hc => hfst hc.1
    simp only [e1, e2, Bool.and_self, Bool.false_eq_true, if_false, if_neg hnot, if_neg hfst, if_neg hlst,
      Option.bind_eq_bind, Option.bind_some, Option.pure_def,
      addExact_eq (by omega : max start io - start + block < 2 ^ 64),
      addExact_eq (by omega : io - first + block < 2 ^ 64)]
    refine ⟨trivial, fun _ => ?_⟩
    rw [u64_eq (by omega)]
    omega

/-- The loop from the block at `io` on, with `m` blocks left. -/
theorem gridLoopExact_spec (h : GridRequest start n block fileSize) :
    ∀ (m k io fuel : Nat) (st : GridState), io = start / block * block + k * block →
      io + m * block = (start + n - 1) / block * block + block → m < fuel →
      (m ≠ 0 → AtBlock start io st ∧ CachedTo start block io st) →
      ∃ st', gridLoopExact (calculateChunkAlignment start n block) n block fileSize fuel io st = some st' ∧
        gridLoop (calculateChunkAlignment start n block) n block fileSize fuel io st = .ok st' := by
  have hw := h.noWrap
  have hfits := h.fits
  have hp := h.pos
  have hb := h.block_pos
  obtain ⟨b3, b4⟩ := block_bounds (start + n - 1) hb
  intro m
  induction m with
  | zero =>
    intro k io fuel st _ hl hf _
    obtain ⟨fuel, rfl⟩ : ∃ f, fuel = f + 1 := ⟨fuel - 1, by omega⟩
    have hend : ¬ io ≤ (calculateChunkAlignment start n block).alignedLastChunkOffset := by
      rw [h.alignment]
      dsimp only
      omega
    exact ⟨st, by rw [gridLoopExact, if_neg hend], by rw [gridLoop, if_neg hend]⟩
  | succ m ih =>
    intro k io fuel st hk hl hf hst
    obtain ⟨fuel, rfl⟩ : ∃ f, fuel = f + 1 := ⟨fuel - 1, by omega⟩
    obtain ⟨hat, hcached⟩ := hst (by omega)
    rw [Nat.succ_mul] at hl
    have hlast : (start + n - 1) / block * block = io + m * block := by omega
    have hgrid := onGrid_of_left hk hlast
    obtain ⟨hstep, hcached'⟩ := gridStepExact_spec h hgrid hat hcached
    have hat' := (gridStep_spec h hgrid hat).2
    have hwrap : u64 (io + block) = io + block := u64_eq (by omega)
    have hnext : addExact io block = some (io + block) := by
      rw [addExact_eq (by omega : io + block < 2 ^ 64), hwrap]
    have hmore : m ≠ 0 → io ≠ (start + n - 1) / block * block := by
      intro hm
      have := Nat.mul_le_mul_right block (Nat.pos_of_ne_zero hm)
      omega
    obtain ⟨st', hexact, hloop⟩ :=
      ih (k + 1) (io + block) fuel _ (by rw [Nat.succ_mul]; omega) (by omega) (by omega)
      fun hm => ⟨hat' (hmore hm), hcached' (hmore hm)⟩
    have hin : io ≤ (calculateChunkAlignment start n block).alignedLastChunkOffset := by
      rw [h.alignment]
      dsimp only
      omega
    refine ⟨st', ?_, ?_⟩
    · rw [gridLoopExact, if_pos hin, hstep, hnext]
      exact hexact
    · rw [gridLoop, if_pos hin, hwrap]
      exact hloop

/-- The loop wraps nowhere and ends. -/
theorem fixedGridChunksExact_eq (h : GridRequest start n block fileSize) :
    ∃ st, fixedGridChunksExact start n block fileSize = some (calculateChunkAlignment start n block, st) ∧
      fixedGridChunks start n block fileSize = .ok st := by
  have hc : gridCount start n block < loopBound := by
    have := gridCount_le h
    have := h.fits
    have := h.size_lt
    simp only [loopBound]
    omega
  have hat : AtBlock start (start / block * block) { requestedStartOffset := start } := by
    have := (block_bounds start h.block_pos).1
    constructor <;> simp only <;> omega
  have hfirst : (calculateChunkAlignment start n block).alignedStartOffset = start / block * block := rfl
  obtain ⟨st, hexact, hloop⟩ :=
    gridLoopExact_spec h (gridCount start n block) 0 (start / block * block) loopBound _
    (by omega) (gridCount_last h).symm hc fun _ => ⟨hat, ⟨(Nat.sub_self _).symm⟩⟩
  refine ⟨st, ?_, ?_⟩
  · rw [fixedGridChunksExact, h.alignmentExact, Option.bind_eq_bind, Option.bind_some, hfirst, hexact]
    rfl
  · rw [fixedGridChunks, hfirst]
    exact hloop

theorem GridRequest.of_isPowerOfTwo (hblock : block.isPowerOfTwo) (hwide : block < 2 ^ 64)
    (hsize : fileSize < 2 ^ 63) (hpos : 0 < n) (hfits : start + n ≤ fileSize) :
    GridRequest start n block fileSize := by
  have hhalf : block ≤ 2 ^ 63 := by
    obtain ⟨k, rfl⟩ := hblock
    have hk : k < 64 := (Nat.pow_lt_pow_iff_right (by decide)).mp hwide
    exact Nat.pow_le_pow_right (by decide) (by omega)
  exact ⟨hpos, hfits, Nat.pos_of_isPowerOfTwo hblock, by omega, by omega⟩

/-- `CopyTo` does not throw for a chunk whose copy range is inside its entry. -/
theorem copyBuffer_ok {c : CacheReadChunk} {buffer : PageAlignedDataChunk}
    (hlow : c.alignedStartOffset ≤ c.requestedStartOffset) (hoff : c.requestedStartOffset < 2 ^ 64)
    (hin : c.requestedStartOffset - c.alignedStartOffset + c.bytesToCopy ≤ c.chunkSize)
    (hsize : c.chunkSize < 2 ^ 64) (hlength : buffer.length = c.chunkSize) (hsome : buffer.chunk.isSome) :
    ∃ bs, c.copyBufferToRequestedMemory buffer = .ok (c.requestedStartAddr, bs) := by
  obtain ⟨bs, hbs⟩ := Option.isSome_iff_exists.mp hsome
  have hnot : ¬ c.requestedStartOffset - c.alignedStartOffset + c.bytesToCopy > buffer.length := by omega
  rw [CacheReadChunk.copyBufferToRequestedMemory, u64Sub_eq hlow hoff, PageAlignedDataChunk.copyTo,
    u64_eq (by omega),
    if_neg hnot, hbs]
  exact ⟨_, rfl⟩

end Loop

/-- The chunks of a read are its blocks, each under the key its offset
determines, with the part of the request in it. -/
structure ExactChunks (path : String) (start n block fileSize : Nat) (info : ChunkAlignmentInfo)
    (chunks : List CacheReadChunk) : Prop where
  count : chunks.length = info.subrequestCount
  /-- One chunk for each block from the first to the last. -/
  blocks : chunks.map (·.alignedStartOffset) = List.range' info.alignedStartOffset info.subrequestCount block
  last : info.alignedStartOffset + (info.subrequestCount - 1) * block = info.alignedLastChunkOffset
  aligned : block ∣ info.alignedStartOffset
  key : ∀ c ∈ chunks, c.blockKey path = ⟨path, c.alignedStartOffset, min block (fileSize - c.alignedStartOffset)⟩
  tiles : Tiles start (start + n) (chunks.map CacheReadChunk.copyRange)
  destination : ∀ c ∈ chunks, start ≤ c.requestedStartOffset ∧ c.requestedStartAddr = c.requestedStartOffset - start
  inside : ∀ c ∈ chunks, c.alignedStartOffset ≤ c.requestedStartOffset ∧
    c.requestedStartOffset - c.alignedStartOffset + c.bytesToCopy ≤ c.chunkSize
  copies : ∀ c ∈ chunks, ∀ buffer : PageAlignedDataChunk, buffer.length = c.chunkSize → buffer.chunk.isSome →
    ∃ bs, c.copyBufferToRequestedMemory buffer = .ok (c.requestedStartAddr, bs)

/-- **The fixed grid is exact.** Any power of two, any request inside any
file: the loop ends, nothing in it wraps, and its chunks are the blocks of
the request. -/
theorem fixed_grid_exact (path : String) (start n block fileSize : Nat) (hblock : block.isPowerOfTwo)
    (hwide : block < 2 ^ 64) (hsize : fileSize < 2 ^ 63) (hpos : 0 < n) (hfits : start + n ≤ fileSize) :
    ∃ info st, fixedGridChunksExact start n block fileSize = some (info, st) ∧
      calculateChunkAlignment start n block = info ∧ fixedGridChunks start n block fileSize = .ok st ∧
      ExactChunks path start n block fileSize info st.chunks := by
  have h : GridRequest start n block fileSize := .of_isPowerOfTwo hblock hwide hsize hpos hfits
  obtain ⟨st, hexact, hst⟩ := fixedGridChunksExact_eq h
  obtain ⟨st', hst', hchunks⟩ := fixedGridChunks_eq h
  rw [hst] at hst'
  cases hst'
  refine ⟨_, st, hexact, rfl, hst, ?_⟩
  rw [h.alignment]
  have hmem : ∀ c ∈ st.chunks, ∃ io ∈ gridBlocks start n block, gridChunk start n block fileSize io = c := by
    intro c hc
    rw [hchunks] at hc
    exact List.mem_map.mp hc
  have hinside : ∀ c ∈ st.chunks, c.alignedStartOffset ≤ c.requestedStartOffset ∧
    c.requestedStartOffset < 2 ^ 64 ∧
      c.requestedStartOffset - c.alignedStartOffset + c.bytesToCopy ≤ c.chunkSize ∧ c.chunkSize < 2 ^ 64 := by
    intro c hc
    obtain ⟨io, hio, rfl⟩ := hmem c hc
    obtain ⟨h1, h2, h3, h4⟩ := gridBlocks_mem h hio
    simp only [gridChunk] at h1 h2 h3 h4 ⊢
    omega
  exact {
    count := by rw [hchunks, List.length_map, gridBlocks, List.length_range']
    blocks := by
      rw [hchunks, List.map_map]
      exact List.map_id _
    last := by
      have hlast := gridCount_last h
      have hcount : 0 < gridCount start n block := by simp [gridCount]
      rw [Nat.sub_mul]
      have := Nat.mul_le_mul_right block hcount
      dsimp only
      omega
    aligned := Nat.dvd_mul_left block (start / block)
    key := by
      intro c hc
      obtain ⟨io, _, rfl⟩ := hmem c hc
      rfl
    tiles := by
      rw [hchunks]
      exact fixedGrid_tiles h
    destination := by
      intro c hc
      obtain ⟨io, _, rfl⟩ := hmem c hc
      exact ⟨Nat.le_max_left start io, rfl⟩
    inside := fun c hc => ⟨(hinside c hc).1, (hinside c hc).2.2.1⟩
    copies := by
      intro c hc buffer hlength hsome
      obtain ⟨hlow, hoff, hin, hsz⟩ := hinside c hc
      exact copyBuffer_ok hlow hoff hin hsz hlength hsome }

/-- Ten bytes from 7 on, on a grid of 4: a first, a last and two whole blocks. -/
theorem fixed_grid_exact_four :
    ∃ info st, fixedGridChunksExact 7 10 4 26 = some (info, st) ∧ calculateChunkAlignment 7 10 4 = info ∧
      fixedGridChunks 7 10 4 26 = .ok st ∧ ExactChunks "f" 7 10 4 26 info st.chunks :=
  fixed_grid_exact "f" 7 10 4 26 ⟨2, rfl⟩ (by decide) (by decide) (by decide) (by decide)

end ReadCacheFs
