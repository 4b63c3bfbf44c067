/-
What the remap computes. A run's segments tile it (`RunOK`), so `CopyRange`
finds every offset of the run in one of them and no assertion of it can
fail; a new block lies inside its run on the new grid, and the runs of one
file follow one another, so the new blocks are disjoint.
-/
import ReadCacheFs.Remap

namespace ReadCacheFs

open Lib

/-! ## Copying out of a run -/

theorem skipSegments_tiles {b pos : Nat} (hb : b < 2 ^ 64) (hhi : pos < b) :
    ∀ {segs : List Segment} {a : Nat}, Tiles a b (segs.map Segment.range) → a ≤ pos →
      ∃ seg rest, skipSegments pos segs = seg :: rest ∧ seg.start ≤ pos ∧ pos < seg.start + seg.byteLen ∧
        Tiles seg.start b ((seg :: rest).map Segment.range) ∧ seg :: rest ⊆ segs
  | [], a, h, hlo => by cases h; omega
  | seg :: segs, a, h, hlo => by
    rw [List.map_cons, Segment.range] at h
    cases h with
    | cons hn h' =>
      have hle := h'.le
      rw [skipSegments, u64_eq (by omega)]
      split
      next hs =>
        obtain ⟨seg', rest, he, h1, h2, h3, h4⟩ := skipSegments_tiles hb hhi h' hs
        exact ⟨seg', rest, he, h1, h2, h3, fun x hx => by simp [h4 hx]⟩
      next hs => exact ⟨seg, segs, rfl, hlo, by omega, .cons hn h', fun x hx => hx⟩

/-- The segment around `p` and its byte there. -/
def SegmentByte (segs : List Segment) (p : Nat) (x : UInt8) : Prop :=
  ∃ seg ∈ segs, seg.start ≤ p ∧ p < seg.start + seg.byteLen ∧ seg.entry.data.bytes[p - seg.start]? = some x

theorem SegmentByte.mono {segs segs' : List Segment} {p : Nat} {x : UInt8} (h : SegmentByte segs p x)
    (hs : segs ⊆ segs') : SegmentByte segs' p x := by
  obtain ⟨seg, hm, hb⟩ := h
  exact ⟨seg, hs hm, hb⟩

/-- A segment's entry is what the file index accepted. -/
def SegmentFilled (seg : Segment) : Prop :=
  seg.entry.data.empty = false ∧ seg.entry.data.Filled ∧ seg.entry.data.length = seg.byteLen

theorem slice_segmentByte {seg : Segment} {bs : Bytes} {inner chunk i : Nat} (hf : SegmentFilled seg)
    (hbs : seg.entry.data.chunk = some bs) (hc : inner + chunk ≤ seg.byteLen) (hi : i < chunk) :
    ∃ x, (slice bs inner chunk)[i]? = some x ∧ seg.entry.data.bytes[inner + i]? = some x := by
  obtain ⟨he, hfill, hlen⟩ := hf
  have hb : seg.entry.data.bytes = bs.take seg.byteLen := by
    rw [PageAlignedDataChunk.bytes, hbs, hlen]; rfl
  have hl : inner + i < bs.length := by
    have h := hfill
    rw [PageAlignedDataChunk.Filled, hb, List.length_take, hlen] at h
    omega
  refine ⟨bs.get ⟨inner + i, hl⟩, ?_, ?_⟩
  · rw [getElem?_slice, if_pos hi]; exact List.getElem?_eq_getElem hl
  · rw [hb, List.getElem?_take_of_lt (by omega)]; exact List.getElem?_eq_getElem hl

/-- `CopyRange` over segments that tile a range: it copies, for every offset,
the byte of the segment around it. -/
theorem copyRange_spec {b gs len : Nat} (hb : b < 2 ^ 64) (hhi : gs + len ≤ b) :
    ∀ (n : Nat) {segs : List Segment} {a done : Nat}, len - done = n → done ≤ len →
      Tiles a b (segs.map Segment.range) → (∀ seg ∈ segs, SegmentFilled seg) → a ≤ gs + done →
      ∃ bs, copyRange segs gs len done = .ok bs ∧ bs.length = len - done ∧
        ∀ i < len - done, ∃ x, bs[i]? = some x ∧ SegmentByte segs (gs + done + i) x := by
  intro n
  induction n using Nat.strong_induction_on with
  | _ n ih =>
    intro segs a done hn hle ht hf hlo
    rw [copyRange]
    by_cases hd : done < len
    · obtain ⟨seg, rest, hskip, h1, h2, h3, h4⟩ := skipSegments_tiles hb (show gs + done < b by omega) ht hlo
      have hseg : SegmentFilled seg := hf seg (h4 (by simp))
      obtain ⟨bs, hbs, hbl⟩ := hseg.2.1.chunk_eq hseg.1
      have hend : seg.start + seg.byteLen ≤ b := (h3.mem (List.mem_map.mpr ⟨seg, by simp, rfl⟩)).2.1
      have hu : u64 (seg.start + seg.byteLen) = seg.start + seg.byteLen := u64_eq (by omega)
      have hp : u64 (gs + done) = gs + done := u64_eq (by omega)
      simp only [hd, dif_pos, hp, hskip, hu, h1, h2, and_self, hbs]
      generalize hc : min (seg.byteLen - (gs + done - seg.start)) (len - done) = chunk
      obtain ⟨tail, hok, hlen, htail⟩ := ih (len - (done + chunk)) (by omega)
        rfl (by omega) h3 (fun s hs => hf s (h4 hs)) (by omega)
      refine ⟨slice bs (gs + done - seg.start) chunk ++ tail, by rw [hok]; rfl, ?_, fun i hi => ?_⟩
      · have hbl' := hseg.2.2
        rw [List.length_append, length_slice_of_le (by omega), hlen]
        omega
      · have hbl' := hseg.2.2
        have hsl : (slice bs (gs + done - seg.start) chunk).length = chunk := length_slice_of_le (by omega)
        by_cases hic : i < chunk
        · obtain ⟨x, hx1, hx2⟩ :=
            slice_segmentByte hseg hbs (show gs + done - seg.start + chunk ≤ seg.byteLen by omega) hic
          refine ⟨x, by rw [List.getElem?_append_left (by omega), hx1], seg, h4 (by simp), by omega, by omega, ?_⟩
          rw [← hx2]; congr 1; omega
        · obtain ⟨x, hx1, hx2⟩ := htail (i - chunk) (by omega)
          refine ⟨x, by rw [List.getElem?_append_right (by omega), hsl, hx1], ?_⟩
          have he : gs + (done + chunk) + (i - chunk) = gs + done + i := by omega
          rw [he] at hx2
          exact hx2.mono h4
    · simp only [hd, dif_neg, not_false_eq_true]
      exact ⟨[], rfl, by simp; omega, fun i hi => by omega⟩

/-! ## Cutting a run -/

theorem alignUpToBlock_spec {x n : Nat} (hn : 0 < n) (h : x + n < 2 ^ 64) :
    x ≤ alignUpToBlock x n ∧ alignUpToBlock x n < x + n ∧ n ∣ alignUpToBlock x n := by
  have hb := block_bounds x hn
  have hd : n ∣ x / n * n := Nat.dvd_mul_left n _
  unfold alignUpToBlock
  generalize x / n * n = y at *
  dsimp only
  split
  · rw [u64_eq (by omega)]
    exact ⟨by omega, by omega, Nat.dvd_add hd (Nat.dvd_refl n)⟩
  · exact ⟨by omega, by omega, hd⟩

/-- An entry of `f` with tag `tag` among the taken ones has the byte `x` at offset `p`. -/
def TakenByte (taken : TakenEntries) (f tag : String) (p : Nat) (x : UInt8) : Prop :=
  ∃ key e, (key, some e) ∈ taken ∧ key.fname = f ∧ e.versionTag = tag ∧
    key.startOff ≤ p ∧ p < key.startOff + key.blkSize ∧ e.data.bytes[p - key.startOff]? = some x

/-- What the remap promises of each entry it returns. -/
structure NewBlock (page : Nat) (taken : TakenEntries) (nbs : Nat) (kv : InMemCacheBlock × InMemCacheDataEntry) :
    Prop where
  dvd : nbs ∣ kv.1.startOff
  pos : 0 < kv.1.blkSize
  le : kv.1.blkSize ≤ nbs
  data : ∃ bs : Bytes, bs.length = kv.1.blkSize ∧ kv.2.data = filledChunk page kv.1.blkSize bs
  bytes : ∀ p, kv.1.startOff ≤ p → p < kv.1.startOff + kv.1.blkSize →
    ∃ x, kv.2.data.bytes[p - kv.1.startOff]? = some x ∧ TakenByte taken kv.1.fname kv.2.versionTag p x

/-- An entry as the remap may be given it, `slack` before the end of `idx_t`. -/
structure TakenOK (slack : Nat) (key : InMemCacheBlock) (e : InMemCacheDataEntry) : Prop where
  nonempty : e.data.empty = false
  filled : e.data.Filled
  length : e.data.length = key.blkSize
  noWrap : key.startOff + key.blkSize + slack < 2 ^ 64

/-- Every entry is there and as the remap may be given it. -/
def TakenAllOK (slack : Nat) (taken : TakenEntries) : Prop :=
  ∀ kv ∈ taken, ∃ e, kv.2 = some e ∧ TakenOK slack kv.1 e

/-- How much of it the new grid needs: a block past the end of a run, and
another one where the file's size is known. -/
structure Room (nbs slack : Nat) (fileSize : Option Nat) : Prop where
  one : nbs ≤ slack
  two : fileSize.isSome → 2 * nbs ≤ slack

/-- A run's segments are taken entries with the run's tag, and tile it. -/
structure RunOK (taken : TakenEntries) (slack : Nat) (f : String) (run : Run) : Prop where
  tiles : Tiles run.runStart run.runEnd (run.runSegments.map Segment.range)
  source : ∀ seg ∈ run.runSegments,
    (⟨f, seg.start, seg.byteLen⟩, some seg.entry) ∈ taken ∧ seg.entry.versionTag = run.runTag
  noWrap : run.runEnd + slack < 2 ^ 64
  nonempty : run.runStart < run.runEnd

def blockRange (kv : InMemCacheBlock × InMemCacheDataEntry) : Nat × Nat := (kv.1.startOff, kv.1.blkSize)

section Emit

variable (page : Nat) {nbs slack : Nat} {taken : TakenEntries} {f : String} {run : Run}

theorem RunOK.filled (h : RunOK taken slack f run) (ht : TakenAllOK slack taken) :
    ∀ seg ∈ run.runSegments, SegmentFilled seg := by
  intro seg hs
  obtain ⟨e, he, hok⟩ := ht _ (h.source seg hs).1
  cases he
  exact ⟨hok.nonempty, hok.filled, hok.length⟩

theorem emitBlock_spec (h : RunOK taken slack f run) (ht : TakenAllOK slack taken) {b len : Nat}
    (hlo : run.runStart ≤ b) (hhi : b + len ≤ run.runEnd) (hd : nbs ∣ b) (hpos : 0 < len) (hle : len ≤ nbs) :
    ∃ e, emitBlock page f run b len = .ok (⟨f, b, len⟩, e) ∧ NewBlock page taken nbs (⟨f, b, len⟩, e) := by
  have hw := h.noWrap
  obtain ⟨bs, hok, hlen, hbytes⟩ := copyRange_spec (show run.runEnd < 2 ^ 64 by omega) hhi len rfl (Nat.zero_le _)
    h.tiles (h.filled ht) hlo
  rw [Nat.sub_zero] at hlen hbytes
  refine ⟨_, by rw [emitBlock, hok]; rfl, hd, hpos, hle, ⟨bs, hlen, rfl⟩, fun p hp1 hp2 => ?_⟩
  dsimp only at hp1 hp2 ⊢
  obtain ⟨x, hx, seg, hs, h1, h2, h3⟩ := hbytes (p - b) (by omega)
  have hpb : b + 0 + (p - b) = p := by omega
  rw [hpb] at h1 h2 h3
  refine ⟨x, by rw [filledChunk_bytes hlen, hx], _, seg.entry, (h.source seg hs).1, rfl, (h.source seg hs).2,
    h1, h2, h3⟩

theorem emitWholeBlocks_spec (h : RunOK taken slack f run) (ht : TakenAllOK slack taken) (hn : 0 < nbs)
    (hroom : 2 * nbs ≤ slack) :
    ∀ (fuel b : Nat), run.runEnd - b < fuel → nbs ∣ b → run.runStart ≤ b → b ≤ run.runEnd + nbs →
      ∃ out, emitWholeBlocks page f run nbs fuel b = .ok out ∧
        (∀ kv ∈ out, kv.1.fname = f ∧ NewBlock page taken nbs kv) ∧
        Ascending b run.runEnd (out.map blockRange)
  | 0, b, hf, _, _, _ => by omega
  | fuel + 1, b, hf, hd, hlo, hb => by
    have hw := h.noWrap
    rw [emitWholeBlocks, u64_eq (by omega)]
    split
    next hle =>
      obtain ⟨e, hok, hnew⟩ := emitBlock_spec page h ht hlo hle hd hn (Nat.le_refl _)
      obtain ⟨out, hrest, hall, hasc⟩ := emitWholeBlocks_spec h ht hn hroom fuel (b + nbs) (by omega)
        (Nat.dvd_add hd (Nat.dvd_refl nbs)) (by omega) (by omega)
      refine ⟨(⟨f, b, nbs⟩, e) :: out, by rw [hok, hrest]; rfl, ?_, Nat.le_refl _, hle, hasc⟩
      intro kv hkv
      rcases List.mem_cons.mp hkv with rfl | hkv
      · exact ⟨rfl, hnew⟩
      · exact hall kv hkv
    next => exact ⟨[], rfl, by simp, trivial⟩

theorem emitPieces_spec (h : RunOK taken slack f run) (ht : TakenAllOK slack taken) (hn : 0 < nbs)
    (hroom : nbs ≤ slack) {emitEnd : Nat} (he : emitEnd ≤ run.runEnd) :
    ∀ (fuel b : Nat), emitEnd - b < fuel → nbs ∣ b → run.runStart ≤ b →
      ∃ out, emitPieces page f run nbs emitEnd fuel b = .ok out ∧
        (∀ kv ∈ out, kv.1.fname = f ∧ NewBlock page taken nbs kv) ∧ Ascending b emitEnd (out.map blockRange)
  | 0, b, hf, _, _ => by omega
  | fuel + 1, b, hf, hd, hlo => by
    have hw := h.noWrap
    rw [emitPieces]
    split
    next hlt =>
      generalize hp : min nbs (emitEnd - b) = len
      obtain ⟨e, hok, hnew⟩ := emitBlock_spec page h ht hlo (show b + len ≤ run.runEnd by omega) hd
        (by omega) (by omega)
      obtain ⟨h1, h2, h3⟩ := alignUpToBlock_spec (x := b + len) hn (by omega)
      obtain ⟨out, hrest, hall, hasc⟩ := emitPieces_spec h ht hn hroom he fuel _ (by omega) h3 (by omega)
      refine ⟨(⟨f, b, len⟩, e) :: out, by dsimp only; rw [u64_eq (by omega), hok, hrest]; rfl, ?_, Nat.le_refl _,
        show b + len ≤ emitEnd by omega, hasc.widen h1 (Nat.le_refl _)⟩
      intro kv hkv
      rcases List.mem_cons.mp hkv with rfl | hkv
      · exact ⟨rfl, hnew⟩
      · exact hall kv hkv
    next => exact ⟨[], rfl, by simp, trivial⟩

/-- The new blocks of a run lie in it, in order. -/
theorem emitRunOnNewGrid_spec (h : RunOK taken slack f run) (ht : TakenAllOK slack taken) (hn : 0 < nbs)
    {fileSize : Option Nat} (hroom : Room nbs slack fileSize) :
    ∃ out, emitRunOnNewGrid page f run nbs fileSize = .ok out ∧
      (∀ kv ∈ out, kv.1.fname = f ∧ NewBlock page taken nbs kv) ∧
      Ascending run.runStart run.runEnd (out.map blockRange) := by
  have hw := h.noWrap
  have hne := h.nonempty
  have hlb : loopBound = 2 ^ 64 := rfl
  have hone := hroom.one
  obtain ⟨h1, h2, h3⟩ := alignUpToBlock_spec (x := run.runStart) hn (by omega)
  have hemit : run.emitEnd fileSize ≤ run.runEnd := by
    cases fileSize with
    | none => exact Nat.le_refl _
    | some n => exact Nat.min_le_left _ _
  unfold emitRunOnNewGrid
  dsimp only
  split
  · exact ⟨[], rfl, by simp, trivial⟩
  split
  next hknown =>
    have htwo : 2 * nbs ≤ slack := hroom.two (by cases fileSize <;> simp at hknown ⊢)
    obtain ⟨out, hok, hall, hasc⟩ :=
      emitWholeBlocks_spec page h ht hn htwo loopBound _ (by omega) h3 h1 (by omega)
    exact ⟨out, hok, hall, hasc.widen h1 (Nat.le_refl _)⟩
  next =>
    obtain ⟨out, hok, hall, hasc⟩ := emitPieces_spec page h ht hn hone hemit loopBound _ (by omega) h3 h1
    exact ⟨out, hok, hall, hasc.widen h1 hemit⟩

end Emit

/-! ## Walking the slices of one file -/

section Walk

variable (page : Nat) {nbs slack : Nat} {taken : TakenEntries} {f : String}

def SliceOK (taken : TakenEntries) (f : String) (s : Nat) (sl : CachedSlice) : Prop :=
  (⟨f, s, sl.byteLen⟩, sl.entry) ∈ taken

theorem beginRun_ok (ht : TakenAllOK slack taken) {s len : Nat} {e : InMemCacheDataEntry} (hlen : len ≠ 0)
    (h : (⟨f, s, len⟩, some e) ∈ taken) : RunOK taken slack f (beginRun s len e) := by
  obtain ⟨e', he, hok⟩ := ht _ h
  have hw := hok.noWrap
  dsimp only at hw
  have hu : u64 (s + len) = s + len := u64_eq (by omega)
  have hpos : 0 < len := Nat.pos_of_ne_zero hlen
  refine ⟨?_, ?_, ?_, ?_⟩ <;> simp only [beginRun, hu]
  · exact .cons hpos .nil
  · intro seg hs
    cases List.mem_singleton.mp hs
    exact ⟨h, rfl⟩
  · omega
  · omega

theorem RunOK.extend (ht : TakenAllOK slack taken) {r : Run} (hr : RunOK taken slack f r) {len : Nat}
    {e : InMemCacheDataEntry} (hlen : len ≠ 0) (h : (⟨f, r.runEnd, len⟩, some e) ∈ taken)
    (htag : e.versionTag = r.runTag) :
    RunOK taken slack f { r with runEnd := u64 (r.runEnd + len)
                                 runSegments := r.runSegments ++ [⟨r.runEnd, len, e⟩] } := by
  obtain ⟨e', he, hok⟩ := ht _ h
  have hw := hok.noWrap
  have hne := hr.nonempty
  dsimp only at hw
  have hu : u64 (r.runEnd + len) = r.runEnd + len := u64_eq (by omega)
  refine ⟨?_, ?_, ?_, ?_⟩ <;> simp only [hu]
  · rw [List.map_append]
    exact hr.tiles.snoc (by omega)
  · intro seg hs
    rcases List.mem_append.mp hs with hs | hs
    · exact hr.source seg hs
    · cases List.mem_singleton.mp hs
      exact ⟨h, htag⟩
  · omega
  · omega

/-- The walk from a run on: the new blocks start where the run does. -/
theorem remapSlices_spec (ht : TakenAllOK slack taken) (hn : 0 < nbs) {fileSize : Option Nat}
    (hroom : Room nbs slack fileSize) :
    ∀ (slices : List (Nat × CachedSlice)) (r : Run), (∀ p ∈ slices, SliceOK taken f p.1 p.2) →
      RunOK taken slack f r →
      ∃ out, remapSlices page f nbs fileSize slices (some r) = .ok out ∧
        (∀ kv ∈ out, kv.1.fname = f ∧ NewBlock page taken nbs kv) ∧
        Ascending r.runStart (2 ^ 64) (out.map blockRange)
  | [], r, _, hr => by
    obtain ⟨out, hok, hall, hasc⟩ := emitRunOnNewGrid_spec page hr ht hn hroom
    have hw := hr.noWrap
    exact ⟨out, hok, hall, hasc.widen (Nat.le_refl _) (by omega)⟩
  | (s, sl) :: rest, r, hs, hr => by
    have hsl : SliceOK taken f s sl := hs (s, sl) (by simp)
    have hrest : ∀ p ∈ rest, SliceOK taken f p.1 p.2 := fun p hp => hs p (by simp [hp])
    have hskip := remapSlices_spec ht hn hroom rest r hrest hr
    rw [remapSlices]
    cases he : sl.entry with
    | none => exact hskip
    | some e =>
      rw [SliceOK, he] at hsl
      dsimp only
      split
      · exact hskip
      next hlen =>
        split
        · exact hskip
        split
        next hcont =>
          obtain ⟨rfl, htag⟩ := hcont
          exact remapSlices_spec ht hn hroom rest _ hrest (hr.extend ht hlen hsl htag)
        next hge _ =>
          -- The run ends here and the next one starts at or after its end.
          obtain ⟨out, hok, hall, hasc⟩ := emitRunOnNewGrid_spec page hr ht hn hroom
          have hr' := beginRun_ok ht hlen hsl
          obtain ⟨more, hmore, hall', hasc'⟩ := remapSlices_spec ht hn hroom rest _ hrest hr'
          have hne := hr.nonempty
          have hw := hr'.noWrap
          have hne' := hr'.nonempty
          have hst : (beginRun s sl.byteLen e).runStart = s := rfl
          refine ⟨out ++ more, by rw [flushRun, hok, hmore]; rfl, ?_, ?_⟩
          · intro kv hkv
            rcases List.mem_append.mp hkv with hkv | hkv
            · exact hall kv hkv
            · exact hall' kv hkv
          · rw [List.map_append]
            exact hasc'.append (by omega) (by omega) (by omega) hasc

theorem remapSlices_none_spec (ht : TakenAllOK slack taken) (hn : 0 < nbs) {fileSize : Option Nat}
    (hroom : Room nbs slack fileSize) :
    ∀ (slices : List (Nat × CachedSlice)), (∀ p ∈ slices, SliceOK taken f p.1 p.2) →
      ∃ out, remapSlices page f nbs fileSize slices none = .ok out ∧
        (∀ kv ∈ out, kv.1.fname = f ∧ NewBlock page taken nbs kv) ∧ Ascending 0 (2 ^ 64) (out.map blockRange)
  | [], _ => ⟨[], rfl, by simp, trivial⟩
  | (s, sl) :: rest, hs => by
    have hsl : SliceOK taken f s sl := hs (s, sl) (by simp)
    have hrest : ∀ p ∈ rest, SliceOK taken f p.1 p.2 := fun p hp => hs p (by simp [hp])
    have hskip := remapSlices_none_spec ht hn hroom rest hrest
    rw [remapSlices]
    cases he : sl.entry with
    | none => exact hskip
    | some e =>
      rw [SliceOK, he] at hsl
      dsimp only
      split
      · exact hskip
      next hlen =>
        obtain ⟨out, hok, hall, hasc⟩ := remapSlices_spec page ht hn hroom rest _ hrest (beginRun_ok ht hlen hsl)
        exact ⟨out, hok, hall, hasc.widen (Nat.zero_le _) (Nat.le_refl _)⟩

end Walk

/-! ## The index, and all files -/

def FileIndex.OK (taken : TakenEntries) (byFile : FileIndex) : Prop :=
  ∀ f m, byFile.lookup f = some m → ∀ s (sl : CachedSlice), m[s]? = some sl → SliceOK taken f s sl

theorem FileIndex.OK.emplace {taken : TakenEntries} {byFile : FileIndex} (h : byFile.OK taken)
    {key : InMemCacheBlock} {e : InMemCacheDataEntry} (hk : (key, some e) ∈ taken) :
    (byFile.emplace key ⟨key.blkSize, some e⟩).OK taken := by
  intro f m hm s sl hsl
  unfold FileIndex.emplace at hm
  by_cases hf : f = key.fname
  · subst hf
    rw [AList.lookup_insert] at hm
    cases hm
    rw [Std.TreeMap.getElem?_insertIfNew] at hsl
    split at hsl
    next hc =>
      cases hsl
      rw [← Std.compare_eq_iff_eq.mp hc.1]
      exact hk
    next =>
      cases hl : byFile.lookup key.fname with
      | none => rw [hl] at hsl; simp at hsl
      | some m' => rw [hl] at hsl; exact h _ m' hl s sl hsl
  · rw [AList.lookup_insert_ne hf] at hm
    exact h f m hm s sl hsl

theorem buildFileIndex_spec {slack : Nat} {taken : TakenEntries} (ht : TakenAllOK slack taken) :
    ∃ byFile, buildFileIndex taken = .ok byFile ∧ byFile.OK taken := by
  -- The loop keeps the index sound for the entries taken so far, all of them in `taken`.
  suffices h : ∀ (l : TakenEntries) (byFile : FileIndex), (∀ kv ∈ l, kv ∈ taken) → byFile.OK taken →
      ∃ byFile', l.foldlM FileIndex.add byFile = .ok byFile' ∧ byFile'.OK taken from
    h taken ∅ (fun _ h => h) (fun f m hm => by simp at hm)
  intro l
  induction l with
  | nil => intro byFile _ h; exact ⟨byFile, rfl, h⟩
  | cons kv l ih =>
    intro byFile hl h
    have hkv := hl kv (by simp)
    obtain ⟨e, he, hok⟩ := ht kv hkv
    obtain ⟨key, v⟩ := kv
    dsimp only at he
    subst he
    obtain ⟨byFile', hb, hok'⟩ := ih _ (fun q hq => hl q (by simp [hq])) (h.emplace hkv)
    refine ⟨byFile', ?_, hok'⟩
    rw [List.foldlM_cons, FileIndex.add, if_neg (by simp [hok.nonempty]), if_neg (by simp [hok.length])]
    exact hb

def DisjointInFile (a b : InMemCacheBlock × InMemCacheDataEntry) : Prop :=
  a.1.fname = b.1.fname → a.1.startOff + a.1.blkSize ≤ b.1.startOff ∨ b.1.startOff + b.1.blkSize ≤ a.1.startOff

theorem remapFiles_spec (page : Nat) {nbs slack : Nat} {taken : TakenEntries} (ht : TakenAllOK slack taken)
    (hn : 0 < nbs) {sizes : AList fun _ : String => Nat} (hroom : ∀ f, Room nbs slack (sizes.lookup f)) :
    ∀ (files : List (Σ _ : String, Std.TreeMap Nat CachedSlice)), files.NodupKeys →
      (∀ q ∈ files, ∀ s sl, q.2[s]? = some sl → SliceOK taken q.1 s sl) →
      ∃ out, remapFiles page nbs sizes files = .ok out ∧ (∀ kv ∈ out, NewBlock page taken nbs kv) ∧
        (∀ kv ∈ out, kv.1.fname ∈ files.keys) ∧ out.Pairwise DisjointInFile
  | [], _, _ => ⟨[], rfl, by simp, by simp, .nil⟩
  | ⟨f, m⟩ :: files, hnd, hok => by
    rw [List.nodupKeys_cons] at hnd
    obtain ⟨out, ho, hall, hasc⟩ := remapSlices_none_spec page ht hn (hroom f) m.toList
      (fun p hp => hok ⟨f, m⟩ (by simp) p.1 p.2 (Std.TreeMap.mem_toList_iff_getElem?_eq_some.mp hp))
    obtain ⟨more, hm, hall', hkeys, hpw⟩ := remapFiles_spec page ht hn hroom files hnd.2
      (fun q hq => hok q (by simp [hq]))
    refine ⟨out ++ more, by rw [remapFiles, remapOneFile, ho, hm]; rfl, ?_, ?_, ?_⟩
    · intro kv hkv
      rcases List.mem_append.mp hkv with hkv | hkv
      · exact (hall kv hkv).2
      · exact hall' kv hkv
    · intro kv hkv
      rcases List.mem_append.mp hkv with hkv | hkv
      · simp [(hall kv hkv).1]
      · simp [hkeys kv hkv]
    · refine List.pairwise_append.mpr ⟨?_, hpw, ?_⟩
      · exact (List.pairwise_map.mp hasc.pairwise).imp fun h _ => .inl h
      · intro a ha b hb hab
        have hfa := (hall a ha).1
        exact absurd (hkeys b hb) (by rw [← hab, hfa]; exact hnd.1)

/-- What all entries of one file and tag have at an offset. -/
abbrev Contents := String → String → Nat → UInt8

def HoldsContents (g : Contents) (key : InMemCacheBlock) (e : InMemCacheDataEntry) : Prop :=
  ∀ p, key.startOff ≤ p → p < key.startOff + key.blkSize →
    e.data.bytes[p - key.startOff]? = some (g key.fname e.versionTag p)

theorem NewBlock.holdsContents {page nbs : Nat} {taken : TakenEntries}
    {kv : InMemCacheBlock × InMemCacheDataEntry} (h : NewBlock page taken nbs kv) {g : Contents}
    (hg : ∀ key e, (key, some e) ∈ taken → HoldsContents g key e) : HoldsContents g kv.1 kv.2 := by
  intro p h1 h2
  obtain ⟨x, hx, key, e, hmem, hf, ht, hk1, hk2, hxe⟩ := h.bytes p h1 h2
  rw [hx, ← hxe, hg key e hmem p hk1 hk2, hf, ht]

theorem remapInMemCacheEntries_spec (page : Nat) (hash : HashOrder (Σ _ : String, Std.TreeMap Nat CachedSlice))
    {nbs slack : Nat} {taken : TakenEntries} {sizes : AList fun _ : String => Nat} (hn : 0 < nbs)
    (hroom : ∀ f, Room nbs slack (sizes.lookup f)) (ht : TakenAllOK slack taken) :
    ∃ out, remapInMemCacheEntries page hash taken nbs sizes = .ok out ∧ (∀ kv ∈ out, NewBlock page taken nbs kv) ∧
      out.Pairwise DisjointInFile := by
  obtain ⟨byFile, hb, hok⟩ := buildFileIndex_spec ht
  have hperm := hash.perm byFile.entries
  obtain ⟨out, ho, hall, _, hpw⟩ := remapFiles_spec page ht hn hroom (hash.order byFile.entries)
    ((List.perm_nodupKeys hperm).mpr byFile.nodupKeys)
    (fun q hq s sl hsl => hok q.1 q.2 (AList.mem_lookup_iff.mpr (hperm.mem_iff.mp hq)) s sl hsl)
  refine ⟨out, ?_, hall, hpw⟩
  rw [remapInMemCacheEntries, if_neg (by omega), hb]
  exact ho

/-- **The remap is sound.** Whatever was taken and whichever file sizes are
known, no assertion fails and the result is on the new grid: each new block
holds, at every offset, the byte that a taken entry of the same file and
tag has there, and the new blocks of one file do not overlap. So what all
taken entries agree on, the new ones agree on. -/
theorem remap_sound (page : Nat) (hash : HashOrder (Σ _ : String, Std.TreeMap Nat CachedSlice))
    (taken : TakenEntries)
    (newBlockSize : Nat) (fileSizeByPath : AList fun _ : String => Nat) (hn : 0 < newBlockSize)
    (ht : TakenAllOK (2 * newBlockSize) taken) :
    ∃ out, remapInMemCacheEntries page hash taken newBlockSize fileSizeByPath = .ok out ∧
      (∀ kv ∈ out, newBlockSize ∣ kv.1.startOff ∧ 0 < kv.1.blkSize ∧ kv.1.blkSize ≤ newBlockSize ∧
        kv.2.data.length = kv.1.blkSize ∧
        ∀ p, kv.1.startOff ≤ p → p < kv.1.startOff + kv.1.blkSize →
          ∃ x, kv.2.data.bytes[p - kv.1.startOff]? = some x ∧ TakenByte taken kv.1.fname kv.2.versionTag p x) ∧
      out.Pairwise DisjointInFile ∧
      ∀ g : Contents, (∀ key e, (key, some e) ∈ taken → HoldsContents g key e) →
        ∀ kv ∈ out, HoldsContents g kv.1 kv.2 := by
  obtain ⟨out, ho, hall, hpw⟩ := remapInMemCacheEntries_spec page hash hn
    (fun f => (⟨by omega, fun _ => Nat.le_refl _⟩ : Room _ _ (fileSizeByPath.lookup f))) ht
  refine ⟨out, ho, fun kv hkv => ?_, hpw, fun g hg kv hkv => (hall kv hkv).holdsContents hg⟩
  have h := hall kv hkv
  obtain ⟨bs, _, hdata⟩ := h.data
  exact ⟨h.dvd, h.pos, h.le, by rw [hdata]; rfl, h.bytes⟩

def adjacentEntries : TakenEntries :=
  [(⟨"f", 0, 2⟩, some ⟨⟨some [1, 2], 2, 4096⟩, "v"⟩), (⟨"f", 2, 2⟩, some ⟨⟨some [3, 4], 2, 4096⟩, "v"⟩)]

theorem remap_sound_adjacent :
    ∃ out, remapInMemCacheEntries 4096 .inserted adjacentEntries 4 ∅ = .ok out ∧ out.Pairwise DisjointInFile ∧
      out.map (·.1) = [⟨"f", 0, 4⟩] := by
  have hok : TakenAllOK (2 * 4) adjacentEntries := by
    intro kv hkv
    simp only [adjacentEntries, List.mem_cons, List.not_mem_nil, or_false] at hkv
    rcases hkv with rfl | rfl
    · exact ⟨_, rfl, by decide, by decide, rfl, by decide⟩
    · exact ⟨_, rfl, by decide, by decide, rfl, by decide⟩
  obtain ⟨out, ho, _, hpw, _⟩ := remap_sound 4096 .inserted adjacentEntries 4 ∅ (by decide) hok
  have hkeys : (remapInMemCacheEntries 4096 .inserted adjacentEntries 4 ∅).map (List.map (·.1)) =
      .ok [⟨"f", 0, 4⟩] := by decide +kernel
  rw [ho] at hkeys
  exact ⟨out, ho, hpw, Except.ok.inj hkeys⟩

end ReadCacheFs
