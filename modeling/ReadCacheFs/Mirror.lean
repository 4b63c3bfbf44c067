/-
Storages that mirror the remote files: each block held is what its file has
at the block's range.

`get` only hands such a block out, `put` only takes one in, everything else
loses blocks, and a remap cuts them anew: so a storage that mirrors the
files keeps to it.
-/
import ReadCacheFs.DataCacheStorage
import ReadCacheFs.Lib.Runs
import ReadCacheFs.RemapFacts

namespace ReadCacheFs

open Lib

/-- The chunk is what the remote file has at the key's range. -/
structure Mirrors (remote : Remote) (key : InMemCacheBlock) (data : PageAlignedDataChunk) : Prop where
  pos : 0 < key.blkSize
  inFile : key.startOff + key.blkSize ≤ (remote key.fname).length
  length : data.length = key.blkSize
  bytes : data.bytes = slice (remote key.fname) key.startOff key.blkSize

variable {remote : Remote} {key : InMemCacheBlock} {data : PageAlignedDataChunk}

theorem Mirrors.filled (h : Mirrors remote key data) : data.Filled := by
  rw [PageAlignedDataChunk.Filled, h.bytes, length_slice_of_le h.inFile, h.length]

theorem Mirrors.chunk_eq (h : Mirrors remote key data) :
    ∃ bs, data.chunk = some bs ∧ bs.take key.blkSize = data.bytes := by
  cases hc : data.chunk with
  | none =>
    have hf := h.filled
    have hp := h.pos
    rw [PageAlignedDataChunk.Filled, PageAlignedDataChunk.bytes, hc, h.length] at hf
    simp at hf
    omega
  | some bs => exact ⟨bs, rfl, by rw [PageAlignedDataChunk.bytes, hc, h.length]; rfl⟩

theorem Mirrors.nonempty (h : Mirrors remote key data) : data.empty = false := by
  obtain ⟨bs, hbs, _⟩ := h.chunk_eq
  have hp := h.pos
  simp only [PageAlignedDataChunk.empty, hbs, h.length, Option.isNone_some, Bool.false_or, beq_eq_false_iff_ne]
  omega

/-- What is read from the remote file. -/
theorem Mirrors.filledChunk (page : Nat) (hpos : 0 < key.blkSize)
    (hin : key.startOff + key.blkSize ≤ (remote key.fname).length) :
    Mirrors remote key (filledChunk page key.blkSize (slice (remote key.fname) key.startOff key.blkSize)) :=
  ⟨hpos, hin, rfl, filledChunk_bytes (length_slice_of_le hin)⟩

/-- A chunk whose copy range lies in its entry and whose entry lies in the file. -/
structure CacheReadChunk.Fits (c : CacheReadChunk) (fileSize : Nat) : Prop where
  low : c.alignedStartOffset ≤ c.requestedStartOffset
  high : c.requestedStartOffset + c.bytesToCopy ≤ c.alignedStartOffset + c.chunkSize
  inFile : c.alignedStartOffset + c.chunkSize ≤ fileSize
  pos : 0 < c.chunkSize

/-- What a chunk copies out of its entry is the file's content there. -/
theorem Mirrors.copy {path : String} {c : CacheReadChunk} (hsized : remote.Sized)
    (h : Mirrors remote ⟨path, c.alignedStartOffset, c.chunkSize⟩ data) (hfit : c.Fits (remote path).length) :
    c.copyBufferToRequestedMemory data =
      .ok (c.requestedStartAddr, slice (remote path) c.requestedStartOffset c.bytesToCopy) := by
  obtain ⟨hlow, hhigh, hin, _⟩ := hfit
  have hsize := hsized path
  obtain ⟨bs, hbs, htake⟩ := h.chunk_eq
  have hsub : u64Sub c.requestedStartOffset c.alignedStartOffset =
      c.requestedStartOffset - c.alignedStartOffset :=
    u64Sub_eq hlow (by omega)
  have hsum : u64 (c.requestedStartOffset - c.alignedStartOffset + c.bytesToCopy) =
      c.requestedStartOffset - c.alignedStartOffset + c.bytesToCopy := u64_eq (by omega)
  have hlen : ¬ c.requestedStartOffset - c.alignedStartOffset + c.bytesToCopy > data.length := by
    rw [h.length]
    dsimp only
    omega
  have hinner : c.requestedStartOffset - c.alignedStartOffset + c.bytesToCopy ≤ c.chunkSize := by omega
  have hslice : slice bs (c.requestedStartOffset - c.alignedStartOffset) c.bytesToCopy =
      slice (remote path) c.requestedStartOffset c.bytesToCopy := by
    calc slice bs (c.requestedStartOffset - c.alignedStartOffset) c.bytesToCopy
        = slice (slice bs 0 c.chunkSize) (c.requestedStartOffset - c.alignedStartOffset) c.bytesToCopy := by
          rw [slice_slice hinner, Nat.zero_add]
      _ = slice (slice (remote path) c.alignedStartOffset c.chunkSize)
            (c.requestedStartOffset - c.alignedStartOffset) c.bytesToCopy := by
          rw [← h.bytes, ← htake]
          rfl
      _ = slice (remote path) c.requestedStartOffset c.bytesToCopy := by
          rw [slice_slice hinner, Nat.add_sub_cancel' hlow]
  rw [CacheReadChunk.copyBufferToRequestedMemory, PageAlignedDataChunk.copyTo, hsub, hsum, if_neg hlen, hbs]
  dsimp only
  rw [hslice]
  rfl

/-! ## Storages -/

namespace DataCacheStorage

structure MirrorsRemote (remote : Remote) (s : DataCacheStorage) : Prop where
  ok : s.OK
  held : ∀ k x, s.resident k = some x → Mirrors remote k x.data

variable {s s' : DataCacheStorage}

/-- A storage just built holds nothing. -/
theorem MirrorsRemote.built {mode : StorageMode} {maxEntries timeoutMillisec : Nat}
    {options : PolicyStorageOptions}
    (hs : buildInMemoryDataCacheStorage mode maxEntries timeoutMillisec options = .ok s) :
    s.MirrorsRemote remote := by
  obtain ⟨hok, hn, _⟩ := build_spec hs
  refine ⟨hok, fun k x hx => ?_⟩
  rw [hn k] at hx
  cases hx

theorem MirrorsRemote.lose (h : s.MirrorsRemote remote) (hl : Loses s s') : s'.MirrorsRemote remote :=
  ⟨hl.ok, fun k x hx => h.held k x (hl.held k x hx)⟩

theorem MirrorsRemote.get (h : s.MirrorsRemote remote) (now : Nat) (key : InMemCacheBlock) (tag : String) :
    (s.get now key tag).2.MirrorsRemote remote ∧
      ∀ p, (s.get now key tag).1 = some p → Mirrors remote key ((s.get now key tag).2.pinnedData p) := by
  obtain ⟨hl, hr⟩ := get_spec h.ok now key tag
  refine ⟨h.lose hl, fun p hp => ?_⟩
  rw [hp] at hr
  obtain ⟨x, hx, hd, _⟩ := hr
  rw [pinnedData, hd]
  exact h.held key x hx

theorem put_total (s : DataCacheStorage) (now : Nat) (evicted : List String) (key : InMemCacheBlock)
    {chunk : PageAlignedDataChunk} (tag : String) (hlen : chunk.length ≠ 0) :
    ∃ s', s.put now evicted key chunk tag = .ok s' := by
  cases s with
  | extension s => exact ⟨_, rfl⟩
  | policy s => exact ⟨_, rfl⟩
  | object s => exact ⟨_, by rw [put, ObjectStorage.put, if_neg hlen]; rfl⟩

theorem MirrorsRemote.put (h : s.MirrorsRemote remote) (now : Nat) (evicted : List String)
    {chunk : PageAlignedDataChunk} (hm : Mirrors remote key chunk) (tag : String) :
    ∃ s', s.put now evicted key chunk tag = .ok s' ∧ s'.MirrorsRemote remote := by
  have hpos := hm.pos
  obtain ⟨s', hp⟩ := s.put_total now evicted key tag (by rw [hm.length]; omega)
  obtain ⟨hok, _, _, hres⟩ := put_spec h.ok hp
  refine ⟨s', hp, hok, fun k x hx => ?_⟩
  rcases hres k x hx with ⟨rfl, rfl, _⟩ | ⟨hold, _⟩
  · exact hm
  · exact h.held k x hold

end DataCacheStorage

/-! ## The remap -/

/-- A block rebuilt from blocks that mirror the files mirrors its file. -/
theorem NewBlock.mirrors {page nbs : Nat} {taken : TakenEntries} {kv : InMemCacheBlock × InMemCacheDataEntry}
    (h : NewBlock page taken nbs kv) (hm : ∀ k e, (k, some e) ∈ taken → Mirrors remote k e.data) :
    Mirrors remote kv.1 kv.2.data := by
  obtain ⟨bs, hlen, hdata⟩ := h.data
  have hpos := h.pos
  -- Each byte is one a taken block has, and so one the file has.
  have hbyte : ∀ i < kv.1.blkSize, ∃ x, bs[i]? = some x ∧ (remote kv.1.fname)[kv.1.startOff + i]? = some x := by
    intro i hi
    obtain ⟨x, hx, k, e, hmem, hf, _, h1, h2, he⟩ := h.bytes (kv.1.startOff + i) (by omega) (by omega)
    rw [hdata, filledChunk_bytes hlen, Nat.add_sub_cancel_left] at hx
    refine ⟨x, hx, ?_⟩
    rw [(hm k e hmem).bytes, getElem?_slice, if_pos (by omega), Nat.add_sub_cancel' h1, hf] at he
    exact he
  refine ⟨hpos, ?_, by rw [hdata]; rfl, ?_⟩
  · obtain ⟨x, _, hx⟩ := hbyte (kv.1.blkSize - 1) (by omega)
    have := (List.getElem?_eq_some_iff.mp hx).1
    omega
  · rw [hdata, filledChunk_bytes hlen]
    refine List.ext_getElem? fun i => ?_
    rw [getElem?_slice]
    split
    next hi =>
      obtain ⟨x, hx, hr⟩ := hbyte i hi
      rw [hx, hr]
    next hi => exact List.getElem?_eq_none (by omega)

theorem DataCacheStorage.MirrorsRemote.remap {s : DataCacheStorage} (h : s.MirrorsRemote remote)
    (hsized : remote.Sized) (env : RemapEnv) {newBlockSize : Nat} (hn : 0 < newBlockSize)
    (hle : newBlockSize ≤ 2 ^ 63) :
    ∃ s', s.remapForNewBlockSize env newBlockSize = .ok s' ∧ s'.MirrorsRemote remote := by
  obtain ⟨taken, s₁, htake, hl, _, hmem⟩ := take_spec h.ok env.clock env.policyHash
  have hm : ∀ k e, (k, some e) ∈ (taken.map fun kv => (kv.1, some kv.2)) → Mirrors remote k e.data := by
    intro k e he
    obtain ⟨⟨k', e'⟩, hke, heq⟩ := List.mem_map.mp he
    cases heq
    obtain ⟨x, hx, rfl, _⟩ := hmem k' e' hke
    exact h.held k' x hx
  have hok : TakenAllOK newBlockSize (taken.map fun kv => (kv.1, some kv.2)) := by
    intro kv hkv
    obtain ⟨⟨k, e⟩, _, rfl⟩ := List.mem_map.mp hkv
    have hke := hm k e hkv
    have hin := hke.inFile
    have hsize := hsized k.fname
    refine ⟨e, rfl, hke.nonempty, hke.filled, hke.length, ?_⟩
    dsimp only
    omega
  obtain ⟨out, hout, hall, _⟩ := remapInMemCacheEntries_spec env.page env.fileHash hn
    (fun f => (⟨Nat.le_refl _, fun hs => by simp at hs⟩ : Room _ _
      ((∅ : AList fun _ : String => Nat).lookup f))) hok
  obtain ⟨s', hput, h'⟩ := foldlM_total (f := fun s (kv : InMemCacheBlock × InMemCacheDataEntry) =>
      s.put (env.putNow kv.1) (env.evicted kv.1) kv.1 kv.2.data kv.2.versionTag)
    (fun s kv hkv hs => hs.put _ _ ((hall kv hkv).mirrors hm) _) (h.lose hl)
  refine ⟨s', ?_, h'⟩
  simp only [remapForNewBlockSize, htake, bind, Except.bind, hout]
  exact hput

end ReadCacheFs
