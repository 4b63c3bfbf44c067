/-
What the caches hold, byte by byte, over remote files that change.

That a block is what its file has (`Mirrors`) is too much to ask once the
file changes. `FileClaims` says of each byte of a file, cached under a
version tag, what its being there claims, and of each file size. The caches
hold to the claims as long as every byte a read fetches or copies from one
layer to another meets its own; all else only loses entries, and a remap
cuts blocks whose bytes are those of blocks of the same path and tag.

What a task copies out is then a block that some tag the reader accepts
vouches for, or what the remote file has now (`Supplied`).
-/
import ReadCacheFs.FailedReads
import ReadCacheFs.ReadTransparency

namespace ReadCacheFs

open Lib

structure FileClaims where
  /-- Of a byte cached at an offset of a path, under a version tag. -/
  byte (path versionTag : String) (offset : Nat) (x : UInt8) : Prop
  /-- Of a file size cached for a path. -/
  size (path : String) (n : Nat) : Prop
  /-- The directories and uuids that name the cache files of interest. -/
  sought (directories : List String) (uuid : String) : Prop

variable {B B' : FileClaims} {remote : Remote} {key : InMemCacheBlock} {tag tag' path : String}
  {data : PageAlignedDataChunk}

/-! ## Blocks -/

/-- A whole block, each byte of which meets its claim. -/
structure Vouched (B : FileClaims) (key : InMemCacheBlock) (tag : String) (data : PageAlignedDataChunk) :
    Prop where
  pos : 0 < key.blkSize
  bounded : key.startOff + key.blkSize < 2 ^ 63
  length : data.length = key.blkSize
  filled : data.Filled
  bytes : ∀ i x, data.bytes[i]? = some x → B.byte key.fname tag (key.startOff + i) x

namespace Vouched

theorem mono (h : Vouched B key tag data) (hb : ∀ o x, B.byte key.fname tag o x → B'.byte key.fname tag' o x) :
    Vouched B' key tag' data :=
  ⟨h.pos, h.bounded, h.length, h.filled, fun i x hx => hb _ x (h.bytes i x hx)⟩

theorem nonempty (h : Vouched B key tag data) : data.empty = false := by
  have hpos := h.pos
  have hfill := h.filled
  rw [PageAlignedDataChunk.Filled, PageAlignedDataChunk.bytes, h.length] at hfill
  cases hc : data.chunk with
  | none =>
    rw [hc] at hfill
    simp at hfill
    omega
  | some bs =>
    simp [PageAlignedDataChunk.empty, hc, h.length]
    omega

/-- What is read from the remote file. -/
theorem of_mirrors (hsized : remote.Sized) (h : Mirrors remote key data)
    (hb : ∀ o x, (remote key.fname)[o]? = some x → B.byte key.fname tag o x) : Vouched B key tag data := by
  have hsize := hsized key.fname
  have hin := h.inFile
  refine ⟨h.pos, by omega, h.length, h.filled, fun i x hx => hb _ x ?_⟩
  rw [h.bytes, getElem?_slice] at hx
  split at hx
  · exact hx
  · cases hx

/-- Where the claims are of the current contents, a block mirrors its file. -/
theorem mirrors (h : Vouched B key tag data)
    (hb : ∀ o x, B.byte key.fname tag o x → (remote key.fname)[o]? = some x) :
    Mirrors remote key data := by
  have hlen : data.bytes.length = key.blkSize := h.filled.trans h.length
  have hpos := h.pos
  have hbyte : ∀ i < key.blkSize, ∃ x, data.bytes[i]? = some x ∧
      (remote key.fname)[key.startOff + i]? = some x := by
    intro i hi
    have hx := List.getElem?_eq_getElem (show i < data.bytes.length by omega)
    exact ⟨_, hx, hb _ _ (h.bytes i _ hx)⟩
  refine ⟨h.pos, ?_, h.length, ?_⟩
  · obtain ⟨x, _, hx⟩ := hbyte (key.blkSize - 1) (by omega)
    have := (List.getElem?_eq_some_iff.mp hx).1
    omega
  · refine List.ext_getElem? fun i => ?_
    rw [getElem?_slice]
    split
    next hi =>
      obtain ⟨x, hx, hr⟩ := hbyte i hi
      rw [hx, hr]
    next hi => exact List.getElem?_eq_none (by omega)

/-- A chunk can be copied out of its block, whatever its bytes are. -/
theorem copy_total {c : CacheReadChunk} {fileSize : Nat} (h : Vouched B (c.blockKey path) tag data)
    (hfit : c.Fits fileSize) :
    ∃ copied, c.copyBufferToRequestedMemory data = .ok copied := by
  obtain ⟨bs, hbs, _⟩ := h.filled.chunk_eq h.nonempty
  have hlow := hfit.low
  have hhigh := hfit.high
  have hbound : c.alignedStartOffset + c.chunkSize < 2 ^ 63 := h.bounded
  have hlen : data.length = c.chunkSize := h.length
  have hsub : u64Sub c.requestedStartOffset c.alignedStartOffset =
      c.requestedStartOffset - c.alignedStartOffset :=
    u64Sub_eq hlow (by omega)
  have hsum : u64 (c.requestedStartOffset - c.alignedStartOffset + c.bytesToCopy) =
      c.requestedStartOffset - c.alignedStartOffset + c.bytesToCopy := u64_eq (by omega)
  refine ⟨(c.requestedStartAddr, slice bs (c.requestedStartOffset - c.alignedStartOffset) c.bytesToCopy), ?_⟩
  rw [CacheReadChunk.copyBufferToRequestedMemory, PageAlignedDataChunk.copyTo, hsub, hsum, if_neg (by omega), hbs]
  rfl

end Vouched

/-- A block the remap rebuilds. -/
theorem NewBlock.vouched {page nbs : Nat} {taken : TakenEntries} {kv : InMemCacheBlock × InMemCacheDataEntry}
    (h : NewBlock page taken nbs kv) (hv : ∀ k e, (k, some e) ∈ taken → Vouched B k e.versionTag e.data) :
    Vouched B kv.1 kv.2.versionTag kv.2.data := by
  obtain ⟨bs, hlen, hdata⟩ := h.data
  have hpos := h.pos
  have hbytes : kv.2.data.bytes.length = kv.1.blkSize := by rw [hdata, filledChunk_bytes hlen, hlen]
  refine ⟨hpos, ?_, by rw [hdata]; rfl, by rw [PageAlignedDataChunk.Filled, hbytes, hdata]; rfl, fun i x hx => ?_⟩
  · obtain ⟨x, _, k, e, hmem, _, _, _, h2, _⟩ := h.bytes (kv.1.startOff + kv.1.blkSize - 1) (by omega) (by omega)
    have := (hv k e hmem).bounded
    omega
  · have hi : i < kv.1.blkSize := hbytes ▸ (List.getElem?_eq_some_iff.mp hx).1
    obtain ⟨y, hy, k, e, hmem, hf, htag, h1, _, he⟩ := h.bytes (kv.1.startOff + i) (by omega) (by omega)
    rw [Nat.add_sub_cancel_left, hx] at hy
    obtain rfl := Option.some.inj hy
    have hb := (hv k e hmem).bytes _ x he
    rw [Nat.add_sub_cancel' h1, hf, htag] at hb
    exact hb

/-! ## Storages -/

namespace ExtensionStorage

theorem get_tag {s : ExtensionStorage} (h : s.OK) {now p : Nat} (hp : (s.get now key tag).1 = some p) :
    ∃ b, s.resident key = some b ∧ s.heap[p]? = some ⟨b.data, b.versionTag⟩ ∧
      (tag = "" ∨ b.versionTag = tag) := by
  have hg := (SharedValueLruCache.get_spec h.lru (steadyMillis now) key).2
  unfold get at hp
  cases hget : s.lruCache.get (steadyMillis now) key with
  | mk found c =>
  rw [hget] at hp hg
  cases found with
  | none => cases hp
  | some q =>
    obtain ⟨⟨ts, hf, _⟩, _⟩ := hg
    obtain ⟨d, hd⟩ : ∃ d, s.heap[q]? = some d := ⟨_, List.getElem?_eq_getElem (h.pointed key q ts hf)⟩
    dsimp only at hp
    rw [hd] at hp
    dsimp only at hp
    split at hp
    · cases hp
    next hv =>
      cases hp
      exact ⟨_, resident_iff.mpr ⟨p, ts, d, hf, hd, rfl⟩, hd, validateVersionTag_iff.mp (by simpa using hv)⟩

end ExtensionStorage

namespace PolicyStorage

theorem get_tag {s : PolicyStorage} (h : s.Routed) {now p : Nat} (hp : (s.get now key tag).1 = some p) :
    ∃ b, s.resident key = some b ∧ s.heap[p]? = some ⟨b.data, b.versionTag⟩ ∧
      (tag = "" ∨ b.versionTag = tag) := by
  obtain ⟨g, hg, ⟨_, he⟩ | ⟨e, d, hl, hd, ⟨_, he⟩ | ⟨_, hv, he⟩⟩⟩ := get_cases h now key tag
  · rw [he] at hp
    cases hp
  · rw [he] at hp
    cases hp
  · rw [he] at hp
    cases hp
    exact ⟨_, resident_iff.mpr ⟨e, d, by rw [lookupIn, hg]; exact hl, hd, rfl⟩, hd, validateVersionTag_iff.mp hv⟩

end PolicyStorage

namespace ObjectStorage

theorem get_tag {s : ObjectStorage} (h : s.OK) {now p : Nat} (hp : (s.get now key tag).1 = some p) :
    ∃ b, s.resident key = some b ∧ (s.blocks[p]?).map (·.data) = some b.data ∧
      (tag = "" ∨ b.versionTag = tag) := by
  unfold get at hp
  cases hm : s.entries[key]? with
  | none =>
    rw [hm] at hp
    cases hp
  | some m =>
    rw [hm] at hp
    dsimp only at hp
    rw [h.named key m hm] at hp
    split at hp
    · cases hp
    next hst =>
      cases hb : s.objCache.lookup (makeObjCacheKey key) with
      | none =>
        rw [hb] at hp
        cases hp
      | some q =>
        rw [hb] at hp
        cases hp
        obtain ⟨m', d, hm', _, hd⟩ := h.at hb
        simp only [stale, Bool.or_eq_true, Bool.not_eq_true', not_or, Bool.not_eq_false] at hst
        exact ⟨_, resident_iff.mpr ⟨p, m, _, hb, hm, hd, rfl⟩, by rw [hd]; rfl, validateVersionTag_iff.mp hst.1⟩

end ObjectStorage

namespace DataCacheStorage

variable {s s' : DataCacheStorage}

/-- A hit is on a block of a tag the lookup accepts, whatever the clock says. -/
theorem get_tag (hs : s.OK) {now p : Nat} (hp : (s.get now key tag).1 = some p) :
    ∃ x, s.resident key = some x ∧ (s.get now key tag).2.pinnedData p = x.data ∧
      (tag = "" ∨ x.versionTag = tag) := by
  cases s with
  | extension s =>
    obtain ⟨x, hx, hd, ht⟩ := ExtensionStorage.get_tag hs hp
    refine ⟨x, hx, ?_, ht⟩
    simp only [get, pinnedData, chunk?, (s.get_heap now key tag).1, hd]
    rfl
  | policy s =>
    obtain ⟨x, hx, hd, ht⟩ := PolicyStorage.get_tag hs hp
    refine ⟨x, hx, ?_, ht⟩
    simp only [get, pinnedData, chunk?, (PolicyStorage.get_moves hs now key tag).heap, List.append_nil, hd]
    rfl
  | object s =>
    obtain ⟨x, hx, hd, ht⟩ := ObjectStorage.get_tag hs hp
    refine ⟨x, hx, ?_, ht⟩
    simp only [get, pinnedData, chunk?, (ObjectStorage.get_spec hs now key tag).2.1, hd]
    rfl

/-- Every block held meets its claims. -/
structure HoldsTo (B : FileClaims) (s : DataCacheStorage) : Prop where
  ok : s.OK
  held : ∀ k x, s.resident k = some x → Vouched B k x.versionTag x.data

theorem HoldsTo.mono (h : s.HoldsTo B)
    (hb : ∀ k x, s.resident k = some x → ∀ o y, B.byte k.fname x.versionTag o y →
      B'.byte k.fname x.versionTag o y) :
    s.HoldsTo B' :=
  ⟨h.ok, fun k x hx => (h.held k x hx).mono (hb k x hx)⟩

/-- A storage just built holds nothing. -/
theorem HoldsTo.built {mode : StorageMode} {maxEntries timeoutMillisec : Nat} {options : PolicyStorageOptions}
    (hs : buildInMemoryDataCacheStorage mode maxEntries timeoutMillisec options = .ok s) : s.HoldsTo B := by
  obtain ⟨hok, hn, _⟩ := build_spec hs
  refine ⟨hok, fun k x hx => ?_⟩
  rw [hn k] at hx
  cases hx

theorem HoldsTo.lose (h : s.HoldsTo B) (hl : Loses s s') : s'.HoldsTo B :=
  ⟨hl.ok, fun k x hx => h.held k x (hl.held k x hx)⟩

theorem HoldsTo.get (h : s.HoldsTo B) (now : Nat) (key : InMemCacheBlock) (tag : String) :
    (s.get now key tag).2.HoldsTo B ∧ ∀ p, (s.get now key tag).1 = some p →
      ∃ tag', (tag = "" ∨ tag' = tag) ∧ Vouched B key tag' ((s.get now key tag).2.pinnedData p) := by
  refine ⟨h.lose (get_spec h.ok now key tag).1, fun p hp => ?_⟩
  obtain ⟨x, hx, hd, ht⟩ := get_tag h.ok hp
  exact ⟨x.versionTag, ht, hd ▸ h.held key x hx⟩

theorem HoldsTo.put (h : s.HoldsTo B) (now : Nat) (evicted : List String) {chunk : PageAlignedDataChunk}
    (hv : Vouched B key tag chunk) : ∃ s', s.put now evicted key chunk tag = .ok s' ∧ s'.HoldsTo B := by
  have hpos := hv.pos
  obtain ⟨s', hp⟩ := s.put_total now evicted key tag (by rw [hv.length]; omega)
  obtain ⟨hok, _, _, hres⟩ := put_spec h.ok hp
  refine ⟨s', hp, hok, fun k x hx => ?_⟩
  rcases hres k x hx with ⟨rfl, rfl, _⟩ | ⟨hold, _⟩
  · exact hv
  · exact h.held k x hold

theorem HoldsTo.remap (h : s.HoldsTo B) (env : RemapEnv) {newBlockSize : Nat} (hn : BlockSizeOK newBlockSize) :
    ∃ s', s.remapForNewBlockSize env newBlockSize = .ok s' ∧ s'.HoldsTo B := by
  obtain ⟨taken, s₁, htake, hl, _, hmem⟩ := take_spec h.ok env.clock env.policyHash
  have hv : ∀ k e, (k, some e) ∈ (taken.map fun kv => (kv.1, some kv.2)) → Vouched B k e.versionTag e.data := by
    intro k e he
    obtain ⟨⟨k', e'⟩, hke, heq⟩ := List.mem_map.mp he
    cases heq
    obtain ⟨x, hx, rfl, _⟩ := hmem k' e' hke
    exact h.held k' x hx
  have hok : TakenAllOK newBlockSize (taken.map fun kv => (kv.1, some kv.2)) := by
    intro kv hkv
    obtain ⟨⟨k, e⟩, _, rfl⟩ := List.mem_map.mp hkv
    have hke := hv k e hkv
    have hbound := hke.bounded
    have hle := hn.le
    refine ⟨e, rfl, hke.nonempty, hke.filled, hke.length, ?_⟩
    dsimp only
    omega
  obtain ⟨out, hout, hall, _⟩ := remapInMemCacheEntries_spec env.page env.fileHash hn.pos
    (fun f => (⟨Nat.le_refl _, fun hs => by simp at hs⟩ : Room _ _
      ((∅ : AList fun _ : String => Nat).lookup f))) hok
  obtain ⟨s', hput, h'⟩ := foldlM_total (f := fun s (kv : InMemCacheBlock × InMemCacheDataEntry) =>
      s.put (env.putNow kv.1) (env.evicted kv.1) kv.1 kv.2.data kv.2.versionTag)
    (fun s kv hkv hs => hs.put _ _ ((hall kv hkv).vouched hv)) (h.lose hl)
  refine ⟨s', ?_, h'⟩
  simp only [remapForNewBlockSize, htake, bind, Except.bind, hout]
  exact hput

end DataCacheStorage

/-- The storage, where there is one, holds to the claims. -/
def StorageHolds (B : FileClaims) (storage : Option DataCacheStorage) : Prop :=
  ∀ s, storage = some s → s.HoldsTo B

theorem StorageHolds.none : StorageHolds B none := by
  intro s hs
  cases hs

theorem StorageHolds.some {s : DataCacheStorage} (h : s.HoldsTo B) : StorageHolds B (some s) :=
  fun _ hs => Option.some.inj hs ▸ h

theorem StorageHolds.map {storage : Option DataCacheStorage} (h : StorageHolds B storage)
    {f : DataCacheStorage → DataCacheStorage} (hf : ∀ s, s.OK → DataCacheStorage.Loses s (f s)) :
    StorageHolds B (storage.map f) := by
  intro s hs
  obtain ⟨s₀, h₀, rfl⟩ := Option.map_eq_some_iff.mp hs
  exact (h s₀ h₀).lose (hf s₀ (h s₀ h₀).ok)

end ReadCacheFs
