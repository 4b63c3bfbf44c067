/-
Entries that do not overlap are all kept, and what the remap makes of them
depends only on which bytes are cached under which tag: with the size of
the file it is exactly what a reader on the new grid could look up, and
without it a finer grid and back again changes nothing.
-/
import ReadCacheFs.RemapKeys

namespace ReadCacheFs

open Lib

/-- An entry of `f` with tag `tag` among the taken ones is around `p`. -/
def TakenTag (taken : TakenEntries) (f tag : String) (p : Nat) : Prop :=
  ∃ key e, (key, some e) ∈ taken ∧ key.fname = f ∧ e.versionTag = tag ∧ key.startOff ≤ p ∧ p < key.startOff + key.blkSize

def RangesApart (a b : InMemCacheBlock) : Prop :=
  a.startOff + a.blkSize ≤ b.startOff ∨ b.startOff + b.blkSize ≤ a.startOff

def ApartIn (taken : TakenEntries) (f : String) : Prop :=
  taken.Pairwise fun a b => a.1.fname = f → b.1.fname = f → RangesApart a.1 b.1

section Apart

variable {slack nbs : Nat} {taken : TakenEntries} {f : String} {segs : List Segment}

theorem TakenByte.tag {t : String} {p : Nat} {x : UInt8} (h : TakenByte taken f t p x) :
    TakenTag taken f t p := by
  obtain ⟨key, e, hm, hf, ht, h1, h2, _⟩ := h
  exact ⟨key, e, hm, hf, ht, h1, h2⟩

theorem TakenTag.byte (ht : TakenAllOK slack taken) {t : String} {p : Nat} (h : TakenTag taken f t p) :
    ∃ x, TakenByte taken f t p x := by
  obtain ⟨key, e, hm, hf, htag, h1, h2⟩ := h
  obtain ⟨e', he, hok⟩ := ht _ hm
  cases he
  have hlen : e.data.bytes.length = key.blkSize := hok.filled.trans hok.length
  have hlt : p - key.startOff < e.data.bytes.length := by omega
  exact ⟨_, key, e, hm, hf, htag, h1, h2, List.getElem?_eq_getElem hlt⟩

theorem ApartIn.eq_of_point (h : ApartIn taken f) {a b : InMemCacheBlock × Option InMemCacheDataEntry}
    (ha : a ∈ taken) (hb : b ∈ taken) (hfa : a.1.fname = f) (hfb : b.1.fname = f) {p : Nat}
    (h1 : a.1.startOff ≤ p) (h2 : p < a.1.startOff + a.1.blkSize) (h3 : b.1.startOff ≤ p)
    (h4 : p < b.1.startOff + b.1.blkSize) : a = b := by
  by_contra hne
  have : Std.Symm fun a b : InMemCacheBlock × Option InMemCacheDataEntry =>
      a.1.fname = f → b.1.fname = f → RangesApart a.1 b.1 := ⟨fun _ _ hab hb ha => (hab ha hb).symm⟩
  rcases List.Pairwise.forall h ha hb hne hfa hfb with hle | hle
  · omega
  · omega

theorem ApartIn.byte_unique (h : ApartIn taken f) {t t' : String} {p : Nat} {x x' : UInt8}
    (hx : TakenByte taken f t p x) (hx' : TakenByte taken f t' p x') : t = t' ∧ x = x' := by
  obtain ⟨key, e, hm, hf, rfl, h1, h2, hxe⟩ := hx
  obtain ⟨key', e', hm', hf', rfl, h1', h2', hxe'⟩ := hx'
  cases h.eq_of_point hm hm' hf hf' h1 h2 h1' h2'
  rw [hxe] at hxe'
  exact ⟨rfl, Option.some.inj hxe'⟩

theorem ApartIn.segment (h : ApartIn taken f) (ht : TakenAllOK slack taken) (hk : KeptOf taken f segs)
    {key : InMemCacheBlock} {e : InMemCacheDataEntry} (hm : (key, some e) ∈ taken) (hf : key.fname = f) :
    ⟨key.startOff, key.blkSize, e⟩ ∈ segs := by
  obtain ⟨fname, startOff, blkSize⟩ := key
  dsimp only at hf
  subst hf
  have hpos : 0 < blkSize := ht.pos hm
  refine (hk.mem_iff _).mpr ⟨?_, fun seg' hs' hlt => ?_⟩
  · have hsome : (firstAt taken fname startOff).isSome :=
      List.find?_isSome.mpr ⟨_, hm, by simp⟩
    obtain ⟨⟨key', v⟩, hfirst⟩ := Option.isSome_iff_exists.mp hsome
    obtain ⟨hm', hf', hs'⟩ := firstAt_some hfirst
    have hpos' : 0 < key'.blkSize := ht.pos hm'
    have hsame := h.eq_of_point hm hm' rfl hf' (p := startOff) (Nat.le_refl _) (by dsimp only; omega)
      (by dsimp only; omega)
      (by dsimp only; omega)
    dsimp only
    rw [hfirst, ← hsame]
  · by_contra hgt
    have hm' := hk.mem_taken hs'
    dsimp only at hlt hgt
    have hsame := h.eq_of_point hm hm' rfl rfl (p := startOff) (Nat.le_refl _) (by dsimp only; omega)
      (by dsimp only; omega)
      (by dsimp only; omega)
    simp only [Prod.mk.injEq, InMemCacheBlock.mk.injEq] at hsame
    omega

theorem ApartIn.segmentTag_iff (h : ApartIn taken f) (ht : TakenAllOK slack taken)
    (hk : KeptOf taken f segs) {p : Nat} {t : String} : SegmentTag segs p t ↔ TakenTag taken f t p := by
  constructor
  · rintro ⟨seg, hs, h1, h2, h3⟩
    exact ⟨_, seg.entry, hk.mem_taken hs, rfl, h3, h1, h2⟩
  · rintro ⟨key, e, hm, hf, h3, h1, h2⟩
    exact ⟨_, h.segment ht hk hm hf, h1, h2, h3⟩

end Apart

/-! ## With the size of the file -/

/-- Entries of one file and tag, back to back from `a` to `c`. -/
structure Chain (taken : TakenEntries) (f tag : String) (entries : List (InMemCacheBlock × InMemCacheDataEntry))
    (a c : Nat) : Prop where
  source : ∀ kv ∈ entries, (kv.1, some kv.2) ∈ taken ∧ kv.1.fname = f ∧ kv.2.versionTag = tag
  tiles : Tiles a c (entries.map blockRange)
  nonempty : a < c

/-- No entry of the file and tag goes on at either end. -/
structure MaximalChain (taken : TakenEntries) (f tag : String)
    (entries : List (InMemCacheBlock × InMemCacheDataEntry)) (a c : Nat) : Prop
    extends Chain taken f tag entries a c where
  first : ∀ key e, (key, some e) ∈ taken → key.fname = f → e.versionTag = tag → key.startOff + key.blkSize ≠ a
  last : ∀ key e, (key, some e) ∈ taken → key.fname = f → e.versionTag = tag → key.startOff ≠ c

def InMaximalChain (taken : TakenEntries) (f : String) (lo hi : Nat) : Prop :=
  ∃ tag entries a c, MaximalChain taken f tag entries a c ∧ a ≤ lo ∧ hi ≤ c

section Chains

variable {slack nbs : Nat} {taken : TakenEntries} {f : String} {segs : List Segment}

theorem Chain.tag {t : String} {entries : List (InMemCacheBlock × InMemCacheDataEntry)} {a c p : Nat}
    (h : Chain taken f t entries a c) (hlo : a ≤ p) (hhi : p < c) : TakenTag taken f t p := by
  obtain ⟨q, hq, h1, h2⟩ := h.tiles.cover hlo hhi
  obtain ⟨kv, hkv, rfl⟩ := List.mem_map.mp hq
  obtain ⟨hm, hf, ht⟩ := h.source kv hkv
  exact ⟨kv.1, kv.2, hm, hf, ht, h1, h2⟩

/-- A run of entries that do not overlap is a maximal chain. -/
theorem ApartIn.maximalChain (h : ApartIn taken f) (ht : TakenAllOK slack taken) (hk : KeptOf taken f segs)
    {r : Run} (hr : r ∈ runsOf segs) :
    MaximalChain taken f r.runTag (r.runSegments.map fun seg =>
      (⟨f, seg.start, seg.byteLen⟩, seg.entry)) r.runStart
      r.runEnd := by
  have hruns := hk.runs ht
  have hover := hruns.whole r hr
  refine ⟨⟨?_, ?_, hover.nonempty⟩, ?_, ?_⟩
  · intro kv hkv
    obtain ⟨seg, hs, rfl⟩ := List.mem_map.mp hkv
    obtain ⟨hm, htag⟩ := hover.source seg hs
    exact ⟨hk.mem_taken hm, rfl, htag⟩
  · rw [List.map_map]
    exact hover.tiles
  · intro key e hm hf htag hend
    have hpos := ht.pos hm
    -- The entry's bytes and the run's first one would be in one run.
    have hall : ∀ p, key.startOff ≤ p → p < r.runStart + 1 → SegmentTag segs p r.runTag := by
      intro p h1 h2
      rcases Nat.lt_or_ge p r.runStart with hlt | hge
      · exact (h.segmentTag_iff ht hk).mpr ⟨key, e, hm, hf, htag, h1, by omega⟩
      · exact hruns.tag hr hge (by have := hover.nonempty; omega)
    obtain ⟨r', hr', _, h3, h4⟩ := hruns.interval (by omega) hall
    obtain rfl := hruns.eq_of_point hr hr' (Nat.le_refl _) hover.nonempty (by omega) h4
    omega
  · intro key e hm hf htag hstart
    have hpos := ht.pos hm
    refine hruns.not_tag_runEnd hr ((h.segmentTag_iff ht hk).mpr ⟨key, e, hm, hf, htag, by omega, by omega⟩)

end Chains

/-- **With the file's size the remap is exact.** Entries of `f` inside the
file that do not overlap: the keys emitted for `f` are, each once, those a
reader on the new grid would look up whose range is in one maximal chain of
back-to-back entries of one tag, which is to say those whose bytes are all
cached under one tag. -/
theorem remap_exact (page : Nat) (hash : HashOrder (Σ _ : String, Std.TreeMap Nat CachedSlice))
    (taken : TakenEntries)
    (newBlockSize : Nat) (fileSizeByPath : AList fun _ : String => Nat) (f : String) (fileSize : Nat)
    (hn : 0 < newBlockSize) (ht : TakenAllOK (2 * newBlockSize) taken)
    (hsize : fileSizeByPath.lookup f = some fileSize)
    (hin : ∀ kv ∈ taken, kv.1.fname = f → kv.1.startOff + kv.1.blkSize ≤ fileSize) (hapart : ApartIn taken f) :
    ∃ out, remapInMemCacheEntries page hash taken newBlockSize fileSizeByPath = .ok out ∧
      ((out.map (·.1)).filter (·.fname == f)).Nodup ∧
      ∀ b len, (⟨f, b, len⟩ ∈ out.map (·.1) ↔
        (newBlockSize ∣ b ∧ b < fileSize ∧ len = min newBlockSize (fileSize - b)) ∧
          InMaximalChain taken f b (b + len)) ∧
        (⟨f, b, len⟩ ∈ out.map (·.1) ↔ (newBlockSize ∣ b ∧ b < fileSize ∧ len = min newBlockSize (fileSize - b)) ∧
          ∃ tag, ∀ p, b ≤ p → p < b + len → TakenTag taken f tag p) := by
  have hroom : ∀ g, Room newBlockSize (2 * newBlockSize) (fileSizeByPath.lookup g) := fun g =>
    ⟨by omega, fun _ => Nat.le_refl _⟩
  obtain ⟨out, hok, hnew, hpw⟩ := remapInMemCacheEntries_spec page hash hn hroom ht
  obtain ⟨segs, hk, hkeys⟩ := remap_keys page hash hn hroom ht hok (f := f) (fun n hs kv hkv hf => by
    rw [hsize] at hs
    cases hs
    exact hin kv hkv hf)
  have hruns := hk.runs ht
  rw [hsize] at hkeys
  refine ⟨out, hok, ?_, fun b len => ?_⟩
  · refine List.Nodup.filter _ (List.pairwise_map.mpr (hpw.imp_of_mem fun {a c} ha hc hac heq => ?_))
    have hpos := (hnew a ha).pos
    rcases hac (congrArg InMemCacheBlock.fname heq) with hle | hle
    · rw [heq] at hle hpos
      omega
    · rw [heq] at hle hpos
      omega
  · -- From a key to its run, from a chain to its bytes, and from the bytes to their run.
    have h1 : ⟨f, b, len⟩ ∈ out.map (·.1) → (newBlockSize ∣ b ∧ b < fileSize ∧
      len = min newBlockSize (fileSize - b)) ∧
        InMaximalChain taken f b (b + len) := by
      intro hm
      obtain ⟨r, hr, hcut⟩ := (hkeys b len).mp hm
      have hle : r.runEnd ≤ fileSize := by
        have hover := hruns.whole r hr
        obtain ⟨q, hq, h1, h2⟩ :=
          hover.tiles.cover (show r.runStart ≤ r.runEnd - 1 by have := hover.nonempty; omega)
          (by have := hover.nonempty; omega)
        obtain ⟨seg, hs, rfl⟩ := List.mem_map.mp hq
        have := hin _ (hk.mem_taken (hover.source seg hs).1) rfl
        dsimp only [Segment.range] at h1 h2 this
        omega
      have hbefore := hcut.before
      exact ⟨⟨hcut.dvd, by omega, hcut.len_eq⟩, _, _, _, _, hapart.maximalChain ht hk hr, hcut.low, hcut.high⟩
    have h2 : InMaximalChain taken f b (b + len) → ∃ tag, ∀ p, b ≤ p → p < b + len → TakenTag taken f tag p := by
      rintro ⟨tag, entries, a, c, hchain, hlo, hhi⟩
      exact ⟨tag, fun p h1 h2 => hchain.tag (by omega) (by omega)⟩
    have h3 : newBlockSize ∣ b ∧ b < fileSize ∧ len = min newBlockSize (fileSize - b) →
        (∃ tag, ∀ p, b ≤ p → p < b + len → TakenTag taken f tag p) → ⟨f, b, len⟩ ∈ out.map (·.1) := by
      rintro ⟨hd, hlt, hlen⟩ ⟨tag, htag⟩
      obtain ⟨r, hr, _, hlo, hhi⟩ := hruns.interval (show b < b + len by omega) fun p h1 h2 =>
        (hapart.segmentTag_iff ht hk).mpr (htag p h1 h2)
      exact (hkeys b len).mpr ⟨r, hr, hd, hlo, by omega, hlen, hhi⟩
    exact ⟨⟨h1, fun h => h3 h.1 (h2 h.2)⟩, ⟨fun h => ⟨(h1 h).1, h2 (h1 h).2⟩, fun h => h3 h.1 h.2⟩⟩

/-- Two entries with one tag up to the end of a file of five bytes, on a grid of 4. -/
theorem remap_exact_tail :
    ∃ out, remapInMemCacheEntries 4096 .inserted
        [(⟨"f", 2, 3⟩, some ⟨⟨some [3, 4, 5], 3, 4096⟩, "v"⟩),
          (⟨"f", 0, 2⟩, some ⟨⟨some [1, 2], 2, 4096⟩, "v"⟩)] 4
        (AList.singleton "f" 5) = .ok out ∧ ⟨"f", 4, 1⟩ ∈ out.map (·.1) := by
  have hok : TakenAllOK (2 * 4) [(⟨"f", 2, 3⟩, some ⟨⟨some [3, 4, 5], 3, 4096⟩, "v"⟩),
      (⟨"f", 0, 2⟩, some ⟨⟨some [1, 2], 2, 4096⟩, "v"⟩)] := by
    intro kv hkv
    simp only [List.mem_cons, List.not_mem_nil, or_false] at hkv
    rcases hkv with rfl | rfl
    · exact ⟨_, rfl, by decide, by decide, rfl, by decide⟩
    · exact ⟨_, rfl, by decide, by decide, rfl, by decide⟩
  obtain ⟨out, ho, _, hkeys⟩ :=
    remap_exact 4096 .inserted _ 4 (AList.singleton "f" 5) "f" 5 (by decide) hok rfl (by simp)
    (by simp [ApartIn, RangesApart])
  refine ⟨out, ho, (hkeys 4 1).2.mpr ⟨⟨by decide, by decide, by decide⟩, "v", fun p h1 h2 => ?_⟩⟩
  exact ⟨_, _, List.mem_cons_self, rfl, rfl, by dsimp only; omega, by dsimp only; omega⟩

/-! ## To a finer grid and back -/

/-- What the remap is given where it is given its own result. -/
def asTaken (entries : List (InMemCacheBlock × InMemCacheDataEntry)) : TakenEntries :=
  entries.map fun kv => (kv.1, some kv.2)

theorem mem_asTaken {entries : List (InMemCacheBlock × InMemCacheDataEntry)} {key : InMemCacheBlock}
    {e : InMemCacheDataEntry} : (key, some e) ∈ asTaken entries ↔ (key, e) ∈ entries := by
  simp [asTaken]

def entryView (kv : InMemCacheBlock × InMemCacheDataEntry) : InMemCacheBlock × Bytes × String :=
  (kv.1, kv.2.data.bytes, kv.2.versionTag)

section Restore

variable {page slack nbs : Nat} {hash : HashOrder (Σ _ : String, Std.TreeMap Nat CachedSlice)}
    {taken : TakenEntries}
  {out : List (InMemCacheBlock × InMemCacheDataEntry)}

/-- Without file sizes: a block is cut as far as its bytes are under one tag. -/
theorem remap_keys_apart (hn : 0 < nbs) (hroom : nbs ≤ slack) (ht : TakenAllOK slack taken)
    (hok : remapInMemCacheEntries page hash taken nbs ∅ = .ok out) {f : String} (hapart : ApartIn taken f)
    (b len : Nat) :
    ⟨f, b, len⟩ ∈ out.map (·.1) ↔ nbs ∣ b ∧ 0 < len ∧ len ≤ nbs ∧
      ∃ tag, (∀ p, b ≤ p → p < b + len → TakenTag taken f tag p) ∧
        (len = nbs ∨ ¬ TakenTag taken f tag (b + len)) := by
  obtain ⟨segs, hk, hkeys⟩ := remap_keys_unsized hn hroom ht hok f
  have hruns := hk.runs ht
  rw [hkeys]
  constructor
  · rintro ⟨r, hr, hd, hlo, hlt, hlen, hhi⟩
    rw [Option.getD_none] at hlen
    refine ⟨hd, by omega, by omega, r.runTag, fun p h1 h2 => ?_, ?_⟩
    · exact (hapart.segmentTag_iff ht hk).mp (hruns.tag hr (by omega) (by omega))
    · rcases Nat.lt_or_ge len nbs with hshort | hfull
      · right
        have hend : b + len = r.runEnd := by omega
        rw [hend, ← hapart.segmentTag_iff ht hk]
        exact hruns.not_tag_runEnd hr
      · left
        omega
  · rintro ⟨hd, hpos, hle, tag, htag, hstop⟩
    obtain ⟨r, hr, rfl, hlo, hhi⟩ := hruns.interval (show b < b + len by omega) fun p h1 h2 =>
      (hapart.segmentTag_iff ht hk).mpr (htag p h1 h2)
    refine ⟨r, hr, hd, hlo, by omega, ?_, hhi⟩
    rw [Option.getD_none]
    rcases hstop with rfl | hstop
    · omega
    · have hend : r.runEnd ≤ b + len := by
        by_contra hgt
        exact hstop ((hapart.segmentTag_iff ht hk).mp (hruns.tag hr (by omega) (by omega)))
      omega

/-- A byte is in a new block if its tag begins no later than its block. -/
theorem exists_block (hn : 0 < nbs) (hroom : nbs ≤ slack) (ht : TakenAllOK slack taken)
    (hok : remapInMemCacheEntries page hash taken nbs ∅ = .ok out) {f : String} (hapart : ApartIn taken f)
    {t : String} {p : Nat} (htag : ∀ q, p / nbs * nbs ≤ q → q ≤ p → TakenTag taken f t q) :
    ∃ len, p < p / nbs * nbs + len ∧ ⟨f, p / nbs * nbs, len⟩ ∈ out.map (·.1) := by
  obtain ⟨segs, hk, hkeys⟩ := remap_keys_unsized hn hroom ht hok f
  obtain ⟨h1, h2⟩ := block_bounds p hn
  obtain ⟨r, hr, _, hlo, hhi⟩ := (hk.runs ht).interval (show p / nbs * nbs < p + 1 by omega) fun q h3 h4 =>
    (hapart.segmentTag_iff ht hk).mpr (htag q h3 (by omega))
  refine ⟨min nbs (r.runEnd - p / nbs * nbs), by omega,
    (hkeys _ _).mpr ⟨r, hr, Nat.dvd_mul_left nbs _, hlo, by omega, ?_, by omega⟩⟩
  rw [Option.getD_none]

theorem ApartIn.of_disjoint {entries : List (InMemCacheBlock × InMemCacheDataEntry)}
    (h : entries.Pairwise DisjointInFile) (f : String) : ApartIn (asTaken entries) f :=
  List.pairwise_map.mpr (h.imp fun hab ha hb => hab (ha.trans hb.symm))

theorem exists_entry {entries : List (InMemCacheBlock × InMemCacheDataEntry)} {key : InMemCacheBlock}
    (h : key ∈ entries.map (·.1)) : ∃ e, (key, e) ∈ entries := by
  obtain ⟨⟨_, e⟩, hm, rfl⟩ := List.mem_map.mp h
  exact ⟨e, hm⟩

theorem takenAllOK_asTaken {slack' : Nat} (ht : TakenAllOK slack taken)
    (hnew : ∀ kv ∈ out, NewBlock page taken nbs kv) (hslack : slack' ≤ slack) :
    TakenAllOK slack' (asTaken out) := by
  intro kv hkv
  obtain ⟨⟨key, e⟩, hm, rfl⟩ := List.mem_map.mp hkv
  have hblock := hnew _ hm
  obtain ⟨bs, hlen, hdata⟩ := hblock.data
  have hpos := hblock.pos
  dsimp only at hlen hdata hpos
  refine ⟨e, rfl, ?_, ?_, by rw [hdata]; rfl, ?_⟩
  · rw [hdata, PageAlignedDataChunk.empty, filledChunk, if_neg (by omega)]
    simp only [Option.isNone_some, Bool.false_or, beq_eq_false_iff_ne]
    omega
  · rw [PageAlignedDataChunk.Filled, hdata, filledChunk_bytes hlen, hlen]
    rfl
  · -- The last byte is a taken one.
    obtain ⟨_, _, key', e', hm', _, _, h1, h2, _⟩ :=
      hblock.bytes (key.startOff + key.blkSize - 1) (by dsimp only; omega) (by dsimp only; omega)
    have := ht.noWrap hm'
    dsimp only
    omega

/-- On a grid the block size divides, the remap keeps every byte and its tag. -/
theorem takenByte_asTaken (hn : 0 < nbs) (hroom : nbs ≤ slack) (ht : TakenAllOK slack taken)
    (hok : remapInMemCacheEntries page hash taken nbs ∅ = .ok out)
    (hnew : ∀ kv ∈ out, NewBlock page taken nbs kv) {f : String} (hapart : ApartIn taken f)
    (hgrid : ∀ kv ∈ taken, nbs ∣ kv.1.startOff) {t : String} {p : Nat} {x : UInt8} :
    TakenByte (asTaken out) f t p x ↔ TakenByte taken f t p x := by
  have hback : TakenByte (asTaken out) f t p x → TakenByte taken f t p x := by
    rintro ⟨key, e, hm, rfl, rfl, h1, h2, hx⟩
    obtain ⟨x', hx', hbyte⟩ := (hnew _ (mem_asTaken.mp hm)).bytes p h1 h2
    dsimp only at hx' hbyte
    rw [hx] at hx'
    cases hx'
    exact hbyte
  refine ⟨hback, fun hbyte => ?_⟩
  obtain ⟨key, e, hm, hf, htag, h1, h2, _⟩ := id hbyte
  obtain ⟨h3, _⟩ := block_bounds p hn
  have hstart : key.startOff ≤ p / nbs * nbs := by
    obtain ⟨k, hk⟩ := hgrid _ hm
    dsimp only at hk
    rw [hk, Nat.mul_comm nbs k]
    refine Nat.mul_le_mul_right nbs ((Nat.le_div_iff_mul_le hn).mpr ?_)
    rw [Nat.mul_comm, ← hk]
    exact h1
  obtain ⟨len, hlt, hkey⟩ := exists_block hn hroom ht hok hapart (t := t) (p := p) fun q h4 h5 =>
    ⟨key, e, hm, hf, htag, by omega, by omega⟩
  obtain ⟨e', hm'⟩ := exists_entry hkey
  obtain ⟨x', hx', hbyte'⟩ := (hnew _ hm').bytes p h3 hlt
  obtain ⟨rfl, rfl⟩ := hapart.byte_unique hbyte hbyte'
  exact ⟨_, e', mem_asTaken.mpr hm', rfl, rfl, h3, hlt, hx'⟩

end Restore

/-- Entries on a grid: each in the block of its start, at most one a block. -/
structure OnBlockGrid (block : Nat) (entries : List (InMemCacheBlock × InMemCacheDataEntry)) : Prop where
  aligned : ∀ kv ∈ entries, block ∣ kv.1.startOff ∧ kv.1.blkSize ≤ block
  distinct : entries.Pairwise fun a b => a.1.fname = b.1.fname → a.1.startOff ≠ b.1.startOff

section Grid

variable {block : Nat} {entries : List (InMemCacheBlock × InMemCacheDataEntry)}

theorem OnBlockGrid.disjoint (h : OnBlockGrid block entries) : entries.Pairwise DisjointInFile := by
  refine h.distinct.imp_of_mem fun {a b} ha hb hne hf => ?_
  obtain ⟨ha1, ha2⟩ := h.aligned a ha
  obtain ⟨hb1, hb2⟩ := h.aligned b hb
  rcases Nat.lt_or_gt_of_ne (hne hf) with hlt | hgt
  · have := add_le_of_dvd_of_lt ha1 hb1 hlt
    exact .inl (by omega)
  · have := add_le_of_dvd_of_lt hb1 ha1 hgt
    exact .inr (by omega)

theorem OnBlockGrid.startOff_eq (h : OnBlockGrid block entries) {kv : InMemCacheBlock × InMemCacheDataEntry}
    (hm : kv ∈ entries) {b p : Nat} (hd : block ∣ b) (hb : b ≤ p) (hlt : p < b + block) (h1 : kv.1.startOff ≤ p)
    (h2 : p < kv.1.startOff + kv.1.blkSize) : kv.1.startOff = b := by
  obtain ⟨h3, h4⟩ := h.aligned kv hm
  rcases Nat.lt_trichotomy kv.1.startOff b with hlow | heq | hhigh
  · have := add_le_of_dvd_of_lt h3 hd hlow
    omega
  · exact heq
  · have := add_le_of_dvd_of_lt hd h3 hhigh
    omega

theorem OnBlockGrid.eq_of_startOff (h : OnBlockGrid block entries)
    {a b : InMemCacheBlock × InMemCacheDataEntry} (ha : a ∈ entries) (hb : b ∈ entries)
    (hf : a.1.fname = b.1.fname) (hs : a.1.startOff = b.1.startOff) : a = b := by
  by_contra hne
  have : Std.Symm fun a b : InMemCacheBlock × InMemCacheDataEntry =>
      a.1.fname = b.1.fname → a.1.startOff ≠ b.1.startOff := ⟨fun _ _ hab hf hs => hab hf.symm hs.symm⟩
  exact h.distinct.forall ha hb hne hf hs

/-- On the grid itself, an entry goes as far as its tag does in its block. -/
theorem OnBlockGrid.mem_iff {slack : Nat} (h : OnBlockGrid block entries)
    (ht : TakenAllOK slack (asTaken entries)) {f : String} {b len : Nat} :
    ⟨f, b, len⟩ ∈ entries.map (·.1) ↔ block ∣ b ∧ 0 < len ∧ len ≤ block ∧
      ∃ tag, (∀ p, b ≤ p → p < b + len → TakenTag (asTaken entries) f tag p) ∧
        (len = block ∨ ¬ TakenTag (asTaken entries) f tag (b + len)) := by
  constructor
  · intro hkey
    obtain ⟨e, hm⟩ := exists_entry hkey
    have hm' := mem_asTaken.mpr hm
    obtain ⟨hd, hle⟩ := h.aligned _ hm
    dsimp only at hd hle
    refine ⟨hd, ht.pos hm', hle, e.versionTag, fun p h1 h2 => ⟨_, e, hm', rfl, rfl, h1, h2⟩, ?_⟩
    rcases Nat.lt_or_ge len block with hlt | hge
    · right
      rintro ⟨key, e', hin, hf, _, h1, h2⟩
      have hstart := h.startOff_eq (mem_asTaken.mp hin) hd (by omega) (by omega) h1 h2
      cases h.eq_of_startOff (mem_asTaken.mp hin) hm hf hstart
      dsimp only at h2
      omega
    · left
      omega
  · rintro ⟨hd, hpos, hle, tag, htag, hstop⟩
    obtain ⟨key, e, hin, hf, ht', h1, h2⟩ := htag b (Nat.le_refl _) (by omega)
    have hm := mem_asTaken.mp hin
    have hstart := h.startOff_eq hm hd (Nat.le_refl _) (by omega) h1 h2
    obtain ⟨_, hmax⟩ := h.aligned _ hm
    obtain ⟨fname, startOff, blkSize⟩ := key
    dsimp only at hf h1 h2 hstart hmax
    subst hf hstart
    have hsize : blkSize = len := by
      rcases Nat.lt_trichotomy blkSize len with hlt | heq | hgt
      · -- The tag goes on past the entry, so there is another one in its block.
        obtain ⟨key', e', hin', hf', _, h3, h4⟩ := htag (startOff + blkSize) (by omega) (by omega)
        have hstart' := h.startOff_eq (mem_asTaken.mp hin') hd (by omega) (by omega) h3 h4
        cases h.eq_of_startOff (mem_asTaken.mp hin') hm hf' hstart'
        dsimp only at h4
        omega
      · exact heq
      · rcases hstop with rfl | hstop
        · omega
        · exact absurd ⟨_, e, hin, rfl, ht', by dsimp only; omega, by dsimp only; omega⟩ hstop
    subst hsize
    exact List.mem_map.mpr ⟨_, hm, rfl⟩

theorem entryView_eq {taken : TakenEntries} {key : InMemCacheBlock} {e e' : InMemCacheDataEntry}
    (hapart : ApartIn taken key.fname) (hpos : 0 < key.blkSize) (hlen : e.data.bytes.length = key.blkSize)
    (hlen' : e'.data.bytes.length = key.blkSize)
    (h : ∀ p, key.startOff ≤ p → p < key.startOff + key.blkSize →
      ∃ x, e.data.bytes[p - key.startOff]? = some x ∧ TakenByte taken key.fname e.versionTag p x)
    (h' : ∀ p, key.startOff ≤ p → p < key.startOff + key.blkSize →
      ∃ x, e'.data.bytes[p - key.startOff]? = some x ∧ TakenByte taken key.fname e'.versionTag p x) :
    entryView (key, e) = entryView (key, e') := by
  have htag : e.versionTag = e'.versionTag := by
    obtain ⟨x, _, hx⟩ := h key.startOff (Nat.le_refl _) (by omega)
    obtain ⟨x', _, hx'⟩ := h' key.startOff (Nat.le_refl _) (by omega)
    exact (hapart.byte_unique hx hx').1
  have hbytes : e.data.bytes = e'.data.bytes := by
    refine List.ext_getElem? fun i => ?_
    rcases Nat.lt_or_ge i key.blkSize with hlt | hge
    · obtain ⟨x, hx, hbyte⟩ := h (key.startOff + i) (by omega) (by omega)
      obtain ⟨x', hx', hbyte'⟩ := h' (key.startOff + i) (by omega) (by omega)
      rw [Nat.add_sub_cancel_left] at hx hx'
      rw [hx, hx', (hapart.byte_unique hbyte hbyte').2]
    · rw [List.getElem?_eq_none (by omega), List.getElem?_eq_none (by omega)]
  rw [entryView, entryView, htag, hbytes]

end Grid

/-- **To a finer grid and back.** Entries on the grid of `block`, cut on a
grid that divides it and put together again, are the same keys with the
same bytes and tags. -/
theorem shrink_restore (page : Nat) (hash hash' : HashOrder (Σ _ : String, Std.TreeMap Nat CachedSlice))
    (entries : List (InMemCacheBlock × InMemCacheDataEntry)) (finer block : Nat) (hblock : 0 < block)
    (hd : finer ∣ block) (ht : TakenAllOK (2 * block) (asTaken entries)) (hgrid : OnBlockGrid block entries) :
    ∃ out out', remapInMemCacheEntries page hash (asTaken entries) finer ∅ = .ok out ∧
      remapInMemCacheEntries page hash' (asTaken out) block ∅ = .ok out' ∧
      ∀ view, view ∈ out'.map entryView ↔ view ∈ entries.map entryView := by
  have hfiner : 0 < finer := Nat.pos_of_dvd_of_pos hd hblock
  have hle : finer ≤ block := Nat.le_of_dvd hblock hd
  have hnone : ∀ g, (∅ : AList fun _ : String => Nat).lookup g = none := fun g => AList.lookup_empty g
  have hroom : ∀ n, n ≤ block → ∀ g, Room n block ((∅ : AList fun _ : String => Nat).lookup g) := by
    intro n hn g
    rw [hnone]
    exact ⟨hn, fun h => by cases h⟩
  have ht₁ : TakenAllOK block (asTaken entries) := fun kv hkv => by
    obtain ⟨e, he, hok⟩ := ht kv hkv
    exact ⟨e, he, hok.nonempty, hok.filled, hok.length, by have := hok.noWrap; omega⟩
  obtain ⟨out, hok, hnew, hpw⟩ := remapInMemCacheEntries_spec page hash hfiner (hroom finer hle) ht₁
  have ht₂ : TakenAllOK block (asTaken out) := takenAllOK_asTaken ht₁ hnew (Nat.le_refl _)
  obtain ⟨out', hok', hnew', _⟩ := remapInMemCacheEntries_spec page hash' hblock (hroom block (Nat.le_refl _)) ht₂
  refine ⟨out, out', hok, hok', ?_⟩
  have hapart := ApartIn.of_disjoint hgrid.disjoint
  have hfine : ∀ kv ∈ asTaken entries, finer ∣ kv.1.startOff := by
    intro kv hkv
    obtain ⟨kv', hm, rfl⟩ := List.mem_map.mp hkv
    exact Nat.dvd_trans hd (hgrid.aligned kv' hm).1
  have hbyte : ∀ {f t : String} {p : Nat} {x : UInt8},
      TakenByte (asTaken out) f t p x ↔ TakenByte (asTaken entries) f t p x := fun {f _ _ _} =>
    takenByte_asTaken hfiner hle ht₁ hok hnew (hapart f) hfine
  have htag : ∀ f t p, TakenTag (asTaken out) f t p ↔ TakenTag (asTaken entries) f t p := by
    intro f t p
    constructor
    · intro h
      obtain ⟨x, hx⟩ := h.byte ht₂
      exact (hbyte.mp hx).tag
    · intro h
      obtain ⟨x, hx⟩ := h.byte ht₁
      exact (hbyte.mpr hx).tag
  -- The keys are the same, and each key says what its entry is.
  have hkeys : ∀ key : InMemCacheBlock, key ∈ out'.map (·.1) ↔ key ∈ entries.map (·.1) := by
    rintro ⟨f, b, len⟩
    rw [hgrid.mem_iff ht₁, remap_keys_apart hblock (Nat.le_refl _) ht₂ hok' (ApartIn.of_disjoint hpw f)]
    simp only [htag]
  have hview : ∀ {key : InMemCacheBlock} {e e' : InMemCacheDataEntry}, (key, e') ∈ out' → (key, e) ∈ entries →
      entryView (key, e') = entryView (key, e) := by
    intro key e e' hm' hm
    have hblk := hnew' _ hm'
    obtain ⟨bs, hlen, hdata⟩ := hblk.data
    obtain ⟨e₁, he₁, hok₁⟩ := ht₁ _ (mem_asTaken.mpr hm)
    cases he₁
    have hsize : e.data.bytes.length = key.blkSize := hok₁.filled.trans hok₁.length
    dsimp only at hlen hdata
    refine entryView_eq (hapart key.fname) hblk.pos (by rw [hdata, filledChunk_bytes hlen, hlen]) hsize
      (fun p h1 h2 => ?_) (fun p h1 h2 => ?_)
    · obtain ⟨x, hx, hb⟩ := hblk.bytes p h1 h2
      exact ⟨x, hx, hbyte.mp hb⟩
    · have hlt : p - key.startOff < e.data.bytes.length := by omega
      exact ⟨_, List.getElem?_eq_getElem hlt, key, e, mem_asTaken.mpr hm, rfl, rfl, h1, h2,
        List.getElem?_eq_getElem hlt⟩
  intro view
  constructor
  · intro hv
    obtain ⟨⟨key, e'⟩, hm', rfl⟩ := List.mem_map.mp hv
    obtain ⟨e, hm⟩ := exists_entry ((hkeys key).mp (List.mem_map.mpr ⟨_, hm', rfl⟩))
    exact List.mem_map.mpr ⟨_, hm, (hview hm' hm).symm⟩
  · intro hv
    obtain ⟨⟨key, e⟩, hm, rfl⟩ := List.mem_map.mp hv
    obtain ⟨e', hm'⟩ := exists_entry ((hkeys key).mpr (List.mem_map.mpr ⟨_, hm, rfl⟩))
    exact List.mem_map.mpr ⟨_, hm', hview hm' hm⟩

/-- Two blocks of a file, the second a short one, and a gap after the first. -/
def gridEntries : List (InMemCacheBlock × InMemCacheDataEntry) :=
  [(⟨"f", 0, 4⟩, ⟨⟨some [1, 2, 3, 4], 4, 4096⟩, "v"⟩), (⟨"f", 8, 3⟩, ⟨⟨some [9, 10, 11], 3, 4096⟩, "v"⟩)]

theorem shrink_restore_two :
    ∃ out out', remapInMemCacheEntries 4096 .inserted (asTaken gridEntries) 2 ∅ = .ok out ∧
      remapInMemCacheEntries 4096 .inserted (asTaken out) 4 ∅ = .ok out' ∧ out.length = 4 ∧
      ∀ view, view ∈ out'.map entryView ↔ view ∈ gridEntries.map entryView := by
  have hok : TakenAllOK (2 * 4) (asTaken gridEntries) := by
    intro kv hkv
    simp only [asTaken, gridEntries, List.map_cons, List.map_nil, List.mem_cons, List.not_mem_nil,
      or_false] at hkv
    rcases hkv with rfl | rfl
    · exact ⟨_, rfl, by decide, by decide, rfl, by decide⟩
    · exact ⟨_, rfl, by decide, by decide, rfl, by decide⟩
  obtain ⟨out, out', h, h', hview⟩ :=
    shrink_restore 4096 .inserted .inserted gridEntries 2 4 (by decide) (by decide) hok
    ⟨by decide, by decide⟩
  have hlen : (remapInMemCacheEntries 4096 .inserted (asTaken gridEntries) 2 ∅).map List.length = .ok 4 := by
    decide +kernel
  rw [h] at hlen
  exact ⟨out, out', h, h', Except.ok.inj hlen, hview⟩

end ReadCacheFs
