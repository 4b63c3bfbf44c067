/-
Entries that overlap. Of the entries of a file the remap keeps the first
listed at each offset, and of those the ones that do not start before one
it keeps ends. A block of the new grid that is whole in an entry it drops
is lost unless entries it keeps have it under one tag.

An in-memory storage comes to hold such entries when the block size goes up
and down again: a short block of the old grid stays under its own key beside
the longer one that is read at the same offset.
-/
import ReadCacheFs.CacheFileSystem
import ReadCacheFs.RemapExact

namespace ReadCacheFs

open Lib

/-- The entry is the first listed at its offset, and starts in no entry
that is kept before it. -/
def Kept (taken : TakenEntries) (key : InMemCacheBlock) : Prop :=
  (firstAt taken key.fname key.startOff).map (·.1) = some key ∧
    ∀ kv ∈ taken, kv.1.fname = key.fname → kv.1.startOff < key.startOff → Kept taken kv.1 →
      kv.1.startOff + kv.1.blkSize ≤ key.startOff
termination_by key.startOff

/-- Kept entries of one file and tag, back to back from `a` to `c`. -/
structure KeptChain (taken : TakenEntries) (f tag : String)
    (entries : List (InMemCacheBlock × InMemCacheDataEntry)) (a c : Nat) : Prop where
  source : ∀ kv ∈ entries, firstAt taken f kv.1.startOff = some (kv.1, some kv.2) ∧ Kept taken kv.1 ∧
    kv.2.versionTag = tag
  tiles : Tiles a c (entries.map blockRange)

/-- A block of the grid whole in a taken entry is among the keys emitted. -/
def KeepsBlocks (page : Nat) (hash : HashOrder (Σ _ : String, Std.TreeMap Nat CachedSlice)) (taken : TakenEntries)
    (block : Nat) : Prop :=
  ∀ key e, (key, some e) ∈ taken → ∀ b, block ∣ b → key.startOff ≤ b → b + block ≤ key.startOff + key.blkSize →
    ∃ out, remapInMemCacheEntries page hash taken block ∅ = .ok out ∧ ⟨key.fname, b, block⟩ ∈ out.map (·.1)

/-- A block of the grid whole in an entry that is dropped is in kept entries of one tag, back to back. -/
def DroppedBlocksCovered (taken : TakenEntries) (block : Nat) : Prop :=
  ∀ key e, (key, some e) ∈ taken → ¬ Kept taken key → ∀ b, block ∣ b → key.startOff ≤ b →
    b + block ≤ key.startOff + key.blkSize →
    ∃ tag entries a c, KeptChain taken key.fname tag entries a c ∧ a ≤ b ∧ b + block ≤ c

section Kept

variable {slack : Nat} {taken : TakenEntries} {f : String} {segs : List Segment}

theorem KeptOf.mem_iff_kept (ht : TakenAllOK slack taken) (hk : KeptOf taken f segs) (seg : Segment) :
    seg ∈ segs ↔ firstAt taken f seg.start = some (⟨f, seg.start, seg.byteLen⟩, some seg.entry) ∧
      Kept taken ⟨f, seg.start, seg.byteLen⟩ := by
  induction hs : seg.start using Nat.strong_induction_on generalizing seg with
  | _ n ih =>
    subst hs
    rw [hk.mem_iff]
    refine and_congr_right fun hfirst => ?_
    rw [Kept]
    constructor
    · intro hclear
      refine ⟨by rw [hfirst]; rfl, fun kv hkv hf hlt hkept => ?_⟩
      obtain ⟨⟨g, startOff, blkSize⟩, v⟩ := kv
      dsimp only at hf hlt hkept
      subst hf
      -- What is listed first there is a segment, so it is clear of this one.
      have hat := hkept
      rw [Kept] at hat
      obtain ⟨⟨key', v'⟩, hfirst', hkey⟩ := Option.map_eq_some_iff.mp hat.1
      dsimp only at hkey hfirst'
      subst hkey
      obtain ⟨e, he, _⟩ := ht _ (firstAt_some hfirst').1
      dsimp only at he
      subst he
      exact hclear ⟨startOff, blkSize, e⟩ ((ih startOff hlt ⟨startOff, blkSize, e⟩ rfl).mpr ⟨hfirst', hkept⟩) hlt
    · rintro ⟨_, hclear⟩ seg' hs' hlt
      exact hclear _ (hk.mem_taken hs') rfl hlt ((ih seg'.start hlt seg' rfl).mp hs').2

end Kept

/-- **What the remap loses.** Whatever entries that end before `2^63` are
taken, the remap keeps every block of the new grid that is whole in one of
them if and only if those in entries it drops are in kept ones as well. -/
theorem remap_keepsBlocks_iff (page : Nat) (hash : HashOrder (Σ _ : String, Std.TreeMap Nat CachedSlice))
    (taken : TakenEntries) (block : Nat) (hblock : 0 < block) (ht : TakenAllOK (2 ^ 63) taken) :
    KeepsBlocks page hash taken block ↔ DroppedBlocksCovered taken block := by
  rcases Nat.lt_or_ge (2 ^ 63) block with hwide | hle
  · -- No entry has room for a block.
    have hroom : ∀ {key : InMemCacheBlock} {e : InMemCacheDataEntry} {b : Nat}, (key, some e) ∈ taken →
        ¬ b + block ≤ key.startOff + key.blkSize := by
      intro key e b hm hin
      have := ht.noWrap hm
      omega
    exact ⟨fun _ _ _ hm _ _ _ _ hin => absurd hin (hroom hm), fun _ _ _ hm _ _ _ hin => absurd hin (hroom hm)⟩
  have hroom : ∀ g, Room block (2 ^ 63) ((∅ : AList fun _ : String => Nat).lookup g) := by
    intro g
    rw [AList.lookup_empty]
    exact ⟨hle, fun h => by cases h⟩
  obtain ⟨out, hok, _, _⟩ := remapInMemCacheEntries_spec page hash hblock hroom ht
  -- A key of a whole block is emitted where one run is around the block.
  have hrun : ∀ f, ∃ segs, KeptOf taken f segs ∧ ∀ b, block ∣ b →
      (⟨f, b, block⟩ ∈ out.map (·.1) ↔ ∃ r ∈ runsOf segs, r.runStart ≤ b ∧ b + block ≤ r.runEnd) := by
    intro f
    obtain ⟨segs, hk, hkeys⟩ := remap_keys_unsized hblock hle ht hok f
    refine ⟨segs, hk, fun b hd => ?_⟩
    rw [hkeys]
    constructor
    · rintro ⟨r, hr, hcut⟩
      exact ⟨r, hr, hcut.low, hcut.high⟩
    · rintro ⟨r, hr, hlo, hhi⟩
      refine ⟨r, hr, hd, hlo, by omega, ?_, hhi⟩
      rw [Option.getD_none]
      omega
  constructor
  · intro hkeep key e hm _ b hd hlo hhi
    obtain ⟨out', hok', hmem⟩ := hkeep key e hm b hd hlo hhi
    rw [hok] at hok'
    cases hok'
    obtain ⟨segs, hk, hkeys⟩ := hrun key.fname
    obtain ⟨r, hr, h1, h2⟩ := (hkeys b hd).mp hmem
    have hover := (hk.runs ht).whole r hr
    refine ⟨r.runTag, r.runSegments.map fun seg => (⟨key.fname, seg.start, seg.byteLen⟩, seg.entry),
      r.runStart, r.runEnd,
      ⟨?_, ?_⟩, h1, h2⟩
    · intro kv hkv
      obtain ⟨seg, hs, rfl⟩ := List.mem_map.mp hkv
      obtain ⟨hin, htag⟩ := hover.source seg hs
      obtain ⟨hfirst, hkept⟩ := (hk.mem_iff_kept ht seg).mp hin
      exact ⟨hfirst, hkept, htag⟩
    · rw [List.map_map]
      exact hover.tiles
  · intro hcover key e hm b hd hlo hhi
    refine ⟨out, hok, ?_⟩
    obtain ⟨segs, hk, hkeys⟩ := hrun key.fname
    have hruns := hk.runs ht
    rw [hkeys b hd]
    by_cases hkept : Kept taken key
    · have hat := hkept
      rw [Kept] at hat
      obtain ⟨⟨key', v⟩, hfirst, hkey⟩ := Option.map_eq_some_iff.mp hat.1
      dsimp only at hkey
      subst hkey
      obtain ⟨e', he', _⟩ := ht _ (firstAt_some hfirst).1
      dsimp only at he'
      subst he'
      have hs := (hk.mem_iff_kept ht ⟨key'.startOff, key'.blkSize, e'⟩).mpr ⟨hfirst, hkept⟩
      obtain ⟨r, hr, h1, h2, _⟩ := hruns.run_of_mem hs
      dsimp only at h1 h2
      exact ⟨r, hr, by omega, by omega⟩
    · obtain ⟨tag, entries, a, c, hchain, h1, h2⟩ := hcover key e hm hkept b hd hlo hhi
      have htag : ∀ p, b ≤ p → p < b + block → SegmentTag segs p tag := by
        intro p h3 h4
        obtain ⟨q, hq, h5, h6⟩ := hchain.tiles.cover (show a ≤ p by omega) (by omega)
        obtain ⟨kv, hkv, rfl⟩ := List.mem_map.mp hq
        obtain ⟨hfirst, hkept', ht'⟩ := hchain.source kv hkv
        obtain ⟨_, hf, _⟩ := firstAt_some hfirst
        obtain ⟨⟨g, startOff, blkSize⟩, e'⟩ := kv
        dsimp only at hf hfirst hkept' ht'
        subst hf
        exact ⟨_, (hk.mem_iff_kept ht ⟨startOff, blkSize, e'⟩).mpr ⟨hfirst, hkept'⟩, h5, h6, ht'⟩
      obtain ⟨r, hr, _, h3, h4⟩ := hruns.interval (by omega) htag
      exact ⟨r, hr, h3, h4⟩

theorem remap_keepsBlocks_iff_adjacent : KeepsBlocks 4096 .inserted adjacentEntries 2 := by
  have hok : TakenAllOK (2 ^ 63) adjacentEntries := by
    intro kv hkv
    simp only [adjacentEntries, List.mem_cons, List.not_mem_nil, or_false] at hkv
    rcases hkv with rfl | rfl
    · exact ⟨_, rfl, by decide, by decide, rfl, by decide⟩
    · exact ⟨_, rfl, by decide, by decide, rfl, by decide⟩
  refine (remap_keepsBlocks_iff 4096 .inserted adjacentEntries 2 (by decide) hok).mpr fun key e hm hnot =>
    absurd ?_ hnot
  simp only [adjacentEntries, List.mem_cons, List.not_mem_nil, or_false] at hm
  rcases hm with he | he
  · cases he
    rw [Kept]
    exact ⟨by decide, by simp [adjacentEntries]⟩
  · cases he
    rw [Kept]
    exact ⟨by decide, by simp [adjacentEntries]⟩

/-! ## How it comes about -/

def twelveBytes : World := ⟨fun path => if path = "f" then List.replicate 12 7 else [],
      linuxPlatform knownSha256, 4096⟩

def remapConfig : InstanceConfig :=
  { cacheBlockSize := 4, cacheType := .inMem, onDiskCacheDirectories := [], enableDiskReaderMemCache := false
    diskReaderMaxMemCacheBlockCount := 0, diskReaderMaxMemCacheTimeoutMillisec := 0, maxInMemCacheBlockCount := 0
    inMemCacheBlockTimeoutMillisec := 0, inMemCacheStorage := .extension, policyOptions := { evictionPolicy := .lru }
    chunking := .fixed, enableCacheValidation := false }

def plainRemapEnv : RemapEnv := ⟨4096, .inserted, .inserted, fun _ => 0, fun _ => 0, fun _ => []⟩

/-- Four bytes read on a grid of 4, and eight at the same offset after the grid has grown to 8. -/
def growingReads : List FsAct :=
  [.openFile "f", .readAt 0 (List.replicate 4 0) 4 0 {}, .setCacheBlockSize 8 plainRemapEnv plainRemapEnv,
    .readAt 0 (List.replicate 8 0) 8 0 {}]

/-- What the in-memory storage has to give at the end of a run. -/
def takenAfter (w : World) (fs : CacheFileSystem) (acts : List FsAct) : Except Fault TakenEntries := do
  let fs ← acts.foldlM (fsStep w) fs
  match fs.inMemStorage with
  | none => .ok []
  | some storage => (storage.take plainRemapEnv.clock plainRemapEnv.policyHash).map fun (taken, _) => asTaken taken

/-- Both blocks at offset 0 are held, and back on a grid of 4 the second half of the longer one is gone. -/
theorem remap_loses_block :
    ∃ taken, takenAfter twelveBytes { config := remapConfig } growingReads = .ok taken ∧
      TakenAllOK (2 ^ 63) taken ∧
      ¬ KeepsBlocks 4096 .inserted taken 4 := by
  have htaken : takenAfter twelveBytes { config := remapConfig } growingReads =
      .ok [(⟨"f", 0, 4⟩, some ⟨⟨some [7, 7, 7, 7], 4, 4096⟩, ""⟩),
        (⟨"f", 0, 8⟩, some ⟨⟨some [7, 7, 7, 7, 7, 7, 7, 7], 8, 4096⟩, ""⟩)] := by decide +kernel
  refine ⟨_, htaken, fun kv hkv => ?_, fun hkeep => ?_⟩
  · simp only [List.mem_cons, List.not_mem_nil, or_false] at hkv
    rcases hkv with rfl | rfl
    · exact ⟨_, rfl, by decide, by decide, rfl, by decide⟩
    · exact ⟨_, rfl, by decide, by decide, rfl, by decide⟩
  · obtain ⟨out, hok, hm⟩ :=
      hkeep ⟨"f", 0, 8⟩ _ (List.mem_cons_of_mem _ List.mem_cons_self) 4 (by decide) (by decide) (by decide)
    have hkeys : (remapInMemCacheEntries 4096 .inserted [(⟨"f", 0, 4⟩, some ⟨⟨some [7, 7, 7, 7], 4, 4096⟩, ""⟩),
        (⟨"f", 0, 8⟩, some ⟨⟨some [7, 7, 7, 7, 7, 7, 7, 7], 8, 4096⟩, ""⟩)] 4 ∅).map (List.map (·.1)) =
        .ok [⟨"f", 0, 4⟩] := by decide +kernel
    rw [hok] at hkeys
    rw [Except.ok.inj hkeys] at hm
    revert hm
    decide

end ReadCacheFs
