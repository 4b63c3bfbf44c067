/-
The keys the remap emits. `emitRunOnNewGrid_keys` says which, run by run;
the file index is what the list of taken entries has first at each offset
(`buildFileIndex_first`), so the keys of a file are those of the runs of
the entries kept of it (`remap_keys`).
-/
import ReadCacheFs.Lib.Runs
import ReadCacheFs.RemapRuns

namespace ReadCacheFs

open Lib

/-! ## Cutting a run, key by key -/

/-- A block at `b` of length `len` is cut from the run. -/
structure Run.Cuts (nbs : Nat) (fileSize : Option Nat) (r : Run) (b len : Nat) : Prop where
  dvd : nbs ∣ b
  low : r.runStart ≤ b
  before : b < r.runEnd
  /-- Up to the end of the file; of the run, if that is not known. -/
  len_eq : len = min nbs (fileSize.getD r.runEnd - b)
  high : b + len ≤ r.runEnd

theorem alignUpToBlock_le_iff {x n b : Nat} (hn : 0 < n) (h : x + n < 2 ^ 64) (hd : n ∣ b) :
    alignUpToBlock x n ≤ b ↔ x ≤ b := by
  obtain ⟨h1, h2, h3⟩ := alignUpToBlock_spec hn h
  refine ⟨fun hle => by omega, fun hle => ?_⟩
  by_contra hlt
  -- Both are multiples, less than one block apart.
  have := Nat.le_of_dvd (by omega) (Nat.dvd_sub h3 hd)
  omega

theorem add_le_of_dvd_of_lt {b c n : Nat} (hb : n ∣ b) (hc : n ∣ c) (hlt : b < c) : b + n ≤ c := by
  have := Nat.le_of_dvd (by omega) (Nat.dvd_sub hc hb)
  omega

section Emit

variable (page : Nat) {nbs slack : Nat} {taken : TakenEntries} {f : String} {run : Run}

theorem emitWholeBlocks_keys (h : RunOK taken slack f run) (ht : TakenAllOK slack taken) (hn : 0 < nbs)
    (hroom : 2 * nbs ≤ slack) {out : List (InMemCacheBlock × InMemCacheDataEntry)} {fuel b : Nat} (hd : nbs ∣ b)
    (hlo : run.runStart ≤ b) (hb : b ≤ run.runEnd + nbs) (hok : emitWholeBlocks page f run nbs fuel b = .ok out)
    (c len : Nat) : ⟨f, c, len⟩ ∈ out.map (·.1) ↔ nbs ∣ c ∧ b ≤ c ∧ len = nbs ∧ c + nbs ≤ run.runEnd := by
  induction fuel generalizing b out with
  | zero => cases hok
  | succ fuel ih =>
    have hw := h.noWrap
    rw [emitWholeBlocks, u64_eq (by omega)] at hok
    split at hok
    next hle =>
      obtain ⟨blk, hblk, hok⟩ := except_bind_eq_ok.mp hok
      obtain ⟨rest, hrest, hok⟩ := except_bind_eq_ok.mp hok
      cases hok
      obtain ⟨e, he, _⟩ := emitBlock_spec page h ht hlo hle hd hn (Nat.le_refl _)
      rw [he] at hblk
      cases hblk
      rw [List.map_cons, List.mem_cons, ih (Nat.dvd_add hd (Nat.dvd_refl nbs)) (by omega) (by omega) hrest]
      constructor
      · rintro (heq | ⟨h1, h2, h3, h4⟩)
        · cases heq
          exact ⟨hd, Nat.le_refl _, rfl, hle⟩
        · exact ⟨h1, by omega, h3, h4⟩
      · rintro ⟨h1, h2, rfl, h4⟩
        rcases Nat.eq_or_lt_of_le h2 with rfl | hlt
        · exact .inl rfl
        · exact .inr ⟨h1, add_le_of_dvd_of_lt hd h1 hlt, rfl, h4⟩
    next hgt =>
      cases hok
      constructor
      · intro hm
        cases hm
      · rintro ⟨-, h2, -, h4⟩
        omega

theorem emitPieces_keys (h : RunOK taken slack f run) (ht : TakenAllOK slack taken) (hn : 0 < nbs)
    (hroom : nbs ≤ slack) {emitEnd : Nat} (he : emitEnd ≤ run.runEnd)
    {out : List (InMemCacheBlock × InMemCacheDataEntry)} {fuel b : Nat} (hd : nbs ∣ b)
    (hlo : run.runStart ≤ b) (hok : emitPieces page f run nbs emitEnd fuel b = .ok out) (c len : Nat) :
    ⟨f, c, len⟩ ∈ out.map (·.1) ↔ nbs ∣ c ∧ b ≤ c ∧ c < emitEnd ∧ len = min nbs (emitEnd - c) := by
  induction fuel generalizing b out with
  | zero => cases hok
  | succ fuel ih =>
    have hw := h.noWrap
    rw [emitPieces] at hok
    split at hok
    next hlt =>
      generalize hp : min nbs (emitEnd - b) = piece at hok
      obtain ⟨blk, hblk, hok⟩ := except_bind_eq_ok.mp hok
      obtain ⟨rest, hrest, hok⟩ := except_bind_eq_ok.mp hok
      cases hok
      obtain ⟨e, hemit, _⟩ := emitBlock_spec page h ht hlo (show b + piece ≤ run.runEnd by omega) hd
        (by omega) (by omega)
      rw [hemit] at hblk
      cases hblk
      rw [u64_eq (by omega)] at hrest
      obtain ⟨h1, h2, h3⟩ := alignUpToBlock_spec (x := b + piece) hn (by omega)
      rw [List.map_cons, List.mem_cons, ih h3 (by omega) hrest]
      have hnext : ∀ d, nbs ∣ d → d < emitEnd → (alignUpToBlock (b + piece) nbs ≤ d ↔ b < d) := by
        intro d hdvd hdlt
        rw [alignUpToBlock_le_iff hn (by omega) hdvd]
        refine ⟨fun hle => by omega, fun hbd => ?_⟩
        have := add_le_of_dvd_of_lt hd hdvd hbd
        omega
      constructor
      · rintro (heq | ⟨h4, h5, h6, h7⟩)
        · cases heq
          exact ⟨hd, Nat.le_refl _, hlt, hp.symm⟩
        · have := (hnext c h4 h6).mp h5
          exact ⟨h4, by omega, h6, h7⟩
      · rintro ⟨h4, h5, h6, h7⟩
        rcases Nat.eq_or_lt_of_le h5 with rfl | hbc
        · left
          rw [h7, hp]
        · exact .inr ⟨h4, (hnext c h4 h6).mpr hbc, h6, h7⟩
    next hge =>
      cases hok
      constructor
      · intro hm
        cases hm
      · rintro ⟨-, h2, h3, -⟩
        omega

/-- The keys of one run, which ends inside the file. -/
theorem emitRunOnNewGrid_keys (h : RunOK taken slack f run) (ht : TakenAllOK slack taken) (hn : 0 < nbs)
    {fileSize : Option Nat} (hroom : Room nbs slack fileSize)
    (hin : ∀ n, fileSize = some n → run.runEnd ≤ n) {out : List (InMemCacheBlock × InMemCacheDataEntry)}
    (hok : emitRunOnNewGrid page f run nbs fileSize = .ok out) (c len : Nat) :
    ⟨f, c, len⟩ ∈ out.map (·.1) ↔ run.Cuts nbs fileSize c len := by
  have hw := h.noWrap
  have hne := h.nonempty
  have hone := hroom.one
  obtain ⟨h1, h2, h3⟩ := alignUpToBlock_spec (x := run.runStart) hn (by omega)
  have hfirst : ∀ d, nbs ∣ d → (alignUpToBlock run.runStart nbs ≤ d ↔ run.runStart ≤ d) := fun d hd =>
    alignUpToBlock_le_iff hn (by omega) hd
  have hpieces : run.emitEnd fileSize = run.runEnd → fileSize.getD run.runEnd = run.runEnd →
      emitPieces page f run nbs (run.emitEnd fileSize) loopBound (alignUpToBlock run.runStart nbs) = .ok out →
      (⟨f, c, len⟩ ∈ out.map (·.1) ↔ run.Cuts nbs fileSize c len) := by
    intro hend hsize hok
    rw [hend] at hok
    rw [emitPieces_keys page h ht hn hone (Nat.le_refl _) h3 h1 hok]
    constructor
    · rintro ⟨h4, h5, h6, h7⟩
      exact ⟨h4, (hfirst c h4).mp h5, h6, by rw [hsize, h7], by omega⟩
    · rintro ⟨h4, h5, h6, h7, _⟩
      exact ⟨h4, (hfirst c h4).mpr h5, h6, by rw [h7, hsize]⟩
  unfold emitRunOnNewGrid at hok
  dsimp only at hok
  cases fileSize with
  | none =>
    rw [Run.emitEnd, if_neg (by omega), if_neg (by simp)] at hok
    exact hpieces rfl rfl hok
  | some n =>
    have hle := hin n rfl
    have hend : run.emitEnd (some n) = run.runEnd := Nat.min_eq_left hle
    rw [hend, if_neg (by omega)] at hok
    split at hok
    next hlt =>
      have hlt : run.runEnd < n := by simpa using hlt
      rw [emitWholeBlocks_keys page h ht hn (hroom.two rfl) h3 h1 (by omega) hok]
      constructor
      · rintro ⟨h4, h5, rfl, h7⟩
        exact ⟨h4, (hfirst c h4).mp h5, by omega, by simp only [Option.getD_some]; omega, h7⟩
      · rintro ⟨h4, h5, h6, h7, h8⟩
        rw [Option.getD_some] at h7
        exact ⟨h4, (hfirst c h4).mpr h5, by omega, by omega⟩
    next hge =>
      have heq : n = run.runEnd := by
        simp only [Option.any_some, decide_eq_true_eq] at hge
        omega
      subst heq
      rw [← hend] at hok
      exact hpieces hend rfl hok

end Emit

/-! ## The index -/

/-- The first entry listed for an offset of a file. -/
def firstAt (taken : TakenEntries) (f : String) (s : Nat) :
    Option (InMemCacheBlock × Option InMemCacheDataEntry) :=
  taken.find? fun kv => decide (kv.1.fname = f ∧ kv.1.startOff = s)

theorem firstAt_some {taken : TakenEntries} {f : String} {s : Nat} {key : InMemCacheBlock}
    {v : Option InMemCacheDataEntry} (h : firstAt taken f s = some (key, v)) :
    (key, v) ∈ taken ∧ key.fname = f ∧ key.startOff = s := by
  refine ⟨List.mem_of_find?_eq_some h, ?_⟩
  simpa using List.find?_some h

namespace FileIndex

/-- The slice at an offset of a file. -/
def sliceAt (byFile : FileIndex) (f : String) (s : Nat) : Option CachedSlice := (byFile.lookup f).bind (·[s]?)

theorem sliceAt_emplace (byFile : FileIndex) (key : InMemCacheBlock) (sl : CachedSlice) (f : String) (s : Nat) :
    (byFile.emplace key sl).sliceAt f s =
      (byFile.sliceAt f s).or (if key.fname = f ∧ key.startOff = s then some sl else none) := by
  unfold sliceAt emplace
  by_cases hf : f = key.fname
  · subst hf
    rw [AList.lookup_insert, Option.bind_some, Std.TreeMap.getElem?_insertIfNew]
    have hold : ((byFile.lookup key.fname).getD ∅)[s]? = (byFile.lookup key.fname).bind (·[s]?) := by
      cases byFile.lookup key.fname with
      | none => simp
      | some m => rfl
    have hmem : key.startOff ∈ (byFile.lookup key.fname).getD ∅ ↔
        (((byFile.lookup key.fname).getD ∅)[key.startOff]?).isSome := Std.TreeMap.mem_iff_isSome_getElem?
    simp only [hmem, Std.compare_eq_iff_eq]
    by_cases hs : key.startOff = s
    · subst hs
      rw [← hold]
      cases ((byFile.lookup key.fname).getD ∅)[key.startOff]? with
      | none => simp
      | some sl' => simp
    · simp [hs, hold]
  · rw [AList.lookup_insert_ne hf, if_neg fun h => hf h.1.symm, Option.or_none]

end FileIndex

/-- The index has, at each offset, the first entry listed for it. -/
theorem buildFileIndex_first {slack : Nat} {taken : TakenEntries} (ht : TakenAllOK slack taken)
    {byFile : FileIndex} (hb : buildFileIndex taken = .ok byFile) (f : String) (s : Nat) :
    byFile.sliceAt f s = (firstAt taken f s).map fun kv => ⟨kv.1.blkSize, kv.2⟩ := by
  suffices h : ∀ (l done : TakenEntries) (byFile byFile' : FileIndex), (∀ kv ∈ l, kv ∈ taken) →
      (∀ f s, byFile.sliceAt f s = (firstAt done f s).map fun kv => ⟨kv.1.blkSize, kv.2⟩) →
      l.foldlM FileIndex.add byFile = .ok byFile' →
      ∀ f s, byFile'.sliceAt f s = (firstAt (done ++ l) f s).map fun kv => ⟨kv.1.blkSize, kv.2⟩ from
    h taken [] ∅ byFile (fun _ h => h) (fun f s => by simp [FileIndex.sliceAt, firstAt]) hb f s
  intro l
  induction l with
  | nil =>
    intro done byFile byFile' _ hinv hrun
    cases hrun
    rwa [List.append_nil]
  | cons kv l ih =>
    intro done byFile byFile' hl hinv hrun
    obtain ⟨e, he, hok⟩ := ht kv (hl kv (by simp))
    obtain ⟨key, v⟩ := kv
    dsimp only at he
    subst he
    rw [List.foldlM_cons, FileIndex.add, if_neg (by simp [hok.nonempty]), if_neg (by simp [hok.length])] at hrun
    have hnext := ih (done ++ [(key, some e)]) _ byFile' (fun q hq => hl q (by simp [hq])) (fun f s => ?_) hrun
    · rwa [List.append_assoc] at hnext
    · rw [FileIndex.sliceAt_emplace, hinv, firstAt, firstAt, List.find?_append]
      cases done.find? fun kv => decide (kv.1.fname = f ∧ kv.1.startOff = s) with
      | some q => rfl
      | none =>
        by_cases hk : key.fname = f ∧ key.startOff = s
        · simp [hk]
        · simp [hk]

/-! ## All files -/

/-- The segments kept of a file: the first entry listed for an offset,
unless it starts before one that is kept ends. -/
structure KeptOf (taken : TakenEntries) (f : String) (segs : List Segment) : Prop where
  ascending : Ascending 0 (2 ^ 64) (segs.map Segment.range)
  mem_iff : ∀ seg : Segment, seg ∈ segs ↔
    firstAt taken f seg.start = some (⟨f, seg.start, seg.byteLen⟩, some seg.entry) ∧
      ∀ seg' ∈ segs, seg'.start < seg.start → seg'.start + seg'.byteLen ≤ seg.start

section Files

variable {page nbs slack : Nat} {taken : TakenEntries} {f : String} {segs : List Segment}
  {sizes : AList fun _ : String => Nat} {out : List (InMemCacheBlock × InMemCacheDataEntry)}

theorem TakenAllOK.noWrap (ht : TakenAllOK slack taken) {key : InMemCacheBlock} {v : Option InMemCacheDataEntry}
    (h : (key, v) ∈ taken) : key.startOff + key.blkSize + slack < 2 ^ 64 := by
  obtain ⟨_, _, hok⟩ := ht _ h
  exact hok.noWrap

theorem TakenAllOK.pos (ht : TakenAllOK slack taken) {key : InMemCacheBlock} {v : Option InMemCacheDataEntry}
    (h : (key, v) ∈ taken) : 0 < key.blkSize := by
  obtain ⟨e, _, hok⟩ := ht _ h
  have hne := hok.nonempty
  rw [PageAlignedDataChunk.empty, Bool.or_eq_false_iff, beq_eq_false_iff_ne, hok.length] at hne
  exact Nat.pos_of_ne_zero hne.2

theorem KeptOf.mem_taken (h : KeptOf taken f segs) {seg : Segment} (hs : seg ∈ segs) :
    (⟨f, seg.start, seg.byteLen⟩, some seg.entry) ∈ taken := (firstAt_some ((h.mem_iff seg).mp hs).1).1

theorem KeptOf.runs (h : KeptOf taken f segs) (ht : TakenAllOK slack taken) : Runs segs (runsOf segs) :=
  runsOf_spec (fun _ hs => ht.pos (h.mem_taken hs)) h.ascending

/-- The runs of what is kept are as `RunOK` has them. -/
theorem KeptOf.runOK (h : KeptOf taken f segs) (ht : TakenAllOK slack taken) {r : Run} (hr : r.Over segs) :
    RunOK taken slack f r := by
  refine ⟨hr.tiles, fun seg hs => ⟨h.mem_taken (hr.source seg hs).1, (hr.source seg hs).2⟩, ?_, hr.nonempty⟩
  have hne := hr.nonempty
  -- The segment around the last byte of the run ends where the run does.
  obtain ⟨q, hq, h1, h2⟩ := hr.tiles.cover (show r.runStart ≤ r.runEnd - 1 by omega) (by omega)
  obtain ⟨_, h3, _⟩ := hr.tiles.mem hq
  obtain ⟨seg, hs, rfl⟩ := List.mem_map.mp hq
  have hw := ht.noWrap (h.mem_taken (hr.source seg hs).1)
  dsimp only [Segment.range] at h1 h2 h3 hw
  omega

theorem keptOf_of_index (ht : TakenAllOK slack taken) {byFile : FileIndex}
    (hb : buildFileIndex taken = .ok byFile) (f : String) :
    KeptOf taken f (keptSegments 0 ((byFile.lookup f).getD ∅).toList) := by
  have hslice : ∀ (s : Nat) (sl : CachedSlice), (s, sl) ∈ ((byFile.lookup f).getD ∅).toList ↔
      (firstAt taken f s).map (fun kv => ⟨kv.1.blkSize, kv.2⟩) = some sl := by
    intro s sl
    rw [← buildFileIndex_first ht hb, FileIndex.sliceAt, Std.TreeMap.mem_toList_iff_getElem?_eq_some]
    cases byFile.lookup f with
    | none => simp
    | some m => rfl
  have hfirst : ∀ seg : Segment, (seg.start, (⟨seg.byteLen, some seg.entry⟩ : CachedSlice)) ∈
      ((byFile.lookup f).getD ∅).toList ↔ firstAt taken f seg.start = some (⟨f, seg.start, seg.byteLen⟩,
        some seg.entry) := by
    intro seg
    rw [hslice, Option.map_eq_some_iff]
    constructor
    · rintro ⟨⟨key, v⟩, hk, he⟩
      obtain ⟨_, hf, hs⟩ := firstAt_some hk
      obtain ⟨_, _, _⟩ := key
      cases hf
      cases hs
      cases he
      exact hk
    · intro hk
      exact ⟨_, hk, rfl⟩
  have hw : ∀ p ∈ ((byFile.lookup f).getD ∅).toList, p.1 + p.2.byteLen < 2 ^ 64 := by
    intro p hp
    obtain ⟨kv, hk, he⟩ := Option.map_eq_some_iff.mp ((hslice p.1 p.2).mp hp)
    obtain ⟨hm, _, hs⟩ := firstAt_some hk
    have := ht.noWrap hm
    rw [← he]
    dsimp only
    omega
  have hsorted : ((byFile.lookup f).getD ∅).toList.Pairwise fun p q => p.1 < q.1 :=
    Std.TreeMap.ordered_keys_toList.imp Nat.compare_eq_lt.mp
  have hasc := keptSegments_ascending (e := 0) hw
  refine ⟨hasc, fun seg => ⟨fun hs => ⟨(hfirst seg).mp (mem_of_keptSegments hs).1, fun seg' hs' hlt => ?_⟩,
    fun hs => ?_⟩⟩
  · have hapart : (keptSegments 0 ((byFile.lookup f).getD ∅).toList).Pairwise fun a b =>
        a.start + a.byteLen ≤ b.start ∨ b.start + b.byteLen ≤ a.start :=
          (List.pairwise_map.mp hasc.pairwise).imp .inl
    have : Std.Symm fun a b : Segment => a.start + a.byteLen ≤ b.start ∨ b.start + b.byteLen ≤ a.start :=
      ⟨fun _ _ => Or.symm⟩
    have hne : seg' ≠ seg := fun he => by rw [he] at hlt; omega
    rcases hapart.forall hs' hs hne with hle | hle
    · exact hle
    · omega
  · have hm := firstAt_some hs.1
    exact mem_keptSegments hsorted ((hfirst seg).mpr hs.1) (ht.pos hm.1) (Nat.zero_le _) hs.2

theorem mem_emitRuns {fileSize : Option Nat} {runs : List Run} (hok : emitRuns page f nbs fileSize runs = .ok out)
    (kv : InMemCacheBlock × InMemCacheDataEntry) :
    kv ∈ out ↔ ∃ r ∈ runs, ∃ o, emitRunOnNewGrid page f r nbs fileSize = .ok o ∧ kv ∈ o := by
  induction runs generalizing out with
  | nil =>
    cases hok
    simp
  | cons r runs ih =>
    obtain ⟨o, ho, hok⟩ := except_bind_eq_ok.mp hok
    obtain ⟨more, hmore, hok⟩ := except_bind_eq_ok.mp hok
    cases hok
    rw [List.mem_append, ih hmore]
    simp [ho]

theorem mem_remapFiles {files : List (Σ _ : String, Std.TreeMap Nat CachedSlice)}
    (hok : remapFiles page nbs sizes files = .ok out) (kv : InMemCacheBlock × InMemCacheDataEntry) :
    kv ∈ out ↔ ∃ q ∈ files, ∃ o, remapOneFile page q.1 nbs (sizes.lookup q.1) q.2 = .ok o ∧ kv ∈ o := by
  induction files generalizing out with
  | nil =>
    cases hok
    simp
  | cons q files ih =>
    obtain ⟨o, ho, hok⟩ := except_bind_eq_ok.mp hok
    obtain ⟨more, hmore, hok⟩ := except_bind_eq_ok.mp hok
    cases hok
    rw [List.mem_append, ih hmore]
    simp [ho]

/-- **The keys the remap emits for a file**: the cuts of the runs of what
is kept of it. The file's entries end inside it, if its size is known. -/
theorem remap_keys (page : Nat) (hash : HashOrder (Σ _ : String, Std.TreeMap Nat CachedSlice)) (hn : 0 < nbs)
    (hroom : ∀ f, Room nbs slack (sizes.lookup f)) (ht : TakenAllOK slack taken)
    (hok : remapInMemCacheEntries page hash taken nbs sizes = .ok out) {f : String}
    (hin : ∀ n, sizes.lookup f = some n → ∀ kv ∈ taken, kv.1.fname = f → kv.1.startOff + kv.1.blkSize ≤ n) :
    ∃ segs, KeptOf taken f segs ∧ ∀ b len, ⟨f, b, len⟩ ∈ out.map (·.1) ↔
      ∃ r ∈ runsOf segs, r.Cuts nbs (sizes.lookup f) b len := by
  obtain ⟨byFile, hb, hindex⟩ := buildFileIndex_spec ht
  rw [remapInMemCacheEntries, if_neg (by omega), hb] at hok
  have hkept := keptOf_of_index ht hb f
  refine ⟨_, hkept, fun b len => ?_⟩
  have hruns := hkept.runs ht
  have hw : ∀ m, byFile.lookup f = some m → ∀ p ∈ m.toList, p.1 + p.2.byteLen < 2 ^ 64 := by
    intro m hm p hp
    have hmem := hindex f m hm p.1 p.2 (Std.TreeMap.mem_toList_iff_getElem?_eq_some.mp hp)
    have := ht.noWrap hmem
    dsimp only at this
    omega
  have hrun : ∀ r ∈ runsOf (keptSegments 0 ((byFile.lookup f).getD ∅).toList), ∀ o,
      emitRunOnNewGrid page f r nbs (sizes.lookup f) = .ok o →
      (⟨f, b, len⟩ ∈ o.map (·.1) ↔ r.Cuts nbs (sizes.lookup f) b len) := by
    intro r hr o ho
    have hrok := hkept.runOK ht (hruns.whole r hr)
    refine emitRunOnNewGrid_keys page hrok ht hn (hroom f) (fun n hs => ?_) ho b len
    have hne := hrok.nonempty
    obtain ⟨q, hq, h1, h2⟩ := hrok.tiles.cover (show r.runStart ≤ r.runEnd - 1 by omega) (by omega)
    obtain ⟨seg, hseg, rfl⟩ := List.mem_map.mp hq
    have := hin n hs _ (hrok.source seg hseg).1 rfl
    dsimp only [Segment.range] at h1 h2 this
    omega
  constructor
  · intro hm
    obtain ⟨kv, hkv, hkey⟩ := List.mem_map.mp hm
    obtain ⟨q, hq, o, ho, hkvo⟩ := (mem_remapFiles hok kv).mp hkv
    obtain ⟨g, m⟩ := q
    have hlookup : byFile.lookup g = some m :=
      AList.mem_lookup_iff.mpr ((hash.perm byFile.entries).mem_iff.mp hq)
    obtain ⟨o', ho', hall, _⟩ := remapSlices_none_spec page ht hn (hroom g) m.toList
      fun p hp => hindex g m hlookup p.1 p.2 (Std.TreeMap.mem_toList_iff_getElem?_eq_some.mp hp)
    rw [remapOneFile, ho'] at ho
    cases ho
    have hg : g = f := by
      rw [← (hall kv hkvo).1, hkey]
    subst hg
    rw [remapSlices_none_eq page g nbs _ (hw m hlookup)] at ho'
    obtain ⟨r, hr, o, ho, hkvo⟩ := (mem_emitRuns ho' kv).mp hkvo
    have hr' : r ∈ runsOf (keptSegments 0 ((byFile.lookup g).getD ∅).toList) := by
      rw [hlookup]
      exact hr
    exact ⟨r, hr', (hrun r hr' o ho).mp (List.mem_map.mpr ⟨kv, hkvo, hkey⟩)⟩
  · rintro ⟨r, hr, hcut⟩
    obtain ⟨o, ho, _⟩ := emitRunOnNewGrid_spec page (hkept.runOK ht (hruns.whole r hr)) ht hn (hroom f)
    obtain ⟨kv, hkv, hkey⟩ := List.mem_map.mp ((hrun r hr o ho).mpr hcut)
    cases hlookup : byFile.lookup f with
    | none =>
      rw [hlookup] at hr
      cases hr
    | some m =>
      have hslices : ∀ p ∈ m.toList, SliceOK taken f p.1 p.2 := fun p hp =>
        hindex f m hlookup p.1 p.2 (Std.TreeMap.mem_toList_iff_getElem?_eq_some.mp hp)
      obtain ⟨o', ho', _⟩ := remapSlices_none_spec page ht hn (hroom f) m.toList hslices
      have hall := ho'
      rw [remapSlices_none_eq page f nbs _ (hw m hlookup)] at ho'
      rw [hlookup] at hr
      have hkvo := (mem_emitRuns ho' kv).mpr ⟨r, hr, o, ho, hkv⟩
      have hq := (hash.perm byFile.entries).mem_iff.mpr (AList.mem_lookup_iff.mp hlookup)
      exact List.mem_map.mpr ⟨kv, (mem_remapFiles hok kv).mpr ⟨_, hq, o', hall, hkvo⟩, hkey⟩

/-- Where no file's size is known. -/
theorem remap_keys_unsized {hash : HashOrder (Σ _ : String, Std.TreeMap Nat CachedSlice)} (hn : 0 < nbs)
    (hroom : nbs ≤ slack) (ht : TakenAllOK slack taken)
    (hok : remapInMemCacheEntries page hash taken nbs ∅ = .ok out) (f : String) :
    ∃ segs, KeptOf taken f segs ∧ ∀ b len, ⟨f, b, len⟩ ∈ out.map (·.1) ↔
      ∃ r ∈ runsOf segs, r.Cuts nbs none b len := by
  have hnone : ∀ g, (∅ : AList fun _ : String => Nat).lookup g = none := fun g => AList.lookup_empty g
  have hroom' : ∀ g, Room nbs slack ((∅ : AList fun _ : String => Nat).lookup g) := by
    intro g
    rw [hnone]
    exact ⟨hroom, fun h => by cases h⟩
  obtain ⟨segs, hk, hkeys⟩ := remap_keys page hash hn hroom' ht hok (f := f) fun n hs => by
    rw [hnone] at hs
    cases hs
  rw [hnone] at hkeys
  exact ⟨segs, hk, hkeys⟩

end Files

end ReadCacheFs
