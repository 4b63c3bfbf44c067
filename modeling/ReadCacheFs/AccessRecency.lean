/-
Evictions and the order of access. The files are to be evicted by their
latest `Upsert`, the earliest first, and are by their timestamps.

A file is given the first free timestamp from the clock's reading on, and
its own is freed before. So it is the latest of all just when the other
files leave no gap there (`NoGap`): in a burst of accesses within one
microsecond a file may take a gap below another that was accessed before.
-/
import ReadCacheFs.AccessTimestamps
import ReadCacheFs.Lib.MultiMap

namespace ReadCacheFs

open Lib

/-- The calls of one reader, one after another. -/
structure AccessRecency where
  maps : AccessMaps := {}
  clock : Int
  /-- The files of the `Upsert`s so far, the latest first. -/
  upserts : List String := []

inductive AccessRecencyAct
  | upsert (now : Int) (filepath : String)
  | evict (scan : Except Fault (Std.TreeMap Int String))

namespace AccessRecency

/-- `EvictCacheBlockLru` of maps that are not empty. A reading before the last is no step. -/
def step (s : AccessRecency) : AccessRecencyAct → Option AccessRecency
  | .upsert now filepath =>
    if s.clock ≤ now then
      match (upsertCacheFileAccessTimestamp now filepath).run s.maps with
      | .ok _ maps => some { maps, clock := now, upserts := filepath :: s.upserts }
      | .error _ _ => none
    else none
  | .evict scan =>
    if s.maps.cacheFileAccessTimestampMap.isEmpty then none
    else match (evictCacheBlockLru scan).run s.maps with
      | .ok _ maps => some { s with maps }
      | .error _ _ => none

/-- The timestamps of the other files. -/
def otherTimestamps (s : AccessRecency) (filepath : String) : List Int :=
  (s.maps.cacheFileAccessTimestampMap.toList.filter (·.2 ≠ filepath)).map Prod.fst

/-- From the reading up to any other file's timestamp, all are other files'. -/
def NoGap (s : AccessRecency) : AccessRecencyAct → Prop
  | .upsert now filepath => ∀ ts ∈ s.otherTimestamps filepath, ∀ d < (ts - now).toNat,
    now + (d : Int) ∈ s.otherTimestamps filepath
  | .evict _ => True

instance (s : AccessRecency) : (a : AccessRecencyAct) → Decidable (s.NoGap a)
  | .upsert .. => inferInstanceAs (Decidable (∀ ts ∈ _, ∀ d < _, _))
  | .evict _ => .isTrue trivial

/-- Of two files the one with the lower timestamp has the earlier latest `Upsert`. -/
def InOrder (s : AccessRecency) : Prop :=
  ∀ (ts ts' : Int) (f f' : String), s.maps.cacheFileAccessTimestampMap[ts]? = some f →
    s.maps.cacheFileAccessTimestampMap[ts']? = some f' → ts < ts' → s.upserts.idxOf f' < s.upserts.idxOf f

/-- An eviction returns the file with the earliest latest `Upsert`. -/
def EvictsEarliest (s : AccessRecency) : Prop :=
  s.maps.cacheFileAccessTimestampMap.isEmpty = false → ∀ scan, ∃ f maps,
    (evictCacheBlockLru scan).run s.maps = .ok (some f) maps ∧ f ∈ s.maps.cacheFilepathToAccessTimestamp ∧
      ∀ f' ∈ s.maps.cacheFilepathToAccessTimestamp, f' ≠ f → s.upserts.idxOf f' < s.upserts.idxOf f

variable {s s' : AccessRecency}

theorem mem_otherTimestamps {filepath : String} {ts : Int} :
    ts ∈ s.otherTimestamps filepath ↔ ∃ f, s.maps.cacheFileAccessTimestampMap[ts]? = some f ∧ f ≠ filepath := by
  simp only [otherTimestamps, List.mem_map, List.mem_filter, decide_eq_true_eq, Prod.exists,
    Std.TreeMap.mem_toList_iff_getElem?_eq_some]
  constructor
  · intro ⟨t, f, hf, he⟩
    subst he
    exact ⟨f, hf⟩
  · intro ⟨f, hf⟩
    exact ⟨ts, f, hf, rfl⟩

/-- The first free timestamp from the reading on is above the others just when they leave no gap. -/
theorem noGap_iff {now ts : Int} {filepath : String} (hle : now ≤ ts) (hfree : ts ∉ s.otherTimestamps filepath)
    (htaken : ∀ t, now ≤ t → t < ts → t ∈ s.otherTimestamps filepath) :
    s.NoGap (.upsert now filepath) ↔ ∀ t ∈ s.otherTimestamps filepath, t < ts := by
  constructor
  · intro hgap t ht
    by_contra hlt
    have hd := hgap t ht (ts - now).toNat
    have hne : t ≠ ts := fun he => hfree (he ▸ ht)
    rw [show now + ((ts - now).toNat : Int) = ts by omega] at hd
    exact hfree (hd (by omega))
  · intro hall t ht d hd
    have hlt := hall t ht
    exact htaken _ (by omega) (by omega)

theorem step_upsert {now : Int} {filepath : String} (hm : s.maps.Inverse)
    (hs : s.step (.upsert now filepath) = some s') :
    s'.maps.Inverse ∧ s'.upserts = filepath :: s.upserts ∧ ∃ ts,
      (s.NoGap (.upsert now filepath) ↔ ∀ t ∈ s.otherTimestamps filepath, t < ts) ∧
        ts ∉ s.otherTimestamps filepath ∧
      ∀ (t : Int) f, s'.maps.cacheFileAccessTimestampMap[t]? = some f ↔
        (t = ts ∧ f = filepath) ∨ (s.maps.cacheFileAccessTimestampMap[t]? = some f ∧ f ≠ filepath) := by
  obtain ⟨m', ts, hrun, hm', hle, hfree, htaken, hget⟩ := upsert_spec hm now filepath
  simp only [step, hrun] at hs
  split at hs
  · cases hs
    have hfree' : ts ∉ s.otherTimestamps filepath := by
      intro hmem
      obtain ⟨f, hf, hne⟩ := mem_otherTimestamps.mp hmem
      exact hfree ts f hf hne rfl
    exact ⟨hm', rfl, ts, noGap_iff hle hfree' fun t ht hlt => mem_otherTimestamps.mpr (htaken t ht hlt),
      hfree', hget⟩
  · cases hs

theorem exists_first (hne : s.maps.cacheFileAccessTimestampMap.isEmpty = false) :
    ∃ ts f, s.maps.cacheFileAccessTimestampMap.toList.head? = some (ts, f) := by
  cases hh : s.maps.cacheFileAccessTimestampMap.toList.head? with
  | some e => exact ⟨e.1, e.2, rfl⟩
  | none =>
    rw [List.head?_eq_none_iff] at hh
    have hsize := Std.TreeMap.length_toList (t := s.maps.cacheFileAccessTimestampMap)
    rw [hh, List.length_nil] at hsize
    rw [Std.TreeMap.isEmpty_eq_size_eq_zero, ← hsize] at hne
    cases hne

theorem first_lt {ts t : Int} {f f' : String}
    (hh : s.maps.cacheFileAccessTimestampMap.toList.head? = some (ts, f))
    (hf' : s.maps.cacheFileAccessTimestampMap[t]? = some f') (hne : t ≠ ts) : ts < t := by
  have hmem := Std.TreeMap.mem_toList_iff_getElem?_eq_some.mpr hf'
  have hordered := Std.TreeMap.ordered_keys_toList (t := s.maps.cacheFileAccessTimestampMap)
  cases hl : s.maps.cacheFileAccessTimestampMap.toList with
  | nil =>
    rw [hl] at hh
    cases hh
  | cons e rest =>
    rw [hl] at hh hmem hordered
    cases hh
    rcases List.mem_cons.mp hmem with he | hrest
    · cases he
      exact absurd rfl hne
    · exact compare_lt_iff_lt.mp ((List.pairwise_cons.mp hordered).1 _ hrest)

theorem evict_spec (hm : s.maps.Inverse) {ts : Int} {f : String}
    (hh : s.maps.cacheFileAccessTimestampMap.toList.head? = some (ts, f))
    (scan : Except Fault (Std.TreeMap Int String)) :
    ∃ maps, (evictCacheBlockLru scan).run s.maps = .ok (some f) maps ∧
      s.step (.evict scan) = some { s with maps } ∧
      maps.Inverse ∧ ∀ (t : Int) f', maps.cacheFileAccessTimestampMap[t]? = some f' ↔
        s.maps.cacheFileAccessTimestampMap[t]? = some f' ∧ f' ≠ f := by
  obtain ⟨m', hrun, hm', hget⟩ := evictFirst_spec hm hh
  have hne : s.maps.cacheFileAccessTimestampMap.isEmpty = false := by
    rw [Std.TreeMap.isEmpty_eq_size_eq_zero, ← Std.TreeMap.length_toList]
    cases hl : s.maps.cacheFileAccessTimestampMap.toList with
    | nil =>
      rw [hl] at hh
      cases hh
    | cons e rest => rfl
  have hevict : (evictCacheBlockLru scan).run s.maps = .ok (some f) m' := by
    simp [evictCacheBlockLru, hne, hrun]
  exact ⟨m', hevict, by simp [step, hne, hevict], hm', hget⟩

theorem step_evict {scan : Except Fault (Std.TreeMap Int String)} (hm : s.maps.Inverse)
    (hs : s.step (.evict scan) = some s') :
    s'.maps.Inverse ∧ s'.upserts = s.upserts ∧ ∀ (t : Int) f, s'.maps.cacheFileAccessTimestampMap[t]? = some f →
      s.maps.cacheFileAccessTimestampMap[t]? = some f := by
  have hne : s.maps.cacheFileAccessTimestampMap.isEmpty = false := by
    by_contra hne
    simp only [step, Bool.not_eq_false] at hs hne
    rw [if_pos hne] at hs
    cases hs
  obtain ⟨ts, f, hh⟩ := exists_first hne
  obtain ⟨m', -, hstep, hm', hget⟩ := evict_spec hm hh scan
  cases hstep.symm.trans hs
  exact ⟨hm', rfl, fun t f hf => ((hget t f).mp hf).1⟩

/-! ## The order -/

theorem InOrder.upsert {now : Int} {filepath : String} (hm : s.maps.Inverse) (h : s.InOrder)
    (hs : s.step (.upsert now filepath) = some s') : s'.InOrder ↔ s.NoGap (.upsert now filepath) := by
  obtain ⟨-, hupserts, ts, hgap, hfree, hget⟩ := step_upsert hm hs
  rw [hgap]
  constructor
  · intro horder t ht
    obtain ⟨f, hf, hne⟩ := mem_otherTimestamps.mp ht
    by_contra hlt
    have hlt' : ts < t := lt_of_le_of_ne (not_lt.mp hlt) fun he => hfree (he ▸ ht)
    have hlater := horder ts t filepath f ((hget _ _).mpr (.inl ⟨rfl, rfl⟩))
      ((hget _ _).mpr (.inr ⟨hf, hne⟩)) hlt'
    rw [hupserts, List.idxOf_cons_self] at hlater
    exact Nat.not_lt_zero _ hlater
  · intro hall t t' f f' hf hf' hlt
    rw [hupserts]
    rcases (hget t f).mp hf with ⟨rfl, rfl⟩ | ⟨hf, hne⟩
    · rcases (hget t' f').mp hf' with ⟨rfl, -⟩ | ⟨hf', hne'⟩
      · exact absurd hlt (Int.lt_irrefl _)
      · have := hall t' (mem_otherTimestamps.mpr ⟨f', hf', hne'⟩)
        omega
    · rw [List.idxOf_cons_ne _ hne.symm]
      rcases (hget t' f').mp hf' with ⟨rfl, rfl⟩ | ⟨hf', hne'⟩
      · rw [List.idxOf_cons_self]
        exact Nat.succ_pos _
      · rw [List.idxOf_cons_ne _ hne'.symm]
        exact Nat.succ_lt_succ (h t t' f f' hf hf' hlt)

theorem InOrder.evict {scan : Except Fault (Std.TreeMap Int String)} (hm : s.maps.Inverse) (h : s.InOrder)
    (hs : s.step (.evict scan) = some s') : s'.InOrder := by
  obtain ⟨-, hupserts, hget⟩ := step_evict hm hs
  intro t t' f f' hf hf' hlt
  rw [hupserts]
  exact h t t' f f' (hget _ _ hf) (hget _ _ hf') hlt

theorem step_inverse {a : AccessRecencyAct} (hm : s.maps.Inverse) (hs : s.step a = some s') :
    s'.maps.Inverse := by
  cases a with
  | upsert now filepath => exact (step_upsert hm hs).1
  | evict scan => exact (step_evict hm hs).1

theorem InOrder.step_iff {a : AccessRecencyAct} (hm : s.maps.Inverse) (h : s.InOrder) (hs : s.step a = some s') :
    s'.InOrder ↔ s.NoGap a := by
  cases a with
  | upsert now filepath => exact h.upsert hm hs
  | evict scan => exact iff_of_true (h.evict hm hs) trivial

theorem InOrder.evictsEarliest (hm : s.maps.Inverse) (h : s.InOrder) : s.EvictsEarliest := by
  intro hne scan
  obtain ⟨ts, f, hh⟩ := exists_first hne
  obtain ⟨maps, hevict, -⟩ := evict_spec hm hh scan
  have hf : s.maps.cacheFileAccessTimestampMap[ts]? = some f :=
    Std.TreeMap.mem_toList_iff_getElem?_eq_some.mp (List.mem_of_mem_head? hh)
  have htracked : ∀ {f : String}, f ∈ s.maps.cacheFilepathToAccessTimestamp ↔
      ∃ t : Int, s.maps.cacheFileAccessTimestampMap[t]? = some f := by
    intro f
    rw [← AList.lookup_isSome, Option.isSome_iff_exists]
    exact exists_congr fun t => (hm t f).symm
  refine ⟨f, maps, hevict, htracked.mpr ⟨ts, hf⟩, fun f' hf' hne' => ?_⟩
  obtain ⟨t', hf'⟩ := htracked.mp hf'
  refine h ts t' f f' hf hf' (first_lt hh hf' fun he => hne' ?_)
  rw [he, hf] at hf'
  exact (Option.some.inj hf').symm

/-- The evictions from here on, too, return the files by their latest `Upsert`. -/
def DrainsInOrder (s : AccessRecency) : Prop :=
  ∀ (scans : List (Except Fault (Std.TreeMap Int String))) (s' : AccessRecency),
    exec step s (scans.map AccessRecencyAct.evict) = some s' → s'.EvictsEarliest

theorem InOrder.drains (hm : s.maps.Inverse) (h : s.InOrder) : s.DrainsInOrder := by
  intro scans s' hs
  induction scans generalizing s with
  | nil =>
    cases hs
    exact h.evictsEarliest hm
  | cons scan scans ih =>
    rw [List.map_cons] at hs
    obtain ⟨t, ht, hrun⟩ := exec_cons.mp hs
    exact ih (step_inverse hm ht) (h.evict hm ht) hrun

theorem size_lt {maps : AccessMaps} {ts : Int} {f : String}
    (hf : s.maps.cacheFileAccessTimestampMap[ts]? = some f)
    (hget : ∀ (t : Int) f', maps.cacheFileAccessTimestampMap[t]? = some f' ↔
      s.maps.cacheFileAccessTimestampMap[t]? = some f' ∧ f' ≠ f) :
    maps.cacheFileAccessTimestampMap.size < s.maps.cacheFileAccessTimestampMap.size := by
  have hnodup : ((ts, f) :: maps.cacheFileAccessTimestampMap.toList).Nodup := by
    refine List.nodup_cons.mpr ⟨fun hmem => ?_, toList_nodup _⟩
    exact ((hget ts f).mp (Std.TreeMap.mem_toList_iff_getElem?_eq_some.mp hmem)).2 rfl
  have hsub : (ts, f) :: maps.cacheFileAccessTimestampMap.toList ⊆ s.maps.cacheFileAccessTimestampMap.toList := by
    intro ⟨t, f'⟩ hmem
    rw [Std.TreeMap.mem_toList_iff_getElem?_eq_some]
    rcases List.mem_cons.mp hmem with he | hmem
    · cases he
      exact hf
    · exact ((hget t f').mp (Std.TreeMap.mem_toList_iff_getElem?_eq_some.mp hmem)).1
  have hle := (List.subperm_of_subset hnodup hsub).length_le
  rwa [List.length_cons, Std.TreeMap.length_toList, Std.TreeMap.length_toList] at hle

/-- Evicting what comes before it, one gets to a file out of order. -/
theorem DrainsInOrder.inOrder (hm : s.maps.Inverse) (h : s.DrainsInOrder) : s.InOrder := by
  induction hn : s.maps.cacheFileAccessTimestampMap.size using Nat.strong_induction_on generalizing s with
  | h n ih =>
    intro t t' f f' hf hf' hlt
    have hne : s.maps.cacheFileAccessTimestampMap.isEmpty = false := by
      by_contra he
      rw [Std.TreeMap.getElem?_of_isEmpty (by simpa using he)] at hf
      cases hf
    have hinj : ∀ {t₁ t₂ : Int} {g : String}, s.maps.cacheFileAccessTimestampMap[t₁]? = some g →
        s.maps.cacheFileAccessTimestampMap[t₂]? = some g → t₁ = t₂ := by
      intro t₁ t₂ g h₁ h₂
      rw [hm] at h₁ h₂
      exact Option.some.inj (h₁.symm.trans h₂)
    obtain ⟨ts, first, hh⟩ := exists_first hne
    obtain ⟨maps, hevict, hstep, hm', hget⟩ := evict_spec hm hh (.error .io)
    have hfirst : s.maps.cacheFileAccessTimestampMap[ts]? = some first :=
      Std.TreeMap.mem_toList_iff_getElem?_eq_some.mp (List.mem_of_mem_head? hh)
    by_cases hts : t = ts
    · subst hts
      cases hf.symm.trans hfirst
      obtain ⟨g, maps', hevict', -, hearliest⟩ := h [] s rfl hne (.error .io)
      cases hevict'.symm.trans hevict
      refine hearliest f' ?_ fun he => ?_
      · rw [← AList.lookup_isSome, (hm t' f').mp hf']
        rfl
      · rw [he] at hf'
        exact absurd (hinj hf hf') (by omega)
    · have hlt' := first_lt hh hf hts
      have hff : f ≠ first := fun he => hts (hinj (he ▸ hf) hfirst)
      have hff' : f' ≠ first := fun he => absurd (hinj (he ▸ hf') hfirst) (by omega)
      have hdrains : DrainsInOrder { s with maps } :=
        fun scans s' hs => h (.error .io :: scans) s' (exec_cons.mpr ⟨_, hstep, hs⟩)
      exact ih _ (hn ▸ size_lt hfirst hget) hm' hdrains rfl t t' f f' ((hget t f).mpr ⟨hf, hff⟩)
        ((hget t' f').mpr ⟨hf', hff'⟩) hlt

end AccessRecency

/-- **Evictions follow access recency just when no `Upsert` finds a gap**: in a run and after each of its states they
return the file with the earliest latest `Upsert`. -/
theorem eviction_follows_recency_iff (clock : Int) (acts : List AccessRecencyAct) (s : AccessRecency)
    (h : exec AccessRecency.step { clock } acts = some s) :
    (∀ pre, pre <+: acts → ∀ t, exec AccessRecency.step { clock } pre = some t → t.DrainsInOrder) ↔
      Guarded AccessRecency.step AccessRecency.NoGap { clock } acts := by
  have hstep : ∀ (s : AccessRecency) a s', s.maps.Inverse ∧ s.InOrder → s.NoGap a → s.step a = some s' →
      s'.maps.Inverse ∧ s'.InOrder :=
    fun s a s' hs hgap hstep => ⟨AccessRecency.step_inverse hs.1 hstep, (hs.2.step_iff hs.1 hstep).mpr hgap⟩
  have hstart : AccessMaps.Inverse {} ∧ AccessRecency.InOrder { clock } := by
    refine ⟨AccessMaps.Inverse.empty, fun t t' f f' hf => ?_⟩
    simp at hf
  constructor
  · intro hdrains
    refine guarded_of_prefixes hstep (fun s a s' hs hgap hs' hdrains => hgap ?_) h hstart hdrains
    exact (hs.2.step_iff hs.1 hs').mp (hdrains.inOrder (AccessRecency.step_inverse hs.1 hs'))
  · intro hguard pre hpre t ht
    obtain ⟨rest, rfl⟩ := hpre
    obtain ⟨hm, horder⟩ := exec_guarded_invariant hstep (guarded_append.mp hguard).1 ht hstart
    exact horder.drains hm

/-- Two files in one microsecond, the first read again in a later one: the second is evicted. -/
theorem eviction_follows_recency_iff_two :
    ∃ s, exec AccessRecency.step { clock := 0 }
      [.upsert 5 "a", .upsert 5 "b", .upsert 7 "a", .evict (.error .io)] = some s ∧
      ∀ pre, pre <+: [.upsert 5 "a", .upsert 5 "b", .upsert 7 "a", .evict (.error .io)] →
        ∀ t, exec AccessRecency.step { clock := 0 } pre = some t → t.DrainsInOrder := by
  have hrun : (exec AccessRecency.step { clock := 0 }
      [.upsert 5 "a", .upsert 5 "b", .upsert 7 "a", .evict (.error .io)]).isSome := by
    decide +kernel
  obtain ⟨s, hs⟩ := Option.isSome_iff_exists.mp hrun
  exact ⟨s, hs, (eviction_follows_recency_iff 0 _ s hs).mpr (by decide +kernel)⟩

/-- The first file accessed again in the same microsecond takes its timestamp again, below the second's: it is evicted first. -/
theorem eviction_takes_the_latest :
    ∃ s m, exec AccessRecency.step { clock := 0 } [.upsert 5 "a", .upsert 5 "b", .upsert 5 "a"] = some s ∧
      (evictCacheBlockLru (.error .io)).run s.maps = .ok (some "a") m ∧
        "b" ∈ s.maps.cacheFilepathToAccessTimestamp ∧
      s.upserts = ["a", "b", "a"] ∧ ¬s.EvictsEarliest := by
  have hrun : (exec AccessRecency.step { clock := 0 } [.upsert 5 "a", .upsert 5 "b", .upsert 5 "a"]).map (fun s =>
      (s.maps.cacheFileAccessTimestampMap.isEmpty, decide ("b" ∈ s.maps.cacheFilepathToAccessTimestamp),
        s.upserts,
        match (evictCacheBlockLru (.error .io)).run s.maps with
        | .ok f _ => f
        | .error _ _ => none)) = some (false, true, ["a", "b", "a"], some "a") := by decide +kernel
  obtain ⟨s, hs, hfacts⟩ := Option.map_eq_some_iff.mp hrun
  rw [Prod.mk.injEq, Prod.mk.injEq, Prod.mk.injEq, decide_eq_true_eq] at hfacts
  obtain ⟨hne, hb, hupserts, hevict⟩ := hfacts
  cases hresult : (evictCacheBlockLru (.error .io)).run s.maps with
  | error e m =>
    rw [hresult] at hevict
    cases hevict
  | ok f m =>
    rw [hresult] at hevict
    cases hevict
    refine ⟨s, m, hs, hresult, hb, hupserts, fun hearliest => ?_⟩
    obtain ⟨f, m', hrun', -, hlatest⟩ := hearliest hne (.error .io)
    cases hresult.symm.trans hrun'
    have hlt := hlatest "b" hb (by decide)
    rw [hupserts] at hlt
    revert hlt
    decide

end ReadCacheFs
