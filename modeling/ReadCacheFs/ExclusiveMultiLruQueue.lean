/-
`ExclusiveMultiLruCache` is one queue of values with keys.

The list is the queue from back to front, the entries of a key are its
values in the queue (`Refines`): so the back of the list is the oldest value
of all, and the first of its key. Every call does to the cache what it does
to the queue, and hands back the same.
-/
import ReadCacheFs.ExclusiveMultiLru
import ReadCacheFs.Lib.KeyedQueue
import ReadCacheFs.Lib.Runs

namespace ReadCacheFs

open Lib

namespace ExclusiveMultiLruCache

variable {K V : Type} [Ord K]

/-- `Verify()`. -/
def verify (c : ExclusiveMultiLruCache K V) : Bool :=
  let counts := c.entryMap.toList.map fun ke => ke.2.length
  counts.all (0 < ·) && counts.sum == c.totalEntriesNum && c.lruList.size == c.totalEntriesNum

theorem OK.verify {c : ExclusiveMultiLruCache K V} [Std.TransOrd K] [Std.LawfulEqOrd K] (h : c.OK) :
    c.verify = true := by
  have hlen := h.nodes.length_eq
  rw [List.length_map, entries, List.length_flatMap] at hlen
  simp only [List.length_map] at hlen
  simp only [ExclusiveMultiLruCache.verify, Bool.and_eq_true, List.all_eq_true, List.mem_map,
    decide_eq_true_eq, beq_iff_eq]
  refine ⟨⟨?_, ?_⟩, h.total.symm⟩
  · rintro n ⟨ke, hke, hn⟩
    have hget := Std.TreeMap.mem_toList_iff_getElem?_eq_some.mp hke
    rw [← hn, List.length_pos_iff]
    intro hnil
    rw [hnil] at hget
    exact h.nonempty ke.1 hget
  · rw [h.total, NodeList.size, hlen]

def entry (i : QueueItem K V) : MultiLruEntry V := ⟨i.value, i.putAt, i.ticket⟩

variable [DecidableEq K]

/-- The cache is the queue `q`, whose values were put by the time `clock`. -/
structure Refines (c : ExclusiveMultiLruCache K V) (clock : Nat) (q : KeyedQueue K V) : Prop where
  ok : c.OK
  nodes : c.lruList.nodes = (q.items.map fun i => (i.ticket, i.key)).reverse
  tickets : c.lruList.fresh = q.tickets
  ofKey : ∀ k, (c.entryMap[k]?).getD [] = (q.items.filter fun i => decide (i.key = k)).map entry
  ordered : q.items.Pairwise fun i j => i.putAt ≤ j.putAt
  past : ∀ i ∈ q.items, i.putAt ≤ clock

variable {c : ExclusiveMultiLruCache K V} {q : KeyedQueue K V} {clock now : Nat} {key : K}

theorem Refines.nodup (h : c.Refines clock q) : (q.items.map (·.ticket)).Nodup := by
  have hnodup := c.lruList.nodup
  rw [h.nodes, List.map_reverse, List.nodup_reverse, List.map_map] at hnodup
  exact hnodup

theorem Refines.total (h : c.Refines clock q) : c.totalEntriesNum = q.items.length := by
  rw [h.ok.total, NodeList.size, h.nodes, List.length_reverse, List.length_map]

theorem Refines.getElem? (h : c.Refines clock q) {i : QueueItem K V} {rest : List (QueueItem K V)}
    (hk : (q.items.filter fun i => decide (i.key = key)) = i :: rest) :
    c.entryMap[key]? = some (entry i :: rest.map entry) := by
  have hof := h.ofKey key
  rw [hk] at hof
  exact eq_some_of_getD hof

theorem Refines.at (h : c.Refines clock q) (hle : clock ≤ now) : c.Refines now q :=
  ⟨h.ok, h.nodes, h.tickets, h.ofKey, h.ordered, fun i hi => (h.past i hi).trans hle⟩

variable [Std.TransOrd K] [Std.LawfulEqOrd K]

omit [Std.LawfulEqOrd K] in
theorem Refines.mem_iff (h : c.Refines clock q) : key ∈ c.entryMap ↔ ∃ i ∈ q.items, i.key = key := by
  have hof := h.ofKey key
  rw [Std.TreeMap.mem_iff_isSome_getElem?]
  cases hk : q.items.filter fun i => decide (i.key = key) with
  | nil =>
    rw [hk, List.map_nil] at hof
    have hnone : c.entryMap[key]? = none := by
      cases hes : c.entryMap[key]? with
      | none => rfl
      | some es =>
        rw [hes, Option.getD_some] at hof
        exact absurd (hof ▸ hes) (h.ok.nonempty key)
    rw [List.filter_eq_nil_iff] at hk
    simpa [hnone] using hk
  | cons i rest =>
    have hi : i ∈ q.items.filter fun i => decide (i.key = key) := hk ▸ List.mem_cons_self
    rw [h.getElem? hk]
    simpa using ⟨i, List.mem_of_mem_filter hi, by simpa using List.of_mem_filter hi⟩

theorem Refines.deleteFirstEntry (h : c.Refines clock q) {a b : List (QueueItem K V)} {i : QueueItem K V}
    (hq : q.items = a ++ i :: b) (ha : ∀ j ∈ a, j.key ≠ i.key) :
    c.entryMap[i.key]? = some (entry i :: (b.filter fun j => decide (j.key = i.key)).map entry) ∧
      (c.deleteFirstEntry i.key (entry i) ((b.filter fun j => decide (j.key = i.key)).map entry)).Refines clock
        { q with items := a ++ b } := by
  have hnone : a.filter (fun j => decide (j.key = i.key)) = [] := by
    rw [List.filter_eq_nil_iff]
    intro j hj
    simpa using ha j hj
  have hsplit : (q.items.filter fun j => decide (j.key = i.key)) =
      i :: b.filter fun j => decide (j.key = i.key) := by
    rw [hq, List.filter_append, hnone, List.nil_append, List.filter_cons_of_pos (by simp)]
  have hget := h.getElem? hsplit
  have hsub : (a ++ b).Sublist q.items := hq ▸ (List.sublist_cons_self i b).append_left a
  have hne : ∀ j ∈ a ++ b, j.ticket ≠ i.ticket := by
    have hnodup := h.nodup
    rw [hq, List.map_append, List.map_cons, List.nodup_middle, List.nodup_cons, ← List.map_append] at hnodup
    intro j hj he
    exact hnodup.1 (he ▸ List.mem_map_of_mem hj)
  refine ⟨hget, deleteFirstEntry_ok h.ok hget, ?_, h.tickets, fun k => ?_, h.ordered.sublist hsub,
    fun j hj => h.past j (hsub.subset hj)⟩
  · change c.lruList.nodes.filter (·.1 != i.ticket) = _
    have hfilter : ∀ l : List (QueueItem K V), (∀ j ∈ l, j.ticket ≠ i.ticket) →
        (l.map fun i => (i.ticket, i.key)).filter (·.1 != i.ticket) = l.map fun i => (i.ticket, i.key) := by
      intro l hl
      rw [List.filter_eq_self]
      intro n hn
      obtain ⟨j, hj, rfl⟩ := List.mem_map.mp hn
      simpa using hl j hj
    rw [h.nodes, List.filter_reverse, hq, List.map_append, List.map_cons, List.filter_append,
      List.filter_cons_of_neg (by simp), ← List.filter_append, ← List.map_append, hfilter _ hne]
  · have hrest : ((a ++ b).filter fun j => decide (j.key = i.key)) =
        b.filter fun j => decide (j.key = i.key) := by
      rw [List.filter_append, hnone, List.nil_append]
    have hother : ∀ k, k ≠ i.key → (((a ++ b).filter fun j => decide (j.key = k)) =
        q.items.filter fun j => decide (j.key = k)) := by
      intro k hk
      rw [hq, List.filter_append, List.filter_append, List.filter_cons_of_neg (by simpa using hk.symm)]
    unfold ExclusiveMultiLruCache.deleteFirstEntry
    dsimp only
    by_cases hk : k = i.key
    · subst hk
      rw [hrest]
      split
      next hempty =>
        rw [List.isEmpty_iff] at hempty
        simp [hempty]
      next => simp
    · have hk' : i.key ≠ k := fun he => hk he.symm
      rw [hother k hk, ← h.ofKey k]
      split
      · simp [Std.TreeMap.getElem?_erase, hk']
      · simp [Std.TreeMap.getElem?_insert, hk']

/-! ## Putting in -/

theorem Refines.emplace (h : c.Refines clock q) (hle : clock ≤ now) (key : K) (value : V) :
    (c.emplace now key value).Refines now (q.enqueue now key value) := by
  refine ⟨emplace_ok h.ok now key value, ?_, ?_, fun k => ?_, ?_, fun i hi => ?_⟩
  · change (c.lruList.fresh, key) :: c.lruList.nodes = _
    rw [h.nodes, h.tickets, KeyedQueue.enqueue, List.map_append, List.map_singleton, List.reverse_append]
    rfl
  · change c.lruList.fresh + 1 = q.tickets + 1
    rw [h.tickets]
  · change ((c.entryMap.insert key _)[k]?).getD [] = _
    rw [KeyedQueue.enqueue, List.filter_append, List.map_append, ← h.ofKey k]
    by_cases hk : key = k
    · subst hk
      simp [entry, h.tickets]
    · simp [Std.TreeMap.getElem?_insert, hk]
  · rw [KeyedQueue.enqueue, List.pairwise_append]
    refine ⟨h.ordered, List.pairwise_singleton .., fun i hi j hj => ?_⟩
    rw [List.mem_singleton] at hj
    subst hj
    exact (h.past i hi).trans hle
  · rcases List.mem_append.mp hi with hi | hi
    · exact (h.past i hi).trans hle
    · rw [List.mem_singleton] at hi
      subst hi
      exact le_refl now

/-- The back of the list is the oldest value, and the first of its key. -/
theorem Refines.evictBack (h : c.Refines clock q) :
    ∃ c', c.evictBack = .ok ((KeyedQueue.overflow (entryLimit c.maxEntries) q).map (·.value), c') ∧
      c'.Refines clock (KeyedQueue.trim (entryLimit c.maxEntries) q) ∧ c'.maxEntries = c.maxEntries ∧
      c'.timeoutMillisec = c.timeoutMillisec := by
  unfold ExclusiveMultiLruCache.evictBack KeyedQueue.overflow KeyedQueue.trim entryLimit
  by_cases hmax : c.maxEntries = 0
  · rw [if_neg (by omega), if_pos hmax]
    exact ⟨c, rfl, h, rfl, rfl⟩
  · rw [if_neg hmax, h.total, Option.map_some, Option.getD_some]
    by_cases hover : c.maxEntries < q.items.length
    · rw [if_pos ⟨by omega, hover⟩, if_pos (decide_eq_true hover), if_pos (decide_eq_true hover)]
      cases hq : q.items with
      | nil =>
        rw [hq] at hover
        cases hover
      | cons i rest =>
        obtain ⟨hget, href⟩ := h.deleteFirstEntry (a := []) (b := rest) hq (by simp)
        have hback : c.lruList.back? = some (i.ticket, i.key) := by
          rw [NodeList.back?, h.nodes, List.getLast?_reverse, hq]
          rfl
        rw [hback]
        dsimp only
        rw [hget]
        exact ⟨_, rfl, href, rfl, rfl⟩
    · rw [if_neg fun hlt => hover hlt.2, if_neg (by simpa using hover), if_neg (by simpa using hover)]
      exact ⟨c, rfl, h, rfl, rfl⟩

theorem Refines.put (h : c.Refines clock q) (hle : clock ≤ now) (key : K) (value : V) :
    ∃ c', c.put now key value =
        .ok ((KeyedQueue.overflow (entryLimit c.maxEntries) (q.enqueue now key value)).map (·.value), c') ∧
      c'.Refines now (KeyedQueue.trim (entryLimit c.maxEntries) (q.enqueue now key value)) ∧
        c'.maxEntries = c.maxEntries ∧
      c'.timeoutMillisec = c.timeoutMillisec :=
  (h.emplace hle key value).evictBack

/-! ## Taking out -/

omit [DecidableEq K] [Std.TransOrd K] [Std.LawfulEqOrd K] in
theorem expired_iff (hlt : now < 2 ^ 64) {i : QueueItem K V} (hi : i.putAt ≤ now) :
    c.expired now (entry i) = decide (KeyedQueue.Expired c.timeoutMillisec now i) := by
  rw [Bool.eq_iff_iff, expired, Bool.and_eq_true, decide_eq_true_eq, decide_eq_true_eq, decide_eq_true_eq, entry,
    u64Sub_eq hi hlt, KeyedQueue.Expired]
  omega

/-- The loop takes out the expired values of the key: they are its first. -/
theorem Refines.popStale (h : c.Refines clock q) (hle : clock ≤ now) (hlt : now < 2 ^ 64) (key : K) :
    ∃ c', c.popStale now key ((q.items.filter fun i => decide (i.key = key)).map entry) =
        ((q.items.filter (KeyedQueue.stale c.timeoutMillisec now key)).map (·.value),
          ((q.keep fun i => !KeyedQueue.stale c.timeoutMillisec now key i).items.filter fun i => decide (i.key = key)).map entry,
          c') ∧
      c'.Refines clock (q.keep fun i => !KeyedQueue.stale c.timeoutMillisec now key i) ∧
        c'.maxEntries = c.maxEntries ∧
      c'.timeoutMillisec = c.timeoutMillisec := by
  generalize hes : (q.items.filter fun i => decide (i.key = key)) = es
  induction es generalizing c q with
  | nil =>
    have hstale : ∀ i ∈ q.items, KeyedQueue.stale c.timeoutMillisec now key i = false := by
      intro i hi
      have hkey := List.filter_eq_nil_iff.mp hes i hi
      rw [KeyedQueue.stale, Bool.eq_false_iff.mpr hkey, Bool.false_and]
    have hkeep : q.keep (fun i => !KeyedQueue.stale c.timeoutMillisec now key i) = q := by
      rw [KeyedQueue.keep, List.filter_eq_self.mpr fun i hi => by rw [hstale i hi]; rfl]
    rw [hkeep, hes, List.filter_eq_nil_iff.mpr fun i hi => by rw [hstale i hi]; exact Bool.false_ne_true]
    exact ⟨c, rfl, h, rfl, rfl⟩
  | cons i rest ih =>
    obtain ⟨a, b, hq, ha, hi, rfl⟩ := List.filter_eq_cons_iff.mp hes
    have hik : i.key = key := of_decide_eq_true hi
    subst hik
    have hne : ∀ j ∈ a, j.key ≠ i.key := fun j hj he => ha j hj (decide_eq_true he)
    have hput : i.putAt ≤ now := (h.past i (hq ▸ by simp)).trans hle
    rw [List.map_cons, ExclusiveMultiLruCache.popStale, expired_iff hlt hput]
    by_cases hexp : KeyedQueue.Expired c.timeoutMillisec now i
    · obtain ⟨-, href⟩ := h.deleteFirstEntry hq hne
      obtain ⟨c', hrun, href', hmax, htime⟩ := ih href (by
        rw [List.filter_append, List.filter_eq_nil_iff.mpr ha, List.nil_append])
      have hstale : KeyedQueue.stale c.timeoutMillisec now i.key i = true := by
        simp [KeyedQueue.stale, hexp]
      have hgone : q.items.filter (KeyedQueue.stale c.timeoutMillisec now i.key) =
          i :: (a ++ b).filter (KeyedQueue.stale c.timeoutMillisec now i.key) := by
        have hnot : a.filter (KeyedQueue.stale c.timeoutMillisec now i.key) = [] := by
          rw [List.filter_eq_nil_iff]
          intro j hj
          simp [KeyedQueue.stale, hne j hj]
        rw [hq, List.filter_append, List.filter_append, hnot, List.nil_append, List.nil_append,
          List.filter_cons_of_pos hstale]
      have hkeep : q.keep (fun j => !KeyedQueue.stale c.timeoutMillisec now i.key j) =
          KeyedQueue.keep { q with items := a ++ b } fun j =>
            !KeyedQueue.stale c.timeoutMillisec now i.key j := by
        rw [KeyedQueue.keep, KeyedQueue.keep, hq, List.filter_append, List.filter_append,
          List.filter_cons_of_neg (by simp [hstale])]
      rw [if_pos (decide_eq_true hexp), hrun, hgone, hkeep]
      exact ⟨c', rfl, href', hmax, htime⟩
    · -- the values after it were put later
      have hstale : ∀ j ∈ q.items, KeyedQueue.stale c.timeoutMillisec now i.key j = false := by
        intro j hj
        have hord := h.ordered
        rw [hq] at hord hj
        rw [KeyedQueue.stale, Bool.and_eq_false_iff]
        rcases List.mem_append.mp hj with hj | hj
        · exact .inl (decide_eq_false (hne j hj))
        · refine .inr (decide_eq_false fun hj' => hexp ?_)
          rcases List.mem_cons.mp hj with rfl | hj
          · exact hj'
          · have hij := (List.pairwise_cons.mp (List.pairwise_append.mp hord).2.1).1 j hj
            exact ⟨hj'.1, by have := hj'.2; omega⟩
      have hkeep : q.keep (fun j => !KeyedQueue.stale c.timeoutMillisec now i.key j) = q := by
        rw [KeyedQueue.keep, List.filter_eq_self.mpr fun j hj => by rw [hstale j hj]; rfl]
      have hnone : q.items.filter (KeyedQueue.stale c.timeoutMillisec now i.key) = [] :=
        List.filter_eq_nil_iff.mpr fun j hj => by rw [hstale j hj]; exact Bool.false_ne_true
      rw [if_neg (by simpa using hexp), hkeep, hnone, hes]
      exact ⟨c, rfl, h, rfl, rfl⟩

theorem Refines.getAndPop (h : c.Refines clock q) (hle : clock ≤ now) (hlt : now < 2 ^ 64) (key : K) :
    ∃ c', c.getAndPop now key = .ok ((q.items.filter (KeyedQueue.stale c.timeoutMillisec now key)).map (·.value),
        (q.target c.timeoutMillisec now key).map (·.value), c') ∧
      c'.Refines now (q.popped c.timeoutMillisec now key) ∧ c'.maxEntries = c.maxEntries ∧
      c'.timeoutMillisec = c.timeoutMillisec := by
  obtain ⟨c', hrun, href, hmax, htime⟩ := h.popStale hle hlt key
  have hof := h.ofKey key
  unfold ExclusiveMultiLruCache.getAndPop
  cases hes : c.entryMap[key]? with
  | none =>
    rw [hes, Option.getD_none] at hof
    rw [← hof, ExclusiveMultiLruCache.popStale, Prod.mk.injEq, Prod.mk.injEq] at hrun
    obtain ⟨hevicted, hleft, rfl⟩ := hrun
    rw [← hevicted, KeyedQueue.target_none (List.map_eq_nil_iff.mp hleft.symm),
      KeyedQueue.popped_none (List.map_eq_nil_iff.mp hleft.symm)]
    exact ⟨c, rfl, href.at hle, rfl, rfl⟩
  | some es =>
    rw [hes, Option.getD_some] at hof
    rw [← hof] at hrun
    dsimp only
    rw [hrun]
    cases hleft : (q.keep fun i => !KeyedQueue.stale c.timeoutMillisec now key i).items.filter fun i =>
      decide (i.key = key) with
    | nil =>
      rw [KeyedQueue.target_none hleft, KeyedQueue.popped_none hleft]
      have ht : 0 < c.timeoutMillisec := by
        -- without a timeout nothing is evicted, and a key has an entry
        by_contra ht
        rw [popStale_of_no_timeout (by omega), hleft, List.map_nil, Prod.mk.injEq, Prod.mk.injEq] at hrun
        exact h.ok.nonempty key (hrun.2.1 ▸ hes)
      rw [List.map_nil]
      dsimp only
      rw [if_pos ht]
      exact ⟨c', rfl, href.at hle, hmax, htime⟩
    | cons i rest =>
      obtain ⟨a, b, hq, ha, hi, rfl⟩ := List.filter_eq_cons_iff.mp hleft
      have hik : i.key = key := of_decide_eq_true hi
      subst hik
      obtain ⟨-, href'⟩ := href.deleteFirstEntry hq fun j hj he => ha j hj (decide_eq_true he)
      rw [KeyedQueue.target_some hq ha rfl, KeyedQueue.popped_some hq ha rfl]
      exact ⟨_, rfl, href'.at hle, hmax, htime⟩

/-! ## Clearing -/

/-- A key and all its values taken out. -/
theorem Refines.removeKey (h : c.Refines clock q) {es : List (MultiLruEntry V)}
    (hes : c.entryMap[key]? = some es) :
    es.map (·.value) = (q.keep fun i => decide (i.key = key)).values ∧
      (c.removeKey key es).Refines clock (q.keep fun i => !decide (i.key = key)) := by
  have hof := h.ofKey key
  rw [hes, Option.getD_some] at hof
  subst hof
  refine ⟨?_, (removeKey_ok h.ok hes).1, ?_, ?_, fun k => ?_, h.ordered.filter _,
    fun i hi => h.past i (List.mem_of_mem_filter hi)⟩
  · rw [List.map_map]
    rfl
  · change (List.foldl _ c.lruList _).nodes = _
    rw [NodeList.eraseAll_nodes, h.nodes, List.filter_reverse, List.filter_map, KeyedQueue.keep]
    congr 2
    refine List.filter_congr fun i hi => ?_
    have hmem : i.ticket ∈ (q.items.filter fun j => decide (j.key = key)).map (·.ticket) ↔ i.key = key := by
      rw [List.mem_map]
      constructor
      · rintro ⟨j, hj, he⟩
        rw [← List.inj_on_of_nodup_map h.nodup (List.mem_of_mem_filter hj) hi he]
        exact of_decide_eq_true (List.mem_filter.mp hj).2
      · intro hk
        exact ⟨i, List.mem_filter.mpr ⟨hi, decide_eq_true hk⟩, rfl⟩
    rw [Bool.eq_iff_iff]
    simpa [Function.comp_def, entry] using not_congr hmem
  · rw [KeyedQueue.keep, ← h.tickets]
    exact NodeList.eraseAll_fresh _ _
  · change ((c.entryMap.erase key)[k]?).getD [] = _
    rw [KeyedQueue.keep, List.filter_filter]
    by_cases hk : k = key
    · subst hk
      simp
    · have hk' : key ≠ k := fun he => hk he.symm
      rw [Std.TreeMap.getElem?_erase, if_neg (by rwa [Std.compare_eq_iff_eq]), h.ofKey k]
      congr 1
      refine List.filter_congr fun i hi => ?_
      by_cases hi : i.key = k <;> simp [hi, hk]

theorem Refines.removeKeys (h : c.Refines clock q) {keys : List K} (hnodup : keys.Nodup)
    (hkeys : ∀ k ∈ keys, k ∈ c.entryMap) :
    ∃ vs c', c.removeKeys keys = .ok (vs, c') ∧ vs.Perm (q.keep fun i => decide (i.key ∈ keys)).values ∧
      c'.Refines clock (q.keep fun i => !decide (i.key ∈ keys)) ∧ c'.maxEntries = c.maxEntries ∧
      c'.timeoutMillisec = c.timeoutMillisec := by
  induction keys generalizing c q with
  | nil =>
    have hkeep : (q.keep fun i => !decide (i.key ∈ ([] : List K))) = q := by
      rw [KeyedQueue.keep, List.filter_eq_self.mpr fun i _ => by simp]
    rw [hkeep]
    exact ⟨[], c, rfl, .of_eq (by simp [KeyedQueue.keep, KeyedQueue.values]), h, rfl, rfl⟩
  | cons key keys ih =>
    obtain ⟨hkey, hnodup⟩ := List.nodup_cons.mp hnodup
    obtain ⟨es, hes⟩ := Option.isSome_iff_exists.mp (Std.TreeMap.mem_iff_isSome_getElem?.mp (hkeys key (by simp)))
    obtain ⟨hvs, href⟩ := h.removeKey hes
    have hleft : ∀ k ∈ keys, k ∈ (c.removeKey key es).entryMap := by
      intro k hk
      have hne : key ≠ k := fun he => hkey (he ▸ hk)
      simpa [ExclusiveMultiLruCache.removeKey, hne] using hkeys k (List.mem_cons_of_mem _ hk)
    obtain ⟨vs, c', hrun, hperm, href', hmax, htime⟩ := ih href hnodup hleft
    have hkeep : KeyedQueue.keep (q.keep fun i => !decide (i.key = key)) (fun i => !decide (i.key ∈ keys)) =
        q.keep fun i => !decide (i.key ∈ key :: keys) := by
      rw [KeyedQueue.keep, KeyedQueue.keep, KeyedQueue.keep, List.filter_filter]
      congr 1
      refine List.filter_congr fun i _ => ?_
      rw [Bool.eq_iff_iff]
      simp [and_comm]
    rw [hkeep] at href'
    refine ⟨es.map (·.value) ++ vs, c', ?_, ?_, href', hmax, htime⟩
    · simp only [ExclusiveMultiLruCache.removeKeys, hes, hrun, Except.map]
    · rw [hvs]
      refine (hperm.append_left _).trans ?_
      have hsplit := List.filter_append_perm (fun i => decide (i.key = key))
        (q.items.filter fun i => decide (i.key ∈ key :: keys))
      refine List.Perm.trans (.of_eq ?_) (hsplit.map (·.value))
      rw [KeyedQueue.values, KeyedQueue.values, ← List.map_append, KeyedQueue.keep, KeyedQueue.keep,
        KeyedQueue.keep,
        List.filter_filter, List.filter_filter, List.filter_filter]
      congr 2
      · refine List.filter_congr fun i _ => ?_
        by_cases hk : i.key = key <;> simp [hk]
      · refine List.filter_congr fun i _ => ?_
        by_cases hk : i.key = key <;> simp [hk]

theorem Refines.clearFrom (h : c.Refines clock q) (startKey : K) (keyFilter : K → Bool) :
    ∃ vs c', c.clearAndGetValuesFrom startKey keyFilter = .ok (vs, c') ∧
      vs.Perm (q.keep fun i => matchedFrom (q.items.map (·.key)) startKey keyFilter i.key).values ∧
      c'.Refines clock (q.keep fun i => !matchedFrom (q.items.map (·.key)) startKey keyFilter i.key) ∧
      c'.maxEntries = c.maxEntries ∧ c'.timeoutMillisec = c.timeoutMillisec := by
  have hsub : (keysInRange c.entryMap.keys startKey keyFilter).Sublist c.entryMap.keys :=
    (List.takeWhile_sublist _).trans (List.dropWhile_sublist _)
  obtain ⟨vs, c', hrun, hperm, href, hframe⟩ := h.removeKeys (Std.TreeMap.nodup_keys.sublist hsub)
    fun k hk => Std.TreeMap.mem_keys.mp (hsub.subset hk)
  have hmatched : ∀ i ∈ q.items, decide (i.key ∈ keysInRange c.entryMap.keys startKey keyFilter) =
      matchedFrom (q.items.map (·.key)) startKey keyFilter i.key := by
    intro i hi
    have hmem : ∀ k, k ∈ c.entryMap.keys ↔ k ∈ q.items.map (·.key) := by
      intro k
      rw [Std.TreeMap.mem_keys, h.mem_iff, List.mem_map]
    rw [Bool.eq_iff_iff, decide_eq_true_eq, mem_keysInRange_iff Std.TreeMap.ordered_keys,
      matchedFrom_congr hmem, hmem,
      and_iff_right (List.mem_map_of_mem hi)]
  have hin : (q.keep fun i => decide (i.key ∈ keysInRange c.entryMap.keys startKey keyFilter)) =
      q.keep fun i => matchedFrom (q.items.map (·.key)) startKey keyFilter i.key := by
    rw [KeyedQueue.keep, List.filter_congr hmatched, KeyedQueue.keep]
  have hout : (q.keep fun i => !decide (i.key ∈ keysInRange c.entryMap.keys startKey keyFilter)) =
      q.keep fun i => !matchedFrom (q.items.map (·.key)) startKey keyFilter i.key := by
    rw [KeyedQueue.keep, List.filter_congr fun i hi => congrArg not (hmatched i hi), KeyedQueue.keep]
  rw [hin] at hperm
  rw [hout] at href
  exact ⟨vs, c', hrun, hperm, href, hframe⟩

theorem Refines.clear (h : c.Refines clock q) :
    c.values.Perm q.values ∧ c.clearAndGetValues.2.Refines clock { q with items := [] } := by
  refine ⟨?_, clearAndGetValues_ok c, rfl, h.tickets, fun k => ?_, .nil, by simp⟩
  · have hnodup : (entries c.entryMap).Nodup := by
      have hnodes := h.ok.nodes.nodup_iff.mp c.lruList.nodup.of_map
      exact hnodes.of_map
    have hnodup' : (q.items.map fun i => (i.key, entry i)).Nodup := by
      refine .of_map (fun ke => ke.2.lruIterator) ?_
      rw [List.map_map]
      exact h.nodup
    have hperm : (entries c.entryMap).Perm (q.items.map fun i => (i.key, entry i)) := by
      rw [List.perm_ext_iff_of_nodup hnodup hnodup']
      intro ⟨k, e⟩
      have hmem : (k, e) ∈ entries c.entryMap ↔ e ∈ (c.entryMap[k]?).getD [] := by
        rw [mem_entries]
        cases c.entryMap[k]? <;> simp
      rw [hmem, h.ofKey k, List.mem_map, List.mem_map]
      refine exists_congr fun i => ?_
      rw [List.mem_filter, decide_eq_true_eq, Prod.mk.injEq, and_assoc]
    refine ((hperm.map item).map Prod.snd).trans (.of_eq ?_)
    rw [List.map_map, List.map_map]
    rfl
  · change ((∅ : Std.TreeMap K (List (MultiLruEntry V)))[k]?).getD [] = []
    simp

end ExclusiveMultiLruCache

/-! ## Runs -/

inductive MultiLruAct (K V : Type)
  | put (now : Nat) (key : K) (value : V)
  | getAndPop (now : Nat) (key : K)
  | clear
  | clearFrom (startKey : K) (keyFilter : K → Bool)

structure MultiLruRun (K V : Type) [Ord K] where
  cache : ExclusiveMultiLruCache K V
  clock : Nat := 0
  log : List (QueueEvent K V) := []

namespace MultiLruRun

variable {K V : Type} [Ord K]

/-- The readings do not go back. -/
def Timely (s : MultiLruRun K V) : MultiLruAct K V → Prop
  | .put now _ _ | .getAndPop now _ => s.clock ≤ now ∧ now < 2 ^ 64
  | .clear | .clearFrom .. => True

instance (s : MultiLruRun K V) : (a : MultiLruAct K V) → Decidable (s.Timely a)
  | .put .. | .getAndPop .. => inferInstanceAs (Decidable (_ ∧ _))
  | .clear | .clearFrom .. => .isTrue trivial

/-- One call; a call that fails an assertion is no step. -/
def step (s : MultiLruRun K V) (a : MultiLruAct K V) : Option (MultiLruRun K V) :=
  if s.Timely a then
    match a with
    | .put now key value =>
      match s.cache.put now key value with
      | .ok (evicted, cache) => some { cache, clock := now, log := s.log ++ [.put now key value evicted] }
      | .error _ => none
    | .getAndPop now key =>
      match s.cache.getAndPop now key with
      | .ok (evicted, target, cache) =>
        some { cache, clock := now, log := s.log ++ [.getAndPop now key evicted target] }
      | .error _ => none
    | .clear =>
      let (values, cache) := s.cache.clearAndGetValues
      some { s with cache, log := s.log ++ [.clear values] }
    | .clearFrom startKey keyFilter =>
      match s.cache.clearAndGetValuesFrom startKey keyFilter with
      | .ok (values, cache) => some { s with cache, log := s.log ++ [.clearFrom startKey keyFilter values] }
      | .error _ => none
  else none

/-- The calls so far have done to the cache what they do to one queue. -/
structure OK [DecidableEq K] (maxEntries timeoutMillisec : Nat) (s : MultiLruRun K V) : Prop where
  limit : s.cache.maxEntries = maxEntries
  timeout : s.cache.timeoutMillisec = timeoutMillisec
  refines : ∃ q, KeyedQueue.Run (entryLimit maxEntries) timeoutMillisec s.log q ∧ s.cache.Refines s.clock q

variable [DecidableEq K] {maxEntries timeoutMillisec : Nat} {s s' : MultiLruRun K V}

variable [Std.TransOrd K]

theorem new_ok (maxEntries timeoutMillisec : Nat) :
    OK maxEntries timeoutMillisec { cache := { maxEntries, timeoutMillisec } : MultiLruRun K V } :=
  ⟨rfl, rfl, {}, .nil, ⟨.refl _, by simp, rfl⟩, rfl, rfl, by simp, .nil, by simp⟩

variable [Std.LawfulEqOrd K]

/-- No call fails, and each does what it does to the queue. -/
theorem step_spec {a : MultiLruAct K V} (h : OK maxEntries timeoutMillisec s) (ht : s.Timely a) :
    ∃ s', s.step a = some s' ∧ OK maxEntries timeoutMillisec s' := by
  obtain ⟨rfl, rfl, q, hrun, hq⟩ := h
  unfold step
  rw [if_pos ht]
  cases a with
  | put now key value =>
    obtain ⟨c', hput, hq', hmax, htime⟩ := hq.put ht.1 key value
    dsimp only
    rw [hput]
    exact ⟨_, rfl, hmax, htime, _, hrun.snoc (.put q now key value), hq'⟩
  | getAndPop now key =>
    obtain ⟨c', hpop, hq', hmax, htime⟩ := hq.getAndPop ht.1 ht.2 key
    dsimp only
    rw [hpop]
    exact ⟨_, rfl, hmax, htime, _, hrun.snoc (.getAndPop q now key), hq'⟩
  | clear =>
    obtain ⟨hvalues, hq'⟩ := hq.clear
    exact ⟨_, rfl, rfl, rfl, _, hrun.snoc (.clear q _ hvalues), hq'⟩
  | clearFrom startKey keyFilter =>
    obtain ⟨vs, c', hclear, hvalues, hq', hmax, htime⟩ := hq.clearFrom startKey keyFilter
    dsimp only
    rw [hclear]
    exact ⟨_, rfl, hmax, htime, _, hrun.snoc (.clearFrom q startKey keyFilter vs hvalues), hq'⟩

theorem step_ok {a : MultiLruAct K V} (h : OK maxEntries timeoutMillisec s) (hs : s.step a = some s') :
    OK maxEntries timeoutMillisec s' := by
  have ht : s.Timely a := by
    by_contra ht
    unfold step at hs
    rw [if_neg ht] at hs
    cases hs
  obtain ⟨s'', hs'', hok⟩ := step_spec h ht
  cases hs''.symm.trans hs
  exact hok

/-- `Put` in a full cache evicts the first of the queue. -/
def EvictsOldest (maxEntries : Nat) (s : MultiLruRun K V) (q : KeyedQueue K V) : Prop :=
  ∀ now key value, s.Timely (.put now key value) → ∃ c', s.cache.put now key value =
    .ok (if maxEntries ≠ 0 ∧ maxEntries < q.items.length + 1 then
      (q.enqueue now key value).items.head?.map QueueItem.value else none, c')

/-- `GetAndPop` hands back the key's expired values, first to last, and then its
first that is left. The other keys keep theirs. -/
def PopsInOrder (timeoutMillisec : Nat) (s : MultiLruRun K V) : Prop :=
  ∀ now key, s.Timely (.getAndPop now key) →
    let es := (s.cache.entryMap[key]?).getD []
    let expired (e : MultiLruEntry V) : Bool := 0 < timeoutMillisec && decide (e.timestamp + timeoutMillisec < now)
    ∃ c', s.cache.getAndPop now key =
        .ok ((es.filter expired).map (·.value), (es.find? fun e => !expired e).map (·.value), c') ∧
      (c'.entryMap[key]?).getD [] = (es.filter fun e => !expired e).tail ∧
      ∀ k, k ≠ key → c'.entryMap[k]? = s.cache.entryMap[k]?

/-- What holds in every state. -/
structure IsKeyedQueue (maxEntries timeoutMillisec : Nat) (s : MultiLruRun K V) : Prop where
  verify : s.cache.verify = true
  bounded : maxEntries ≠ 0 → s.cache.values.length ≤ maxEntries
  /-- Each value put is in the cache or has been handed back, once. -/
  ledger : (s.log.flatMap QueueEvent.handedBack ++ s.cache.values).Perm (s.log.flatMap QueueEvent.putIn)
  enabled : ∀ a, s.Timely a → (s.step a).isSome
  refines : ∃ q, KeyedQueue.Run (entryLimit maxEntries) timeoutMillisec s.log q ∧ s.cache.Refines s.clock q ∧
    s.EvictsOldest maxEntries q
  pops : s.PopsInOrder timeoutMillisec

omit [Std.TransOrd K] [Std.LawfulEqOrd K] [DecidableEq K] [Ord K] in
theorem overflow_entryLimit (maxEntries : Nat) (q : KeyedQueue K V) :
    KeyedQueue.overflow (entryLimit maxEntries) q =
      if maxEntries ≠ 0 ∧ maxEntries < q.items.length then q.items.head? else none := by
  unfold KeyedQueue.overflow entryLimit
  by_cases hmax : maxEntries = 0
  · simp [hmax]
  · simp [hmax]

theorem OK.evictsOldest (h : OK maxEntries timeoutMillisec s) {q : KeyedQueue K V}
    (hq : s.cache.Refines s.clock q) :
    s.EvictsOldest maxEntries q := by
  intro now key value ht
  obtain ⟨c', hput, -⟩ := hq.put ht.1 key value
  refine ⟨c', hput.trans ?_⟩
  rw [h.limit, overflow_entryLimit, KeyedQueue.enqueue, List.length_append, List.length_singleton]
  split <;> rfl

theorem OK.popsInOrder (h : OK maxEntries timeoutMillisec s) : s.PopsInOrder timeoutMillisec := by
  obtain ⟨rfl, rfl, q, hrun, hq⟩ := h
  intro now key ht es expired
  obtain ⟨c', hpop, hq', -⟩ := hq.getAndPop ht.1 ht.2 key
  have hes : es = (q.items.filter fun i => decide (i.key = key)).map ExclusiveMultiLruCache.entry := hq.ofKey key
  have hexpired : ∀ i : QueueItem K V, expired (ExclusiveMultiLruCache.entry i) =
      decide (KeyedQueue.Expired s.cache.timeoutMillisec now i) := by
    intro i
    rw [Bool.eq_iff_iff, decide_eq_true_eq]
    simp [expired, KeyedQueue.Expired, ExclusiveMultiLruCache.entry]
  have hstale : es.filter expired = (q.items.filter (KeyedQueue.stale s.cache.timeoutMillisec now key)).map
      ExclusiveMultiLruCache.entry := by
    rw [hes, List.filter_map, List.filter_filter]
    congr 1
    refine List.filter_congr fun i _ => ?_
    rw [Function.comp_apply, hexpired, Bool.and_comm]
    rfl
  have hleft : es.filter (fun e => !expired e) =
      ((q.keep fun i => !KeyedQueue.stale s.cache.timeoutMillisec now key i).items.filter fun i => decide (i.key = key)).map
        ExclusiveMultiLruCache.entry := by
    rw [hes, List.filter_map, KeyedQueue.keep, List.filter_filter, List.filter_filter]
    congr 1
    refine List.filter_congr fun i _ => ?_
    rw [Function.comp_apply, hexpired, KeyedQueue.stale]
    by_cases hi : i.key = key <;> simp [hi]
  refine ⟨c', hpop.trans ?_, ?_, fun k hk => ?_⟩
  · rw [hstale, ← List.head?_filter, hleft, KeyedQueue.target_eq_head, List.map_map, List.head?_map,
      Option.map_map]
    rfl
  · rw [hq'.ofKey key, KeyedQueue.popped_key, hleft, List.map_tail]
  · have hof := (hq'.ofKey k).trans ((congrArg _ (KeyedQueue.popped_other _ now q hk)).trans (hq.ofKey k).symm)
    cases hold : s.cache.entryMap[k]? with
    | none =>
      rw [hold, Option.getD_none] at hof
      cases hnew : c'.entryMap[k]? with
      | none => rfl
      | some es' => exact absurd (hnew.trans (congrArg some (by rwa [hnew] at hof))) (hq'.ok.nonempty k)
    | some es' =>
      cases es' with
      | nil => exact absurd hold (hq.ok.nonempty k)
      | cons e rest =>
        rw [hold, Option.getD_some] at hof
        exact ExclusiveMultiLruCache.eq_some_of_getD hof

end MultiLruRun

/-- **The cache is one queue of values with keys**, after any calls with readings that do not go back. -/
theorem exclusiveMultiLruCache_queue {K V : Type} [Ord K] [Std.TransOrd K] [Std.LawfulEqOrd K] [DecidableEq K]
    (maxEntries timeoutMillisec : Nat) (acts : List (MultiLruAct K V)) (s : MultiLruRun K V)
    (h : exec MultiLruRun.step { cache := { maxEntries, timeoutMillisec } } acts = some s) :
    s.IsKeyedQueue maxEntries timeoutMillisec := by
  have hok : s.OK maxEntries timeoutMillisec :=
    exec_invariant (I := MultiLruRun.OK maxEntries timeoutMillisec) (fun _ _ _ => MultiLruRun.step_ok) h
      (MultiLruRun.new_ok _ _)
  have ⟨hmax, htime, q, hrun, hq⟩ := hok
  have hvalues : s.cache.values.Perm q.values := hq.clear.1
  refine ⟨hq.ok.verify, fun hpos => ?_, ?_, fun a ht => ?_, ⟨q, hrun, hq, hok.evictsOldest hq⟩, hok.popsInOrder⟩
  · rw [show entryLimit maxEntries = some maxEntries from if_neg hpos] at hrun
    rw [hvalues.length_eq, KeyedQueue.values, List.length_map]
    exact hrun.length_le
  · exact (hvalues.append_left _).trans hrun.ledger
  · obtain ⟨s', hs', -⟩ := MultiLruRun.step_spec hok ht
    rw [hs']
    rfl

/-- A cache of two: the third value evicts the first, though its key has another; that has expired when asked for. -/
theorem exclusiveMultiLruCache_queue_two :
    ∃ s : MultiLruRun Nat Nat, exec MultiLruRun.step { cache := { maxEntries := 2, timeoutMillisec := 5 } }
        [.put 0 1 10, .put 1 1 11, .put 3 2 20, .getAndPop 8 1, .getAndPop 8 2, .put 9 3 30,
          .clearFrom 2 (· < 4)] = some s ∧
      s.IsKeyedQueue 2 5 := by
  have hrun : (exec MultiLruRun.step { cache := { maxEntries := 2, timeoutMillisec := 5 } : MultiLruRun Nat Nat }
      [.put 0 1 10, .put 1 1 11, .put 3 2 20, .getAndPop 8 1, .getAndPop 8 2, .put 9 3 30,
        .clearFrom 2 (· < 4)]).isSome := by decide +kernel
  obtain ⟨s, hs⟩ := Option.isSome_iff_exists.mp hrun
  exact ⟨s, hs, exclusiveMultiLruCache_queue 2 5 _ s hs⟩

end ReadCacheFs
