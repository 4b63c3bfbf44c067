/-
`SharedValueLruCache` is an LRU map with a timeout.

Its list is the order of the map, and what its entries hold the values
(`Realizes`); each entry's timestamp is the time its value was put
(`Refines`). Every call does to the cache what it does to the map, and
answers as the map does.
-/
import Mathlib.Data.Prod.Basic
import ReadCacheFs.Lib.Runs
import ReadCacheFs.Lib.TimedRecency
import ReadCacheFs.SharedValueLru

namespace ReadCacheFs

open Lib

namespace SharedValueLruCache

variable {K V ν : Type} [Ord K]

/-- The cache, its values read through `f`, is the LRU map `r`. -/
structure Realizes (f : V → Option ν) (c : SharedValueLruCache K V) (r : Recency K ν) : Prop where
  ok : c.OK
  order : c.lruList.values = r.order
  value : ∀ k, (c.find? k).bind (fun x => f x.1) = r.value k

variable {f f' : V → Option ν} {c : SharedValueLruCache K V} {r : Recency K ν} {key : K}

/-- Another reading of the same values. -/
theorem Realizes.congr (h : Realizes f c r) (hf : ∀ k x, c.find? k = some x → f' x.1 = f x.1) :
    Realizes f' c r := by
  refine ⟨h.ok, h.order, fun k => ?_⟩
  rw [← h.value k]
  cases hx : c.find? k with
  | none => rfl
  | some x => exact hf k x hx

theorem OK.mem_values (h : c.OK) : key ∈ c.lruList.values ↔ ∃ e, c.entryMap[key]? = some e := by
  rw [show c.lruList.values = c.lruList.values.map id by simp, Indexes.mem_keys h]
  simp [Option.map_eq_some_iff]

/-- A cache in order is an LRU map. -/
theorem OK.realizes (h : c.OK) : ∃ r : Recency K V, Realizes some c r := by
  have hmem : ∀ k, k ∈ c.lruList.values ↔ ((c.find? k).map (·.1)).isSome := by
    intro k
    rw [h.mem_values, ← Option.isSome_iff_exists, find?, Option.isSome_map, Option.isSome_map]
  have hnodup : c.lruList.values.Nodup := by simpa using Indexes.keys_nodup h
  exact ⟨⟨c.lruList.values, fun k => (c.find? k).map (·.1), hnodup, hmem⟩, h, rfl,
    fun k => Option.map_eq_bind.symm⟩

theorem Realizes.mem_order (h : Realizes f c r) : key ∈ r.order ↔ ∃ e, c.entryMap[key]? = some e := by
  rw [← h.order, h.ok.mem_values]

theorem Realizes.none_iff (h : Realizes f c r) : c.entryMap[key]? = none ↔ key ∉ r.order := by
  rw [h.mem_order, Option.eq_none_iff_forall_ne_some]
  simp

variable [Std.TransOrd K] [Std.LawfulEqOrd K] [DecidableEq K]

theorem Realizes.deleteImpl (h : Realizes f c r) {e : LruEntry V} (he : c.entryMap[key]? = some e) :
    Realizes f (c.deleteImpl key e) (r.remove key) := by
  refine ⟨deleteImpl_ok h.ok he, ?_, fun k => ?_⟩
  · rw [Recency.remove_order, ← h.order]
    exact Indexes.erase_values h.ok (by rw [he]; rfl)
  · rw [Recency.remove, Recency.keep_value]
    by_cases hk : k = key
    · subst hk
      simp
    · rw [find?_deleteImpl_ne e hk, h.value k, if_pos (by simpa using hk)]

theorem Realizes.removeExisting (h : Realizes f c r) (key : K) :
    Realizes f (c.removeExisting key) (r.remove key) := by
  unfold SharedValueLruCache.removeExisting
  cases he : c.entryMap[key]? with
  | some e => exact h.deleteImpl he
  | none =>
    rw [Recency.remove_of_not_mem (h.none_iff.mp he)]
    exact h

theorem Realizes.delete (h : Realizes f c r) (key : K) :
    (c.delete key).1 = decide (key ∈ r.order) ∧ Realizes f (c.delete key).2 (r.remove key) := by
  unfold SharedValueLruCache.delete
  cases he : c.entryMap[key]? with
  | some e => exact ⟨(decide_eq_true (h.mem_order.mpr ⟨e, he⟩)).symm, h.deleteImpl he⟩
  | none =>
    rw [Recency.remove_of_not_mem (h.none_iff.mp he)]
    exact ⟨(decide_eq_false (h.none_iff.mp he)).symm, h⟩

omit [Std.TransOrd K] [Std.LawfulEqOrd K] in
/-- Without a timeout a lookup only uses the key. -/
theorem Realizes.get (h : Realizes f c r) (ht : c.timeoutMillisec = 0) (now : Nat) (key : K) :
    (c.get now key).1.bind f = r.value key ∧ ((c.get now key).1 = none ↔ key ∉ r.order) ∧
      Realizes f (c.get now key).2 (r.touch key) := by
  have hval := h.value key
  unfold SharedValueLruCache.get
  cases he : c.entryMap[key]? with
  | none =>
    have hnot := h.none_iff.mp he
    refine ⟨(Recency.value_eq_none.mpr hnot).symm, by simp [hnot], ?_⟩
    rw [Recency.touch_of_not_mem hnot]
    exact h
  | some e =>
    have hmem := h.mem_order.mpr ⟨e, he⟩
    have hexp : c.expired now e = false := by simp [expired, ht]
    simp only [hexp, Bool.false_eq_true, if_false]
    refine ⟨by simpa [find?, he] using hval, by simp [hmem], h.ok.perm (NodeList.moveToFront_perm _ _), ?_,
      fun k => h.value k⟩
    rw [Recency.touch_order hmem, ← h.order]
    exact Indexes.moveToFront_values h.ok (by rw [he]; rfl)

theorem Realizes.insertFront (h : Realizes f c r) (hk : key ∉ r.order) (now : Nat) {value : V} {v : ν}
    (hv : f value = some v) :
    Realizes f (c.insertFront now key value) (r.insert key v) := by
  obtain ⟨hok, hself, ho⟩ := insertFront_spec h.ok (find?_none_iff.mpr (h.none_iff.mpr hk)) now value
  refine ⟨hok, ?_, fun k => ?_⟩
  · rw [Recency.insert_order, Recency.filter_ne_of_not_mem hk, ← h.order]
    rfl
  · by_cases hkk : k = key
    · subst hkk
      simp [hself, hv, Recency.insert]
    · simp [ho k hkk, h.value k, Recency.insert, hkk]

/-- At most one entry too many, which goes. -/
theorem Realizes.evictBack (h : Realizes f c r) (hpos : 0 < c.maxEntries)
    (hlen : r.order.length ≤ c.maxEntries + 1) :
    Realizes f c.evictBack (r.trim c.maxEntries) := by
  have hsize : c.lruList.size = r.order.length := by rw [← h.order, NodeList.values, List.length_map]; rfl
  unfold SharedValueLruCache.evictBack
  split
  next hover =>
    cases hb : c.lruList.back? with
    | none =>
      have : c.lruList.size = 0 := by simp [NodeList.size, List.getLast?_eq_none_iff.mp hb]
      omega
    | some q =>
      obtain ⟨node, staleKey⟩ := q
      have hget := h.ok.get_of_mem (q := (node, staleKey)) (List.mem_of_getLast? hb)
      obtain ⟨e, he, rfl⟩ := Option.map_eq_some_iff.mp hget
      obtain ⟨l, hl⟩ := List.getLast?_eq_some_iff.mp hb
      have hord : r.order = l.map Prod.snd ++ [staleKey] := by
        rw [← h.order, NodeList.values, hl, List.map_append]
        rfl
      have hn : (l.map Prod.snd).length = c.maxEntries := by
        rw [hord, List.length_append, List.length_singleton] at hlen hsize
        omega
      have htrim : r.trim c.maxEntries = r.remove staleKey := hn ▸ Recency.trim_of_concat hord
      rw [htrim]
      exact h.deleteImpl he
  next hover =>
    rw [Recency.trim_of_le (by omega)]
    exact h

theorem Realizes.put (h : Realizes f c r) {limit : Option Nat} (hmax : c.maxEntries = limit.getD 0)
    (hlim : ∀ n, limit = some n → 0 < n ∧ r.order.length ≤ n) (now : Nat) (key : K) {value : V} {v : ν}
    (hv : f value = some v) : Realizes f (c.put now key value) (r.put limit key v) := by
  have hmax' : ((c.removeExisting key).insertFront now key value).maxEntries = c.maxEntries := by
    unfold SharedValueLruCache.removeExisting
    split <;> rfl
  have hins : Realizes f ((c.removeExisting key).insertFront now key value) (r.insert key v) := by
    rw [← Recency.insert_remove]
    exact (h.removeExisting key).insertFront (by simp) now hv
  cases limit with
  | none =>
    unfold SharedValueLruCache.put SharedValueLruCache.evictBack
    rw [if_neg (by rw [hmax', hmax]; simp)]
    exact hins
  | some n =>
    obtain ⟨hpos, hlen⟩ := hlim n rfl
    have hm : ((c.removeExisting key).insertFront now key value).maxEntries = n := hmax'.trans hmax
    have hfil := List.length_filter_le (· != key) r.order
    have := hins.evictBack (hm ▸ hpos) (by rw [Recency.insert_order, List.length_cons, hm]; omega)
    rwa [hm] at this

omit [Std.LawfulEqOrd K] [DecidableEq K] in
theorem Realizes.clear : Realizes f c.clear (Recency.empty : Recency K ν) := by
  obtain ⟨hok, hn⟩ := clear_spec (c := c)
  exact ⟨hok, rfl, fun k => by rw [hn]; rfl⟩

theorem Realizes.foldl_delete (ks : List K) (h : Realizes f c r) :
    Realizes f (ks.foldl (fun c k => (c.delete k).2) c) (r.keep (· ∉ ks)) := by
  induction ks generalizing c r with
  | nil =>
    rw [Recency.keep_eq_self (by simp)]
    exact h
  | cons k ks ih =>
    have := ih (h.delete k).2
    rw [Recency.remove, Recency.keep_keep] at this
    rw [List.foldl_cons, Recency.keep_congr (q := fun k' => decide (k' ∉ ks) && k' != k)]
    · exact this
    · intro k' _
      by_cases hk : k' = k <;> by_cases hm : k' ∈ ks <;> simp [hk, hm]

theorem Realizes.clearFrom (h : Realizes f c r) (startKey : K) (filter : K → Bool) :
    Realizes f (c.clearFrom startKey filter) (r.keep (· ∉ c.keysFrom startKey filter)) :=
  h.foldl_delete _

omit [DecidableEq K] in
theorem Realizes.take (h : Realizes f c r) (clock : Nat → Nat) : ∃ taken c', c.take clock = .ok (taken, c') ∧
    Realizes f c' (Recency.empty : Recency K ν) ∧ (∀ k, c'.find? k = none) ∧ c'.maxEntries = c.maxEntries ∧
      c'.timeoutMillisec = c.timeoutMillisec := by
  obtain ⟨taken, c', htake, hok, hn, _, hmax, ht⟩ := take_spec h.ok clock
  have hvals : c'.lruList.values = [] := by
    rw [List.eq_nil_iff_forall_not_mem]
    intro k hk
    obtain ⟨e, he⟩ := hok.mem_values.mp hk
    rw [find?_none_iff.mp (hn k)] at he
    cases he
  exact ⟨taken, c', htake, ⟨hok, hvals, fun k => by rw [hn]; rfl⟩, hn, hmax, ht⟩

/-! ## With a timeout -/

omit [Std.LawfulEqOrd K] [DecidableEq K] in
/-- The cache is the LRU map `m`, whose values were put by the time `clock`. -/
structure Refines (c : SharedValueLruCache K V) (clock : Nat) (m : TimedRecency K V) : Prop where
  map : Realizes some c m.map
  putAt : ∀ k v ts, c.find? k = some (v, ts) → ts = m.putAt k ∧ ts ≤ clock

variable {clock now : Nat} {m : TimedRecency K V}

omit [Std.TransOrd K] [Std.LawfulEqOrd K] [DecidableEq K] in
theorem Refines.expired_iff (h : Refines c clock m) (hle : clock ≤ now) (hlt : now < 2 ^ 64) {e : LruEntry V}
    (he : c.entryMap[key]? = some e) : c.expired now e = true ↔ ¬m.Fresh c.timeoutMillisec now key := by
  obtain ⟨hput, hpast⟩ := h.putAt key e.value e.timestamp (by simp [find?, he])
  rw [expired, Bool.and_eq_true, decide_eq_true_eq, decide_eq_true_eq, u64Sub_eq (by omega) hlt,
    TimedRecency.Fresh, ← hput]
  omega

omit [Std.TransOrd K] [Std.LawfulEqOrd K] [DecidableEq K] in
/-- Entries gone, and nothing else. -/
theorem Refines.shrink {c' : SharedValueLruCache K V} (h : Refines c clock m) {r : Recency K V}
    (hmap : Realizes some c' r) (hfind : ∀ k x, c'.find? k = some x → c.find? k = some x) (hle : clock ≤ now) :
    Refines c' now { m with map := r } := by
  refine ⟨hmap, fun k v ts hk => ?_⟩
  obtain ⟨hput, hpast⟩ := h.putAt k v ts (hfind k _ hk)
  exact ⟨hput, hpast.trans hle⟩

theorem Refines.put (h : Refines c clock m)
    (hlen : ∀ n, entryLimit c.maxEntries = some n → m.map.order.length ≤ n) (hle : clock ≤ now) (key : K)
    (value : V) :
    Refines (c.put now key value) now (m.put (entryLimit c.maxEntries) now key value) := by
  refine ⟨h.map.put (entryLimit_getD _).symm (fun n hn => ⟨(entryLimit_eq_some hn).2, hlen n hn⟩) now key rfl,
    fun k v ts hk => ?_⟩
  rcases put_find? h.map.ok hk with ⟨rfl, hx⟩ | ⟨hne, hold⟩
  · cases hx
    exact ⟨by simp [TimedRecency.put], le_refl _⟩
  · obtain ⟨hput, hpast⟩ := h.putAt k v ts hold
    exact ⟨by simp [TimedRecency.put, hne, hput], hpast.trans hle⟩

theorem Refines.delete (h : Refines c clock m) (key : K) : (c.delete key).1 = decide (key ∈ m.map.order) ∧
    Refines (c.delete key).2 clock { m with map := m.map.remove key } := by
  obtain ⟨hfound, hmap⟩ := h.map.delete key
  obtain ⟨-, hnone, hrest⟩ := delete_spec h.map.ok key
  refine ⟨hfound, h.shrink hmap (fun k x hx => ?_) (le_refl _)⟩
  by_cases hk : k = key
  · rw [hk, hnone] at hx
    cases hx
  · rw [← hrest k hk, hx]

theorem Refines.get (h : Refines c clock m) (hle : clock ≤ now) (hlt : now < 2 ^ 64) (key : K) :
    (c.get now key).1 = (m.get c.timeoutMillisec now key).1 ∧
      Refines (c.get now key).2 now (m.get c.timeoutMillisec now key).2 := by
  have hval := h.map.value key
  unfold SharedValueLruCache.get TimedRecency.get
  cases he : c.entryMap[key]? with
  | none =>
    rw [← hval, find?_none_iff.mpr he]
    exact ⟨rfl, h.map, fun k v ts hk => ⟨(h.putAt k v ts hk).1, (h.putAt k v ts hk).2.trans hle⟩⟩
  | some e =>
    have hfind : c.find? key = some (e.value, e.timestamp) := by simp [find?, he]
    rw [hfind, Option.bind_some] at hval
    rw [← hval]
    dsimp only
    have hexp := h.expired_iff hle hlt he
    by_cases hf : m.Fresh c.timeoutMillisec now key
    · have hno : ¬c.expired now e = true := fun hyes => hexp.mp hyes hf
      have hmem : key ∈ m.map.order := h.map.mem_order.mpr ⟨e, he⟩
      rw [if_neg hno, if_pos hf]
      refine ⟨rfl, h.shrink ⟨h.map.ok.perm (NodeList.moveToFront_perm _ _), ?_, h.map.value⟩
        (fun k x hx => hx) hle⟩
      rw [Recency.touch_order hmem, ← h.map.order]
      exact Indexes.moveToFront_values h.map.ok (by rw [he]; rfl)
    · rw [if_pos (hexp.mpr hf), if_neg hf]
      refine ⟨rfl, h.shrink (h.map.deleteImpl he) (fun k x hx => ?_) hle⟩
      by_cases hk : k = key
      · rw [hk, find?_deleteImpl_self] at hx
        cases hx
      · rw [← find?_deleteImpl_ne e hk, hx]

omit [Std.LawfulEqOrd K] [DecidableEq K] in
theorem Refines.clear (h : Refines c clock m) : Refines c.clear clock { m with map := .empty } := by
  refine h.shrink .clear (fun k x hx => ?_) (le_refl _)
  rw [(clear_spec (c := c)).2 k] at hx
  cases hx

theorem Refines.clearFrom (h : Refines c clock m) (startKey : K) (filter : K → Bool) :
    Refines (c.clearFrom startKey filter) clock (m.clearFrom startKey filter) := by
  have hmatched : ∀ k, matchedFrom c.entryMap.keys startKey filter k =
      matchedFrom m.map.order startKey filter k := by
    intro k
    refine matchedFrom_congr fun k => ?_
    rw [mem_keys, h.map.mem_order]
  have hkeep : m.map.keep (· ∉ c.keysFrom startKey filter) =
      m.map.keep fun k => !matchedFrom m.map.order startKey filter k := by
    refine Recency.keep_congr fun k hk => ?_
    have hmem : k ∈ c.entryMap.keys := mem_keys.mpr (h.map.mem_order.mp hk)
    rw [keysFrom, ← hmatched, Bool.eq_iff_iff]
    simp [mem_keysInRange_iff Std.TreeMap.ordered_keys, hmem]
  have hmap := h.map.clearFrom startKey filter
  rw [hkeep] at hmap
  refine h.shrink hmap (fun k x hx => ?_) (le_refl _)
  obtain ⟨hgone, hkept⟩ := (clearFrom_spec h.map.ok startKey filter).2 k
  by_cases hk : k ∈ c.keysFrom startKey filter
  · rw [hgone hk] at hx
    cases hx
  · rw [← hkept hk, hx]

/-! ## Taking everything -/

omit [Std.TransOrd K] [Std.LawfulEqOrd K] [DecidableEq K] in
/-- Entry `i` is looked at at reading `i`. -/
theorem takeLoop_fst (c : SharedValueLruCache K V) (readings : Nat → Nat) :
    ∀ (entries : List (K × LruEntry V)) (i : Nat) (l : NodeList K),
      (c.takeLoop readings entries i l).1 =
        ((entries.zipIdx i).filter fun x => !c.expired (readings x.2) x.1.2).map fun x => (x.1.1, x.1.2.value)
  | [], i, l => rfl
  | (k, e) :: rest, i, l => by
    have ih := c.takeLoop_fst readings rest (i + 1) (l.erase e.lruIterator)
    simp only [takeLoop]
    rw [List.zipIdx_cons]
    cases hexp : c.expired (readings i) e with
    | true =>
      rw [if_pos rfl, ih, List.filter_cons_of_neg (by simp [hexp])]
    | false =>
      rw [if_neg Bool.false_ne_true, ih, List.filter_cons_of_pos (by simp [hexp]), List.map_cons]

omit [Std.LawfulEqOrd K] [DecidableEq K] in
theorem take_result {readings : Nat → Nat} {result : List (K × V)} {c' : SharedValueLruCache K V}
    (h : c.take readings = .ok (result, c')) :
    (result.map Prod.fst).Nodup ∧ ∀ k v, (k, v) ∈ result ↔
      ∃ e i, c.entryMap.toList[i]? = some (k, e) ∧ e.value = v ∧ c.expired (readings i) e = false := by
  have hres : result = (c.takeLoop readings c.entryMap.toList 0 c.lruList).1 := by
    cases hloop : c.takeLoop readings c.entryMap.toList 0 c.lruList with
    | mk taken l =>
    rw [take, hloop] at h
    dsimp only at h
    split at h
    · cases h
      rfl
    · cases h
  rw [hres, takeLoop_fst]
  constructor
  · have hsub : (((c.entryMap.toList.zipIdx).filter fun x => !c.expired
      (readings x.2) x.1.2).map fun x => x.1.1).Sublist
        c.entryMap.keys := by
      have hkeys : (c.entryMap.toList.zipIdx).map (fun x => x.1.1) = c.entryMap.keys := by
        rw [show (fun x : (K × LruEntry V) × Nat => x.1.1) = Prod.fst ∘ Prod.fst from rfl, ← List.map_map,
          List.zipIdx_map_fst, Std.TreeMap.map_fst_toList_eq_keys]
      rw [← hkeys]
      exact List.filter_sublist.map _
    rw [List.map_map]
    exact Std.TreeMap.nodup_keys.sublist hsub
  · intro k v
    simp only [List.mem_map, List.mem_filter, Bool.not_eq_true', Prod.mk.injEq, Prod.exists,
      List.mem_zipIdx_iff_getElem?]
    constructor
    · rintro ⟨k', e, i, ⟨hget, hexp⟩, rfl, hv⟩
      exact ⟨e, i, hget, hv, hexp⟩
    · rintro ⟨e, i, hget, hv, hexp⟩
      exact ⟨k, e, i, ⟨hget, hexp⟩, rfl, hv⟩

theorem Refines.take (h : Refines c clock m) {readings : List Nat} (hlen : readings.length = c.entryMap.size)
    (hle : ∀ r ∈ readings, clock ≤ r) (hlt : ∀ r ∈ readings, r < 2 ^ 64) :
    ∃ result c', c.take (readings.getD · 0) = .ok (result, c') ∧ m.Taken c.timeoutMillisec readings result ∧
      Refines c' clock { m with map := .empty } ∧ c'.maxEntries = c.maxEntries ∧
        c'.timeoutMillisec = c.timeoutMillisec := by
  obtain ⟨result, c', htake, hmap, hnone, hmax, ht⟩ := h.map.take (readings.getD · 0)
  obtain ⟨hnodup, hresult⟩ := take_result htake
  have hreading : ∀ {i : Nat}, i < readings.length → readings.getD i 0 ∈ readings := by
    intro i hi
    rw [List.getD_eq_getElem?_getD, List.getElem?_eq_getElem hi]
    exact List.getElem_mem hi
  refine ⟨result, c', htake, ⟨hnodup, fun k => readings.getD (c.entryMap.keys.idxOf k) 0, fun k hk => ?_,
    fun k v => ?_⟩,
    h.shrink hmap (fun k x hx => ?_) (le_refl _), hmax, ht⟩
  · have hmem : k ∈ c.entryMap.keys := mem_keys.mpr (h.map.mem_order.mp hk)
    have hidx := List.idxOf_lt_length_of_mem hmem
    rw [Std.TreeMap.length_keys, ← hlen] at hidx
    exact hreading hidx
  · -- the entry of `k` is looked at when its place in the map comes
    have hplace : ∀ {e : LruEntry V} {i : Nat}, c.entryMap.toList[i]? = some (k, e) →
        c.entryMap.keys.idxOf k = i := by
      intro e i hget
      have hkey : c.entryMap.keys[i]? = some k := by
        rw [← Std.TreeMap.map_fst_toList_eq_keys, List.getElem?_map, hget]
        rfl
      obtain ⟨hi, rfl⟩ := List.getElem?_eq_some_iff.mp hkey
      exact Std.TreeMap.nodup_keys.idxOf_getElem i hi
    have hvalue := h.map.value k
    rw [hresult]
    constructor
    · rintro ⟨e, i, hget, hv, hexp⟩
      have he := Std.TreeMap.mem_toList_iff_getElem?_eq_some.mp (List.mem_of_getElem? hget)
      have hi : i < readings.length := by
        rw [hlen, ← Std.TreeMap.length_toList]
        exact (List.getElem?_eq_some_iff.mp hget).1
      have hiff := h.expired_iff (hle _ (hreading hi)) (hlt _ (hreading hi)) he
      rw [hexp] at hiff
      refine ⟨by rw [← hvalue, find?, he, ← hv]; rfl, ?_⟩
      dsimp only
      rw [hplace hget]
      exact not_not.mp fun hn => Bool.false_ne_true (hiff.mpr hn)
    · rintro ⟨hv, hf⟩
      rw [← hvalue] at hv
      obtain ⟨⟨v', ts⟩, hfind, hv'⟩ := Option.bind_eq_some_iff.mp hv
      cases hv'
      obtain ⟨e, he, heq⟩ := Option.map_eq_some_iff.mp hfind
      obtain ⟨i, hget⟩ := List.mem_iff_getElem?.mp (Std.TreeMap.mem_toList_iff_getElem?_eq_some.mpr he)
      have hi : i < readings.length := by
        rw [hlen, ← Std.TreeMap.length_toList]
        exact (List.getElem?_eq_some_iff.mp hget).1
      have hiff := h.expired_iff (hle _ (hreading hi)) (hlt _ (hreading hi)) he
      dsimp only at hf
      rw [hplace hget] at hf
      refine ⟨e, i, hget, congrArg Prod.fst heq, ?_⟩
      rw [Bool.eq_false_iff]
      exact fun hexp => hiff.mp hexp hf
  · rw [hnone] at hx
    cases hx

end SharedValueLruCache

/-! ## Runs -/

inductive LruAct (K V : Type)
  | put (now : Nat) (key : K) (value : V)
  | get (now : Nat) (key : K)
  | delete (key : K)
  | clear
  | clearFrom (startKey : K) (filter : K → Bool)
  /-- The clock is read once an entry. -/
  | take (readings : List Nat)

structure LruRun (K V : Type) [Ord K] where
  cache : SharedValueLruCache K V
  /-- The latest reading of the clock. -/
  clock : Nat := 0
  log : List (LruEvent K V) := []

namespace LruRun

variable {K V : Type} [Ord K]

/-- The readings do not go back. -/
def Timely (s : LruRun K V) : LruAct K V → Prop
  | .put now _ _ | .get now _ => s.clock ≤ now ∧ now < 2 ^ 64
  | .take readings => readings.length = s.cache.entryMap.size ∧ (s.clock :: readings).Pairwise (· ≤ ·) ∧
      ∀ r ∈ readings, r < 2 ^ 64
  | _ => True

instance (s : LruRun K V) : (a : LruAct K V) → Decidable (s.Timely a)
  | .put .. | .get .. | .take _ => inferInstanceAs (Decidable (_ ∧ _))
  | .delete _ | .clear | .clearFrom .. => .isTrue trivial

/-- One call; a `Take` that fails an assertion is no step. -/
def step (s : LruRun K V) (a : LruAct K V) : Option (LruRun K V) :=
  if s.Timely a then
    match a with
    | .put now key value =>
      some { cache := s.cache.put now key value, clock := now, log := s.log ++ [.put now key value] }
    | .get now key =>
      let (result, cache) := s.cache.get now key
      some { cache, clock := now, log := s.log ++ [.get now key result] }
    | .delete key =>
      let (found, cache) := s.cache.delete key
      some { s with cache, log := s.log ++ [.delete key found] }
    | .clear => some { s with cache := s.cache.clear, log := s.log ++ [.clear] }
    | .clearFrom startKey filter =>
      some { s with cache := s.cache.clearFrom startKey filter, log := s.log ++ [.clearFrom startKey filter] }
    | .take readings =>
      match s.cache.take (readings.getD · 0) with
      | .ok (result, cache) =>
        some { cache, clock := readings.getLast?.getD s.clock, log := s.log ++ [.take readings result] }
      | .error _ => none
  else none

/-- The calls so far have done to the cache what they do to an LRU map. -/
structure OK [DecidableEq K] (maxEntries timeoutMillisec : Nat) (s : LruRun K V) : Prop where
  limit : s.cache.maxEntries = maxEntries
  timeout : s.cache.timeoutMillisec = timeoutMillisec
  refines : ∃ m, TimedRecency.Run (entryLimit maxEntries) timeoutMillisec s.log m ∧ s.cache.Refines s.clock m

variable [DecidableEq K] {maxEntries timeoutMillisec : Nat} {s s' : LruRun K V}

theorem length_le {log : List (LruEvent K V)} {m : TimedRecency K V} {n : Nat}
    (hrun : TimedRecency.Run (entryLimit maxEntries) timeoutMillisec log m)
    (hn : entryLimit maxEntries = some n) : m.map.order.length ≤ n := by
  rw [hn] at hrun
  exact hrun.length_le

variable [Std.TransOrd K]

theorem new_ok (maxEntries timeoutMillisec : Nat) :
    OK maxEntries timeoutMillisec { cache := { maxEntries, timeoutMillisec } : LruRun K V } := by
  let c : SharedValueLruCache K V := { maxEntries, timeoutMillisec }
  have hmap : c.Realizes some (.empty : Recency K V) := SharedValueLruCache.Realizes.clear (c := c)
  refine ⟨rfl, rfl, .empty, .nil, hmap, fun k v ts hk => ?_⟩
  cases ((SharedValueLruCache.clear_spec (c := c)).2 k).symm.trans hk

variable [Std.LawfulEqOrd K]

theorem step_ok {a : LruAct K V} (h : OK maxEntries timeoutMillisec s) (hs : s.step a = some s') :
    OK maxEntries timeoutMillisec s' := by
  obtain ⟨rfl, rfl, m, hrun, hm⟩ := h
  unfold step at hs
  split at hs
  · rename_i ht
    cases a with
    | put now key value =>
      cases hs
      exact ⟨SharedValueLruCache.put_maxEntries _ _ _ _, SharedValueLruCache.put_timeout _ _ _ _, _,
        hrun.snoc (.put ..),
        hm.put (fun n hn => length_le hrun hn) ht.1 key value⟩
    | get now key =>
      cases hs
      obtain ⟨hans, hm'⟩ := hm.get ht.1 ht.2 key
      have hrun' := hrun.snoc (.get m now key)
      rw [← hans] at hrun'
      exact ⟨SharedValueLruCache.get_maxEntries _ _ _, SharedValueLruCache.get_timeout _ _ _, _, hrun', hm'⟩
    | delete key =>
      cases hs
      obtain ⟨hans, hm'⟩ := hm.delete key
      have hrun' := hrun.snoc (.delete m key)
      rw [← hans] at hrun'
      exact ⟨SharedValueLruCache.delete_maxEntries _ _, SharedValueLruCache.delete_timeout _ _, _, hrun', hm'⟩
    | clear =>
      cases hs
      exact ⟨rfl, rfl, _, hrun.snoc (.clear _), hm.clear⟩
    | clearFrom startKey filter =>
      cases hs
      exact ⟨SharedValueLruCache.clearFrom_maxEntries _ _ _, SharedValueLruCache.clearFrom_timeout _ _ _, _,
        hrun.snoc (.clearFrom ..), hm.clearFrom startKey filter⟩
    | take readings =>
      obtain ⟨hlen, hpair, hlt⟩ := ht
      obtain ⟨hle, -⟩ := List.pairwise_cons.mp hpair
      obtain ⟨result, c', htake, htaken, hm', hmax, htime⟩ := hm.take hlen hle hlt
      dsimp only at hs
      rw [htake] at hs
      cases hs
      refine ⟨hmax, htime, _, hrun.snoc (.take _ readings result htaken), hm'.map, fun k v ts hk => ?_⟩
      obtain ⟨hput, hpast⟩ := hm'.putAt k v ts hk
      refine ⟨hput, hpast.trans ?_⟩
      cases hlast : readings.getLast? with
      | none => exact le_refl _
      | some r => exact hle r (List.mem_of_getLast? hlast)
  · cases hs

/-- No call fails. -/
theorem step_isSome {a : LruAct K V} (h : OK maxEntries timeoutMillisec s) (ht : s.Timely a) :
    (s.step a).isSome := by
  obtain ⟨-, -, m, -, hm⟩ := h
  unfold step
  rw [if_pos ht]
  cases a with
  | put now key value | get now key | delete key | clear | clearFrom startKey filter => rfl
  | take readings =>
    obtain ⟨hlen, hpair, hlt⟩ := ht
    obtain ⟨result, c', htake, -⟩ := hm.take hlen (List.pairwise_cons.mp hpair).1 hlt
    dsimp only
    rw [htake]
    rfl

/-- What holds in every state. -/
structure IsLruMap (maxEntries timeoutMillisec : Nat) (s : LruRun K V) : Prop where
  refines : ∃ m, TimedRecency.Run (entryLimit maxEntries) timeoutMillisec s.log m ∧ s.cache.Refines s.clock m
  /-- Each entry's iterator is its key's node, and the list has no other node. -/
  indexed : s.cache.OK
  sameKeys : ∀ k, k ∈ s.cache.lruList.values ↔ k ∈ s.cache.entryMap
  nodup : s.cache.lruList.values.Nodup
  ordered : UseOrdered (LruEvent.uses s.log) s.cache.lruList.values
  bounded : maxEntries ≠ 0 → s.cache.lruList.size ≤ maxEntries
  /-- A `Put` keeps its own key, and drops a key only from the back of a full list. -/
  drops : ∀ now key value, key ∈ (s.cache.put now key value).lruList.values ∧
    ∀ k ∈ s.cache.lruList.values, k ∉ (s.cache.put now key value).lruList.values →
      k ≠ key ∧ key ∉ s.cache.lruList.values ∧ s.cache.lruList.values.length = maxEntries ∧
        s.cache.lruList.values.getLast? = some k
  enabled : ∀ a, s.Timely a → (s.step a).isSome
  takes : ∀ readings, s.Timely (.take readings) → ∃ result c', s.cache.take (readings.getD · 0) = .ok (result, c') ∧
    (result.map Prod.fst).Nodup ∧
    (∀ k v, (k, v) ∈ result ↔ ∃ e i, s.cache.entryMap.toList[i]? = some (k, e) ∧ e.value = v ∧
      (timeoutMillisec = 0 ∨ readings.getD i 0 ≤ e.timestamp + timeoutMillisec)) ∧
    (∀ k, k ∉ c'.entryMap) ∧ c'.lruList.values = []

theorem OK.drops (h : OK maxEntries timeoutMillisec s) (now : Nat) (key : K) (value : V) :
    key ∈ (s.cache.put now key value).lruList.values ∧
      ∀ k ∈ s.cache.lruList.values, k ∉ (s.cache.put now key value).lruList.values →
        k ≠ key ∧ key ∉ s.cache.lruList.values ∧ s.cache.lruList.values.length = maxEntries ∧
          s.cache.lruList.values.getLast? = some k := by
  obtain ⟨rfl, rfl, m, hrun, hm⟩ := h
  have hput : SharedValueLruCache.Realizes some (s.cache.put now key value)
      (m.map.put (entryLimit s.cache.maxEntries) key value) :=
    hm.map.put (entryLimit_getD _).symm (fun n hn => ⟨(entryLimit_eq_some hn).2, length_le hrun hn⟩) now key rfl
  rw [hput.order, hm.map.order]
  cases hlim : entryLimit s.cache.maxEntries with
  | none =>
    refine ⟨List.mem_cons_self, fun k hk hnot => absurd ?_ hnot⟩
    by_cases hkk : k = key
    · rw [hkk]
      exact List.mem_cons_self
    · exact List.mem_cons_of_mem _ (List.mem_filter.mpr ⟨hk, bne_iff_ne.mpr hkk⟩)
  | some n =>
    obtain ⟨hn, hpos⟩ := entryLimit_eq_some hlim
    rw [hn]
    exact TimedRecency.put_drops hpos (length_le hrun hlim) now key value

theorem OK.takes (h : OK maxEntries timeoutMillisec s) {readings : List Nat} (ht : s.Timely (.take readings)) :
    ∃ result c', s.cache.take (readings.getD · 0) = .ok (result, c') ∧ (result.map Prod.fst).Nodup ∧
      (∀ k v, (k, v) ∈ result ↔ ∃ e i, s.cache.entryMap.toList[i]? = some (k, e) ∧ e.value = v ∧
        (timeoutMillisec = 0 ∨ readings.getD i 0 ≤ e.timestamp + timeoutMillisec)) ∧
      (∀ k, k ∉ c'.entryMap) ∧ c'.lruList.values = [] := by
  obtain ⟨rfl, rfl, m, hrun, hm⟩ := h
  obtain ⟨hlen, hpair, hlt⟩ := ht
  obtain ⟨hle, -⟩ := List.pairwise_cons.mp hpair
  obtain ⟨result, c', htake, -, hm', -, -⟩ := hm.take hlen hle hlt
  obtain ⟨hnodup, hresult⟩ := SharedValueLruCache.take_result htake
  have hempty : c'.lruList.values = [] := hm'.map.order
  refine ⟨result, c', htake, hnodup, fun k v => ?_, fun k hk => ?_, hempty⟩
  · rw [hresult]
    refine exists_congr fun e => exists_congr fun i => and_congr_right fun hget => and_congr_right fun _ => ?_
    have he := Std.TreeMap.mem_toList_iff_getElem?_eq_some.mp (List.mem_of_getElem? hget)
    obtain ⟨hput, -⟩ := hm.putAt k e.value e.timestamp (by simp [SharedValueLruCache.find?, he])
    have hi : i < readings.length := by
      rw [hlen, ← Std.TreeMap.length_toList]
      exact (List.getElem?_eq_some_iff.mp hget).1
    have hmem : readings.getD i 0 ∈ readings := by
      rw [List.getD_eq_getElem?_getD, List.getElem?_eq_getElem hi]
      exact List.getElem_mem hi
    have hiff := hm.expired_iff (hle _ hmem) (hlt _ hmem) he
    rw [TimedRecency.Fresh, ← hput] at hiff
    rw [Bool.eq_false_iff, ne_eq, hiff, not_not]
  · have hmem := SharedValueLruCache.mem_keys.mp (Std.TreeMap.mem_keys.mpr hk)
    rw [← hm'.map.ok.mem_values, hempty] at hmem
    cases hmem

end LruRun

/-- **The cache is an LRU map with a timeout**, after any calls with readings that do not go back. -/
theorem sharedValueLruCache_refines {K V : Type} [Ord K] [Std.TransOrd K] [Std.LawfulEqOrd K] [DecidableEq K]
    (maxEntries timeoutMillisec : Nat) (acts : List (LruAct K V)) (s : LruRun K V)
    (h : exec LruRun.step { cache := { maxEntries, timeoutMillisec } } acts = some s) :
    s.IsLruMap maxEntries timeoutMillisec := by
  have hok : s.OK maxEntries timeoutMillisec :=
    exec_invariant (I := LruRun.OK maxEntries timeoutMillisec) (fun _ _ _ => LruRun.step_ok) h (LruRun.new_ok _ _)
  have ⟨hmax, htime, m, hrun, hm⟩ := hok
  have hcache : s.cache.OK := hm.map.ok
  refine ⟨⟨m, hrun, hm⟩, hcache, fun k => ?_, ?_, ?_, fun hpos => ?_, hok.drops, fun _ => LruRun.step_isSome hok,
    fun _ => hok.takes⟩
  · rw [hcache.mem_values, ← Std.TreeMap.mem_keys, SharedValueLruCache.mem_keys]
  · rw [hm.map.order]
    exact m.map.nodup
  · rw [hm.map.order]
    exact hrun.useOrdered
  · have hlen := LruRun.length_le hrun (show entryLimit maxEntries = some maxEntries from if_neg hpos)
    rw [← hm.map.order, NodeList.values, List.length_map] at hlen
    exact hlen

/-- Three keys in a cache of two: the third drops the second, as the first has
been read; when they are taken the first has expired. -/
theorem sharedValueLruCache_refines_three :
    ∃ s : LruRun Nat Nat, exec LruRun.step { cache := { maxEntries := 2, timeoutMillisec := 5 } }
        [.put 0 1 10, .put 1 2 20, .get 2 1, .put 4 3 30, .delete 2, .take [6, 9]] = some s ∧ s.IsLruMap 2 5 := by
  have hrun : (exec LruRun.step { cache := { maxEntries := 2, timeoutMillisec := 5 } : LruRun Nat Nat }
      [.put 0 1 10, .put 1 2 20, .get 2 1, .put 4 3 30, .delete 2, .take [6, 9]]).isSome := by decide +kernel
  obtain ⟨s, hs⟩ := Option.isSome_iff_exists.mp hrun
  exact ⟨s, hs, sharedValueLruCache_refines 2 5 _ s hs⟩

end ReadCacheFs
