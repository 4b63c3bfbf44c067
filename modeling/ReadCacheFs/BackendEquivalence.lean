/-
The policy storage, under LRU and with one budget for all files, and the
extension storage replace the same blocks.

Both realize the abstract LRU map (`Recency`): their lists are its order,
and what their maps lead to are its values. The one counts bytes and makes
room first, the other counts entries and cuts back afterwards.
-/
import ReadCacheFs.DataCacheStorage
import ReadCacheFs.PolicyInvariant
import ReadCacheFs.SharedValueLruMap

namespace ReadCacheFs

open Lib

/-! ## The extension storage -/

namespace ExtensionStorage

/-- The storage is the LRU map `r`, bounded by `limit` entries. -/
structure Realizes (limit : Option Nat) (s : ExtensionStorage)
    (r : Recency InMemCacheBlock InMemCacheDataEntry) : Prop where
  lru : s.lruCache.Realizes (s.heap[·]?) r
  pointed : ∀ k x, s.lruCache.find? k = some x → x.1 < s.heap.length
  maxEntries : s.lruCache.maxEntries = limit.getD 0
  timeoutMillisec : s.lruCache.timeoutMillisec = 0
  bound : ∀ n, limit = some n → 0 < n ∧ r.order.length ≤ n

variable {limit : Option Nat} {s : ExtensionStorage} {r : Recency InMemCacheBlock InMemCacheDataEntry}

theorem Realizes.put (h : s.Realizes limit r) (now : Nat) (key : InMemCacheBlock) (chunk : PageAlignedDataChunk)
    (versionTag : String) :
    (s.put now key chunk versionTag).Realizes limit (r.put limit key { data := chunk, versionTag }) := by
  have hgrow : s.lruCache.Realizes ((s.heap ++ [{ data := chunk, versionTag }])[·]?) r :=
    h.lru.congr fun k x hx => List.getElem?_append_left (h.pointed k x hx)
  have hput : (s.lruCache.put (steadyMillis now) key s.heap.length).Realizes
      ((s.heap ++ [{ data := chunk, versionTag }])[·]?) (r.put limit key { data := chunk, versionTag }) :=
    hgrow.put h.maxEntries h.bound (steadyMillis now) key List.getElem?_concat_length
  refine ⟨hput, fun k x hx => ?_, (SharedValueLruCache.put_maxEntries _ _ _ _).trans h.maxEntries,
    (SharedValueLruCache.put_timeout _ _ _ _).trans h.timeoutMillisec,
    fun n hn => ⟨(h.bound n hn).1, Recency.put_length hn⟩⟩
  · change x.1 < (s.heap ++ [_]).length
    rw [List.length_append]
    rcases SharedValueLruCache.put_find? h.lru.ok hx with ⟨_, rfl⟩ | ⟨_, hold⟩
    · exact Nat.lt_succ_self _
    · exact Nat.lt_of_lt_of_le (h.pointed k x hold) (Nat.le_add_right _ _)

/-- The cache changed, with entries gone at most. -/
theorem Realizes.shrink (h : s.Realizes limit r) {c : SharedValueLruCache InMemCacheBlock Nat}
    {r' : Recency InMemCacheBlock InMemCacheDataEntry} (hlru : c.Realizes (s.heap[·]?) r')
    (hfind : ∀ k x, c.find? k = some x → s.lruCache.find? k = some x)
    (hmax : c.maxEntries = s.lruCache.maxEntries) (ht : c.timeoutMillisec = s.lruCache.timeoutMillisec)
    (hlen : r'.order.length ≤ r.order.length) :
    ({ s with lruCache := c } : ExtensionStorage).Realizes limit r' :=
  ⟨hlru, fun k x hx => h.pointed k x (hfind k x hx), hmax.trans h.maxEntries, ht.trans h.timeoutMillisec,
    fun n hn => ⟨(h.bound n hn).1, hlen.trans (h.bound n hn).2⟩⟩

theorem Realizes.delete (h : s.Realizes limit r) (key : InMemCacheBlock) :
    (s.delete key).1 = decide (key ∈ r.order) ∧ (s.delete key).2.Realizes limit (r.remove key) := by
  obtain ⟨hfound, hlru⟩ := h.lru.delete key
  obtain ⟨_, hnone, hrest⟩ := SharedValueLruCache.delete_spec h.lru.ok key
  refine ⟨hfound, h.shrink (c := (s.lruCache.delete key).2) hlru (fun k x hx => ?_)
    (SharedValueLruCache.delete_maxEntries _ _) (SharedValueLruCache.delete_timeout _ _)
      (List.length_filter_le _ _)⟩
  by_cases hk : k = key
  · rw [hk, hnone] at hx
    cases hx
  · rw [← hrest k hk, hx]

theorem Realizes.get (h : s.Realizes limit r) (now : Nat) (key : InMemCacheBlock) (tag : String) :
    (s.get now key tag).1.bind (s.heap[·]?) = (r.getIf key fun d => validateVersionTag d.versionTag tag).1 ∧
      (s.get now key tag).2.Realizes limit (r.getIf key fun d => validateVersionTag d.versionTag tag).2 := by
  obtain ⟨hval, hnone, hlru⟩ := h.lru.get h.timeoutMillisec (steadyMillis now) key
  obtain ⟨_, hspec⟩ := SharedValueLruCache.get_spec h.lru.ok (steadyMillis now) key
  have hmax := SharedValueLruCache.get_maxEntries s.lruCache (steadyMillis now) key
  have ht := SharedValueLruCache.get_timeout s.lruCache (steadyMillis now) key
  unfold ExtensionStorage.get
  cases hget : s.lruCache.get (steadyMillis now) key with
  | mk found c =>
    rw [hget] at hval hnone hlru hspec hmax ht
    dsimp only at hval hnone hlru hspec hmax ht ⊢
    cases found with
    | none =>
      have hnot : key ∉ r.order := hnone.mp rfl
      rw [Recency.getIf, Recency.value_eq_none.mpr hnot]
      rw [Recency.touch_of_not_mem hnot] at hlru
      refine ⟨rfl, h.shrink hlru (fun k x hx => ?_) hmax ht (Nat.le_refl _)⟩
      by_cases hk : k = key
      · rw [hk, hspec.1] at hx
        cases hx
      · rw [← hspec.2 k hk, hx]
    | some p =>
      obtain ⟨⟨ts, hfind, _⟩, hsame⟩ := hspec
      obtain ⟨d, hd⟩ : ∃ d, s.heap[p]? = some d := ⟨_, List.getElem?_eq_getElem (h.pointed key (p, ts) hfind)⟩
      have htouch := h.shrink (c := c) hlru (fun k x hx => by rw [← hsame k, hx]) hmax ht
        (Recency.touch_length r key).le
      rw [Option.bind_some, hd] at hval
      rw [Recency.getIf, ← hval]
      simp only [hd]
      cases hv : validateVersionTag d.versionTag tag with
      | true => exact ⟨hd, htouch⟩
      | false =>
        -- The mismatch is found out after the key has been used.
        have hdel := (htouch.delete key).2
        rw [Recency.touch_remove] at hdel
        exact ⟨rfl, hdel⟩

theorem Realizes.clear (h : s.Realizes limit r) : s.clear.Realizes limit .empty := by
  refine h.shrink (c := s.lruCache.clear) .clear (fun k x hx => ?_) rfl rfl (Nat.zero_le _)
  rw [(SharedValueLruCache.clear_spec (c := s.lruCache)).2] at hx
  cases hx

theorem Realizes.clearFile (h : s.Realizes limit r) (fname : String) :
    (s.clearFrom ⟨fname, 0, 0⟩ (·.fname == fname)).Realizes limit (r.keep (·.fname != fname)) := by
  have hlru := h.lru.clearFrom ⟨fname, 0, 0⟩ (·.fname == fname)
  have hkeys : ∀ k ∈ r.order, (k ∈ s.lruCache.keysFrom ⟨fname, 0, 0⟩ (·.fname == fname) ↔ k.fname = fname) := by
    intro k hk
    rw [ExtensionStorage.mem_keysFrom_file, and_iff_right (h.lru.mem_order.mp hk)]
  have hkeep : r.keep (· ∉ s.lruCache.keysFrom ⟨fname, 0, 0⟩ (·.fname == fname)) = r.keep (·.fname != fname) := by
    refine Recency.keep_congr fun k hk => ?_
    rw [Bool.eq_iff_iff]
    simp [hkeys k hk]
  rw [hkeep] at hlru
  refine h.shrink hlru (fun k x hx => ?_) (SharedValueLruCache.clearFrom_maxEntries _ _ _)
    (SharedValueLruCache.clearFrom_timeout _ _ _) (List.length_filter_le _ _)
  obtain ⟨hgone, hkept⟩ := (SharedValueLruCache.clearFrom_spec h.lru.ok ⟨fname, 0, 0⟩ (·.fname == fname)).2 k
  by_cases hk : k ∈ s.lruCache.keysFrom ⟨fname, 0, 0⟩ (·.fname == fname)
  · rw [hgone hk] at hx
    cases hx
  · rw [← hkept hk, hx]

theorem Realizes.take (h : s.Realizes limit r) (clock : Nat → Nat) :
    ∃ taken s', s.take clock = .ok (taken, s') ∧ s'.Realizes limit .empty := by
  obtain ⟨taken, c, htake, hlru, hnone, hmax, ht⟩ := h.lru.take (steadyMillis ∘ clock)
  refine ⟨taken, { s with lruCache := c }, by rw [ExtensionStorage.take, htake]; rfl, ?_⟩
  refine h.shrink hlru (fun k x hx => ?_) hmax ht (Nat.zero_le _)
  rw [hnone] at hx
  cases hx

theorem Realizes.mem_keys (h : s.Realizes limit r) (k : InMemCacheBlock) : k ∈ s.keys ↔ k ∈ r.order := by
  rw [h.lru.mem_order, keys, SharedValueLruCache.keys, Std.TreeMap.mem_keys,
    ← Std.TreeMap.isSome_getElem?_iff_mem,
    Option.isSome_iff_exists]

theorem Realizes.new {limit : Option Nat} (hpos : ∀ n, limit = some n → 0 < n) :
    (newExtensionStorage (limit.getD 0) 0).Realizes limit .empty := by
  have hfind : ∀ k, (newExtensionStorage (limit.getD 0) 0).lruCache.find? k = none := by
    intro k
    simp [newExtensionStorage, SharedValueLruCache.find?]
  refine ⟨⟨(OK.new _ 0).1.lru, rfl, fun k => by rw [hfind]; rfl⟩, fun k x hx => ?_, rfl, rfl,
    fun n hn => ⟨hpos n hn, Nat.zero_le _⟩⟩
  rw [hfind] at hx
  cases hx

end ExtensionStorage

/-! ## One group under LRU -/

namespace Group

/-- The group is the LRU map `r`, all its entries of one size. A budget in
bytes is one in entries then: that of the entries it has room for. -/
structure Realizes (limit : Option Nat) (size : Nat) (heap : DataHeap) (g : Group)
    (r : Recency InMemCacheBlock InMemCacheDataEntry) : Prop where
  policy : ∃ p : ListPolicy, g.policy = .lru p ∧ p.OK ∧ p.order.values = r.order
  value : ∀ k, (g.entries.lookup k).bind (fun e => heap[e.data]?) = r.value k
  pointed : ∀ k e, g.entries.lookup k = some e → e.data < heap.length
  bytes : ∀ k e, g.entries.lookup k = some e → e.bytes = size
  unbounded : limit = none → g.bounded = false
  bounded : ∀ n, limit = some n → 0 < n ∧ g.bounded = true ∧ n * size ≤ g.capacityBytes ∧ g.capacityBytes < (n + 1) * size ∧
    (n + 1) * size < 2 ^ 64 ∧ r.order.length ≤ n ∧ g.usedBytes = r.order.length * size

variable {limit : Option Nat} {size : Nat} {heap : DataHeap} {g g' : Group}
  {r : Recency InMemCacheBlock InMemCacheDataEntry} {key : InMemCacheBlock} {e : PolicyEntry}

theorem Realizes.mem_order (h : g.Realizes limit size heap r) :
    key ∈ r.order ↔ ∃ e, g.entries.lookup key = some e := by
  rw [r.mem_order, ← h.value key]
  cases hl : g.entries.lookup key with
  | none => simp
  | some e => simp [h.pointed key e hl]

theorem Realizes.none_iff (h : g.Realizes limit size heap r) : g.entries.lookup key = none ↔ key ∉ r.order := by
  rw [h.mem_order, Option.eq_none_iff_forall_ne_some]
  simp

/-- An entry has gone, wherever it was taken out. -/
theorem Realizes.removed (h : g.Realizes limit size heap r) (he : g.entries.lookup key = some e) {p : ListPolicy}
    (hp : g'.policy = .lru p) (hok : p.OK) (hord : p.order.values = r.order.filter (· != key))
    (hent : g'.entries = g.entries.erase key) (hused : g'.usedBytes = u64Sub g.usedBytes e.bytes)
    (hsh : SameShape g g') : g'.Realizes limit size heap (r.remove key) := by
  have hold : ∀ k e, g'.entries.lookup k = some e → g.entries.lookup k = some e := fun k e hk =>
    (lookup_erase_iff.mp (hent ▸ hk)).2
  have hlen := Recency.remove_length (h.mem_order.mpr ⟨e, he⟩)
  refine ⟨⟨p, hp, hok, hord⟩, fun k => ?_, fun k e hk => h.pointed k e (hold k e hk),
    fun k e hk => h.bytes k e (hold k e hk),
    fun hl => hsh.bounded.trans (h.unbounded hl), fun n hn => ?_⟩
  · rw [Recency.remove, Recency.keep_value, hent]
    by_cases hk : k = key
    · subst hk
      rw [AList.lookup_erase]
      simp
    · rw [AList.lookup_erase_ne hk, h.value k, if_pos (by simpa using hk)]
  · obtain ⟨hpos, hb, hlo, hhi, hfit, hle, hu⟩ := h.bounded n hn
    refine ⟨hpos, hsh.bounded.trans hb, hsh.capacityBytes.symm ▸ hlo, hsh.capacityBytes.symm ▸ hhi,
      hfit, by omega, ?_⟩
    have hmul : r.order.length * size ≤ (n + 1) * size := Nat.mul_le_mul_right _ (Nat.le_succ_of_le hle)
    rw [hused, hu, h.bytes key e he]
    rw [← hlen, Nat.add_mul, Nat.one_mul] at hmul ⊢
    rw [u64Sub_eq (by omega) (by omega), Nat.add_sub_cancel]

theorem Realizes.removeEntry (h : g.Realizes limit size heap r) (he : g.entries.lookup key = some e) :
    (g.removeEntry key e).Realizes limit size heap (r.remove key) := by
  obtain ⟨p, hp, hok, hord⟩ := h.policy
  refine h.removed he (p := p.onErase key) (by rw [Group.removeEntry, hp]; rfl)
    (ListPolicy.onErase_spec hok key).1 ?_ rfl rfl
    ⟨rfl, rfl, rfl⟩
  have hmem : key ∈ p.order.values := hord ▸ h.mem_order.mpr ⟨e, he⟩
  obtain ⟨n, hn⟩ := hok.mem_values.mp hmem
  rw [ListPolicy.onErase, hn, ← hord]
  exact Indexes.erase_values hok hn

theorem Realizes.removeExisting (h : g.Realizes limit size heap r) (key : InMemCacheBlock) :
    (g.removeExisting key).Realizes limit size heap (r.remove key) := by
  unfold Group.removeExisting
  cases he : g.entries.lookup key with
  | some e => exact h.removeEntry he
  | none =>
    rw [Recency.remove_of_not_mem (h.none_iff.mp he)]
    exact h

/-- With room for one more nothing is evicted. -/
theorem Realizes.evictToFit_room (h : g.Realizes limit size heap r)
    (hroom : ∀ n, limit = some n → r.order.length + 1 ≤ n) :
    (g.evictToFit size).1 = g := by
  rw [evictToFit_fst, if_pos]
  cases hl : limit with
  | none => simp [h.unbounded hl]
  | some n =>
    obtain ⟨_, hb, hlo, _, hfit, hle, hu⟩ := h.bounded n hl
    have hmul : (r.order.length + 1) * size ≤ n * size := Nat.mul_le_mul_right _ (hroom n hl)
    have hsum : g.usedBytes + size = (r.order.length + 1) * size := by rw [hu, Nat.add_mul, Nat.one_mul]
    rw [hsum, u64_eq (by omega)]
    simp [hb]
    omega

/-- In a full group the key at the back goes. -/
theorem Realizes.evictToFit_full (h : g.Realizes limit size heap r) {n : Nat} (hl : limit = some (n + 1))
    (hlen : r.order.length = n + 1) : (g.evictToFit size).1.Realizes limit size heap (r.trim n) := by
  obtain ⟨p, hp, hok, hord⟩ := h.policy
  obtain ⟨_, hb, _, hhi, hfit, _, hu⟩ := h.bounded (n + 1) hl
  have hover : ¬(!g.bounded || decide (u64 (g.usedBytes + size) ≤ g.capacityBytes)) = true := by
    have hsum : g.usedBytes + size = (n + 1 + 1) * size := by rw [hu, hlen, Nat.add_mul (n + 1), Nat.one_mul]
    rw [hsum, u64_eq (by omega)]
    simp [hb]
    omega
  cases hback : p.order.back? with
  | none =>
    have hnil := List.getLast?_eq_none_iff.mp hback
    rw [← hord, NodeList.values, hnil] at hlen
    cases hlen
  | some q =>
    obtain ⟨node, victim⟩ := q
    obtain ⟨l, hl'⟩ := List.getLast?_eq_some_iff.mp hback
    have hsplit : r.order = l.map Prod.snd ++ [victim] := by
      rw [← hord, NodeList.values, hl', List.map_append]
      rfl
    have hn : (l.map Prod.snd).length = n := by
      rw [hsplit, List.length_append, List.length_singleton] at hlen
      omega
    have htrim : r.trim n = r.remove victim := hn ▸ Recency.trim_of_concat hsplit
    have hindex : p.index.lookup victim = some node := Indexes.get_of_mem hok (List.mem_of_getLast? hback)
    obtain ⟨e, he⟩ := h.mem_order.mp (show victim ∈ r.order by rw [hsplit]; simp)
    have hpop : g.policy.popVictim = (some victim,
        .lru { order := p.order.erase node, index := p.index.erase victim }) := by
      simp only [hp, EvictionPolicy.popVictim, LruPolicy.popVictim, ListPolicy.pop, hback]
      rfl
    have hgone : (g.evictVictim (.lru { order := p.order.erase node, index := p.index.erase victim }) victim e).Realizes
        limit size heap (r.remove victim) :=
      h.removed he rfl (ListPolicy.eraseNode_spec hok hindex).1
        (hord ▸ Indexes.erase_values hok hindex) rfl rfl ⟨rfl, rfl, rfl⟩
    rw [evictToFit_fst, if_neg hover, hpop, htrim]
    simp only [he]
    rw [hgone.evictToFit_room fun m hm => ?_]
    · exact hgone
    · obtain rfl : n + 1 = m := Option.some.inj (hl.symm.trans hm)
      have := Recency.remove_length (show victim ∈ r.order by rw [hsplit]; simp)
      omega

theorem Realizes.insertEntry (h : g.Realizes limit size heap r) (hk : key ∉ r.order)
    (hroom : ∀ n, limit = some n → r.order.length + 1 ≤ n) {d : InMemCacheDataEntry} (hd : heap[e.data]? = some d)
    (he : e.bytes = size) : (g.insertEntry key e).Realizes limit size heap (r.insert key d) := by
  obtain ⟨p, hp, hok, hord⟩ := h.policy
  have hnone : p.index.lookup key = none := by
    rw [Option.eq_none_iff_forall_ne_some]
    intro n hn
    exact hk (hord ▸ hok.mem_values.mpr ⟨n, hn⟩)
  have hlook : ∀ k e', (g.insertEntry key e).entries.lookup k = some e' → (k = key ∧ e' = e) ∨
      g.entries.lookup k = some e' := by
    intro k e' hl
    by_cases hkk : k = key
    · subst hkk
      rw [Group.insertEntry, AList.lookup_insert] at hl
      exact .inl ⟨rfl, (Option.some.inj hl).symm⟩
    · rw [Group.insertEntry, AList.lookup_insert_ne hkk] at hl
      exact .inr hl
  obtain ⟨hok', hvals⟩ := ListPolicy.pushFront_spec hok hnone
  refine ⟨⟨p.pushFront key, ?_, hok', ?_⟩, fun k => ?_, fun k e' hl => ?_, fun k e' hl => ?_, h.unbounded,
    fun n hn => ?_⟩
  · rw [Group.insertEntry, hp, EvictionPolicy.onInsert, LruPolicy.onInsert, hnone]
  · rw [hvals, hord, Recency.insert_order, Recency.filter_ne_of_not_mem hk]
  · by_cases hkk : k = key
    · subst hkk
      rw [Group.insertEntry, AList.lookup_insert]
      simp [hd, Recency.insert]
    · rw [Group.insertEntry, AList.lookup_insert_ne hkk, h.value k]
      simp [Recency.insert, hkk]
  · rcases hlook k e' hl with ⟨_, rfl⟩ | hold
    · exact (List.getElem?_eq_some_iff.mp hd).1
    · exact h.pointed k e' hold
  · rcases hlook k e' hl with ⟨_, rfl⟩ | hold
    · exact he
    · exact h.bytes k e' hold
  · obtain ⟨hpos, hb, hlo, hhi, hfit, _, hu⟩ := h.bounded n hn
    have hone := hroom n hn
    have hmul : (r.order.length + 1) * size ≤ n * size := Nat.mul_le_mul_right _ hone
    refine ⟨hpos, hb, hlo, hhi, hfit, ?_, ?_⟩
    · rw [Recency.insert_order, Recency.filter_ne_of_not_mem hk, List.length_cons]
      exact hone
    · rw [Recency.insert_order, Recency.filter_ne_of_not_mem hk, List.length_cons]
      have hsum : g.usedBytes + e.bytes = (r.order.length + 1) * size := by rw [hu, he, Nat.add_mul, Nat.one_mul]
      rw [Group.insertEntry, hsum, u64_eq (by omega)]

/-- Room made first, and the new entry put in. -/
theorem Realizes.put (h : g.Realizes limit size heap r) (key : InMemCacheBlock) {d : InMemCacheDataEntry}
    (hd : heap[e.data]? = some d) (he : e.bytes = size) :
    (((g.removeExisting key).evictToFit size).1.insertEntry key e).Realizes limit size heap
      (r.put limit key d) := by
  have hrem := h.removeExisting key
  have hout : key ∉ (r.remove key).order := by simp
  cases limit with
  | none =>
    rw [hrem.evictToFit_room (fun n hn => by cases hn), Recency.put_none r, ← Recency.insert_remove r]
    exact hrem.insertEntry hout (fun n hn => by cases hn) hd he
  | some n =>
    obtain ⟨hpos, _, _, _, _, hlen, _⟩ := hrem.bounded n rfl
    obtain ⟨m, rfl⟩ := Nat.exists_eq_succ_of_ne_zero hpos.ne'
    rw [Recency.put_succ]
    have hfit : (((g.removeExisting key).evictToFit size).1).Realizes (some (m + 1)) size heap
        ((r.remove key).trim m) := by
      by_cases hfull : (r.remove key).order.length = m + 1
      · exact hrem.evictToFit_full rfl hfull
      · have hle : (r.remove key).order.length ≤ m := by omega
        rw [hrem.evictToFit_room (fun n hn => by cases hn; omega), Recency.trim_of_le hle]
        exact hrem
    refine hfit.insertEntry (fun hm => hout ?_) (fun n hn => ?_) hd he
    · rw [Recency.trim_order] at hm
      exact List.mem_of_mem_take hm
    · cases hn
      rw [Recency.trim_order]
      exact Nat.succ_le_succ (List.length_take_le _ _)

theorem Realizes.congr {heap' : DataHeap} (h : g.Realizes limit size heap r)
    (halloc : ∃ alloc, heap' = heap ++ alloc) :
    g.Realizes limit size heap' r := by
  obtain ⟨alloc, rfl⟩ := halloc
  refine ⟨h.policy, fun k => ?_, fun k e hl => ?_, h.bytes, h.unbounded, h.bounded⟩
  · rw [← h.value k]
    cases hl : g.entries.lookup k with
    | none => rfl
    | some e => exact List.getElem?_append_left (h.pointed k e hl)
  · rw [List.length_append]
    have := h.pointed k e hl
    omega

theorem Realizes.clear (h : g.Realizes limit size heap r) : g.clear.Realizes limit size heap .empty := by
  obtain ⟨p, hp, _, _⟩ := h.policy
  have hnone : ∀ k, g.clear.entries.lookup k = none := fun k => AList.lookup_empty k
  have hok : p.clear.OK := Indexes.nil fun k => AList.lookup_empty k
  refine ⟨⟨p.clear, by rw [Group.clear, hp]; rfl, hok, rfl⟩, fun k => by rw [hnone]; rfl, fun k e hl => ?_,
    fun k e hl => ?_,
    h.unbounded, fun n hn => ?_⟩
  · rw [hnone] at hl
    cases hl
  · rw [hnone] at hl
    cases hl
  · obtain ⟨hpos, hb, hlo, hhi, hfit, _, _⟩ := h.bounded n hn
    exact ⟨hpos, hb, hlo, hhi, hfit, Nat.zero_le _, (Nat.zero_mul _).symm⟩

/-- The counters are not part of the map. -/
theorem Realizes.count (h : g.Realizes limit size heap r) (hits misses : Nat) :
    ({ g with hits, misses } : Group).Realizes limit size heap r :=
  ⟨h.policy, h.value, h.pointed, h.bytes, h.unbounded, h.bounded⟩

theorem Realizes.onHit (h : g.Realizes limit size heap r) (hk : key ∈ r.order) (hits : Nat) :
    ({ g with hits, policy := g.policy.onHit key } : Group).Realizes limit size heap (r.touch key) := by
  obtain ⟨p, hp, hok, hord⟩ := h.policy
  obtain ⟨n, hn⟩ := hok.mem_values.mp (hord ▸ hk : key ∈ p.order.values)
  refine ⟨⟨p.touch key, by rw [hp]; rfl, (ListPolicy.touch_spec hok key).1, ?_⟩, h.value, h.pointed, h.bytes,
    h.unbounded, ?_⟩
  · rw [ListPolicy.touch, hn, Recency.touch_order hk, ← hord]
    exact Indexes.moveToFront_values hok hn
  · rw [Recency.touch_length]
    exact h.bounded

/-- The loop of a filtered clear takes away what it is given and matches. -/
theorem Realizes.clearMatching (filter : InMemCacheBlock → Bool) {l : List (Σ _ : InMemCacheBlock, PolicyEntry)}
    (h : g.Realizes limit size heap r) (hnd : l.NodupKeys) (hl : ∀ kv ∈ l, g.entries.lookup kv.1 = some kv.2) :
    (g.clearMatching filter l).Realizes limit size heap (r.keep fun k => decide (k ∉ l.keys) || !filter k) := by
  induction l generalizing g r with
  | nil =>
    rw [Recency.keep_eq_self (by simp)]
    exact h
  | cons kv rest ih =>
    obtain ⟨key, e⟩ := kv
    obtain ⟨hnot, hnd⟩ := List.nodupKeys_cons.mp hnd
    have hlook := hl ⟨key, e⟩ (by simp)
    rw [Group.clearMatching]
    split
    next hf =>
      have hrest : ∀ kv ∈ rest, (g.removeEntry key e).entries.lookup kv.1 = some kv.2 := by
        intro kv hkv
        have hne : kv.1 ≠ key := fun he => hnot (he ▸ List.mem_keys.mpr ⟨kv.2, hkv⟩)
        rw [Group.removeEntry, AList.lookup_erase_ne hne]
        exact hl kv (List.mem_cons_of_mem _ hkv)
      have := ih (h.removeEntry hlook) hnd hrest
      rw [Recency.remove, Recency.keep_keep] at this
      have hkeep :
          (r.keep fun k => decide (k ∉ (⟨key, e⟩ :: rest : List (Σ _ : InMemCacheBlock, PolicyEntry)).keys) ||
            !filter k) = r.keep fun k => (decide (k ∉ rest.keys) || !filter k) && k != key := by
        refine Recency.keep_congr fun k _ => ?_
        by_cases hk : k = key
        · simp [hk, hf]
        · simp [hk]
      rw [hkeep]
      exact this
    next hf =>
      have := ih h hnd fun kv hkv => hl kv (List.mem_cons_of_mem _ hkv)
      convert this using 1
      refine Recency.keep_congr fun k _ => ?_
      by_cases hk : k = key
      · simp [hk, hf]
      · simp [hk]

end Group

/-! ## The policy storage in global scope -/

namespace PolicyStorage

structure Realizes (limit : Option Nat) (size : Nat) (s : PolicyStorage)
    (r : Recency InMemCacheBlock InMemCacheDataEntry) : Prop where
  routed : s.Routed
  timeoutMillisec : s.timeoutMillisec = 0
  group : ∃ g, s.groups = [g] ∧ g.Realizes limit size s.heap r

variable {limit : Option Nat} {size : Nat} {s : PolicyStorage} {r : Recency InMemCacheBlock InMemCacheDataEntry}

/-- There is but one group. -/
theorem chooseGroup_single (g : Group) (fname : String) : chooseGroup [g] fname = 0 := by
  have := chooseGroup_lt (List.cons_ne_nil g []) fname
  rw [List.length_singleton] at this
  omega

theorem Realizes.put (h : s.Realizes limit size r) (now : Nat) (key : InMemCacheBlock)
    {chunk : PageAlignedDataChunk} (hsize : chargedBytes chunk = size) (versionTag : String) :
    (s.put now key chunk versionTag).Realizes limit size (r.put limit key { data := chunk, versionTag }) := by
  obtain ⟨alloc, hm, _⟩ := put_moves h.routed now key chunk versionTag
  obtain ⟨g, hg, hgr⟩ := h.group
  obtain ⟨g₀, hg₀, hput⟩ := put_cases h.routed now key chunk versionTag
  have hg' : (s.groupFor key.fname).2.groups = [g] := by rw [groupFor_eq]; exact hg
  rw [hg, chooseGroup_single] at hg₀ hput
  obtain rfl : g = g₀ := Option.some.inj hg₀
  refine ⟨hm.routed h.routed, hm.timeoutMillisec.trans h.timeoutMillisec, ?_⟩
  rcases hput with ⟨hb, hlt, _⟩ | ⟨_, hput⟩
  · exfalso
    cases hl : limit with
    | none =>
      rw [hgr.unbounded hl] at hb
      cases hb
    | some n =>
      obtain ⟨hpos, _, hlo, _⟩ := hgr.bounded n hl
      have := Nat.le_mul_of_pos_left size hpos
      omega
  · rw [hput, groupFor_eq]
    dsimp only
    rw [hg, hsize]
    refine ⟨_, rfl, ?_⟩
    exact (hgr.congr ⟨_, rfl⟩).put key List.getElem?_concat_length rfl

/-- One group is one of one. -/
theorem Realizes.set (h : s.Realizes limit size r) {t : PolicyStorage} {g : Group}
    {r' : Recency InMemCacheBlock InMemCacheDataEntry} (hm : Moves s t []) (ht : t.groups = [g])
    (hg : g.Realizes limit size s.heap r') : t.Realizes limit size r' := by
  refine ⟨hm.routed h.routed, hm.timeoutMillisec.trans h.timeoutMillisec, g, ht, ?_⟩
  rw [hm.heap, List.append_nil]
  exact hg

theorem Realizes.get (h : s.Realizes limit size r) (now : Nat) (key : InMemCacheBlock) (tag : String) :
    (s.get now key tag).1.bind (s.heap[·]?) = (r.getIf key fun d => validateVersionTag d.versionTag tag).1 ∧
      (s.get now key tag).2.Realizes limit size (r.getIf key fun d => validateVersionTag d.versionTag tag).2 := by
  have hm := get_moves h.routed now key tag
  obtain ⟨g, hg, hgr⟩ := h.group
  obtain ⟨g₀, hg₀, hget⟩ := get_cases h.routed now key tag
  have hg' : (s.groupFor key.fname).2.groups = [g] := by rw [groupFor_eq]; exact hg
  rw [hg, chooseGroup_single] at hg₀ hget
  obtain rfl : g = g₀ := Option.some.inj hg₀
  have hexp : ∀ e, s.expired now e = false := fun e => by simp [expired, h.timeoutMillisec]
  have hval := hgr.value key
  rcases hget with ⟨hn, hget⟩ | ⟨e, d, hl, hd, hget⟩
  · rw [hn, Option.bind_none] at hval
    rw [Recency.getIf, ← hval]
    rw [hget] at hm ⊢
    exact ⟨rfl, h.set hm (by rw [hg']; rfl) (hgr.count g.hits _)⟩
  · rw [hl, Option.bind_some, hd] at hval
    rw [Recency.getIf, ← hval]
    dsimp only
    rcases hget with ⟨hstale, hget⟩ | ⟨_, htag, hget⟩
    · have htag : validateVersionTag d.versionTag tag = false := hstale.resolve_left (by simp [hexp])
      rw [hget] at hm ⊢
      rw [htag]
      exact ⟨rfl, h.set hm (by rw [hg']; rfl) ((hgr.removeEntry hl).count g.hits _)⟩
    · rw [hget] at hm ⊢
      rw [htag]
      exact ⟨hd, h.set hm (by rw [hg']; rfl) (hgr.onHit (hgr.mem_order.mpr ⟨e, hl⟩) _)⟩

theorem Realizes.delete (h : s.Realizes limit size r) (key : InMemCacheBlock) :
    (s.delete key).1 = decide (key ∈ r.order) ∧ (s.delete key).2.Realizes limit size (r.remove key) := by
  have hm := delete_moves h.routed key
  obtain ⟨g, hg, hgr⟩ := h.group
  obtain ⟨g₀, hg₀, hdel⟩ := delete_cases h.routed key
  have hg' : (s.groupFor key.fname).2.groups = [g] := by rw [groupFor_eq]; exact hg
  rw [hg, chooseGroup_single] at hg₀ hdel
  obtain rfl : g = g₀ := Option.some.inj hg₀
  rcases hdel with ⟨hn, hdel⟩ | ⟨e, hl, hdel⟩
  · have hnot := hgr.none_iff.mp hn
    rw [hdel] at hm ⊢
    rw [Recency.remove_of_not_mem hnot]
    exact ⟨(decide_eq_false hnot).symm, h.set hm hg' hgr⟩
  · rw [hdel] at hm ⊢
    exact ⟨(decide_eq_true (hgr.mem_order.mpr ⟨e, hl⟩)).symm, h.set hm (by rw [hg']; rfl) (hgr.removeEntry hl)⟩

theorem Realizes.clear (h : s.Realizes limit size r) : s.clear.Realizes limit size .empty := by
  obtain ⟨g, hg, hgr⟩ := h.group
  exact h.set s.clear_moves (by rw [PolicyStorage.clear, hg]; rfl) hgr.clear

theorem Realizes.clearFile (h : s.Realizes limit size r) (hash : PolicyHash) (fname : String) :
    (s.clearFrom hash ⟨fname, 0, 0⟩ (·.fname == fname)).Realizes limit size (r.keep (·.fname != fname)) := by
  obtain ⟨g, hg, hgr⟩ := h.group
  have hp := hash.perm g.entries.entries
  have hclear := hgr.clearMatching (·.fname == fname) ((List.perm_nodupKeys hp).mpr g.entries.nodupKeys)
    fun kv hkv => AList.mem_lookup_iff.mpr (hp.mem_iff.mp hkv)
  refine h.set (s.clearFrom_moves hash _ _) (by rw [PolicyStorage.clearFrom, hg]; rfl) ?_
  convert hclear using 1
  refine Recency.keep_congr fun k hk => ?_
  obtain ⟨e, he⟩ := hgr.mem_order.mp hk
  have hmem : k ∈ (hash.order g.entries.entries).keys :=
    List.mem_keys.mpr ⟨e, hp.mem_iff.mpr (AList.mem_lookup_iff.mp he)⟩
  simp [hmem, bne]

theorem Realizes.mem_keys (h : s.Realizes limit size r) (hash : PolicyHash) (k : InMemCacheBlock) :
    k ∈ s.keys hash ↔ k ∈ r.order := by
  obtain ⟨g, hg, hgr⟩ := h.group
  rw [hgr.mem_order, keys, hg]
  simp only [List.flatMap_cons, List.flatMap_nil, List.append_nil, List.mem_map, Sigma.exists,
    exists_and_right, exists_eq_right]
  exact exists_congr fun e => ((hash.perm _).mem_iff).trans AList.mem_lookup_iff.symm

theorem Realizes.new {maxBytes : Nat} {s₀ : PolicyStorage} (hnew : newPolicyStorage maxBytes 0 .lru [] = .ok s₀)
    (hzero : limit = none → maxBytes = 0) (hbudget : ∀ n, limit = some n → 0 < n ∧ 0 < maxBytes ∧
      n * size ≤ maxBytes ∧
      maxBytes < (n + 1) * size ∧ (n + 1) * size < 2 ^ 64) : s₀.Realizes limit size .empty := by
  obtain ⟨hrouted, ht, _⟩ := new_routed hnew
  have hnone : ∀ k, (∅ : PolicyEntries).lookup k = none := fun k => AList.lookup_empty k
  have hlookup : ∀ {k : InMemCacheBlock} {e : PolicyEntry} {q : Prop},
      (∅ : PolicyEntries).lookup k = some e → q := by
    intro k e q hl
    rw [hnone] at hl
    cases hl
  simp only [newPolicyStorage] at hnew
  split at hnew
  · cases hnew
  cases hnew
  refine ⟨hrouted, ht, _, rfl, ⟨{}, rfl, Indexes.nil fun k => AList.lookup_empty k, rfl⟩,
    fun k => by rw [hnone]; rfl,
    fun k e hl => hlookup hl, fun k e hl => hlookup hl, fun hl => by simp [hzero hl], fun n hn => ?_⟩
  obtain ⟨hpos, hmax, hlo, hhi, hfit⟩ := hbudget n hn
  have hshare : (if maxBytes = 0 then 0 else u64Sub maxBytes 0 / 1) = maxBytes := by
    rw [if_neg (by omega), u64Sub_eq (Nat.zero_le _) (by omega), Nat.sub_zero, Nat.div_one]
  refine ⟨hpos, by simpa using hmax, ?_, ?_, hfit, Nat.zero_le _, (Nat.zero_mul _).symm⟩
  · exact hshare.symm ▸ hlo
  · exact hshare.symm ▸ hhi

end PolicyStorage

/-! ## Runs of calls -/

inductive StorageCall
  | put (now : Nat) (key : InMemCacheBlock) (chunk : PageAlignedDataChunk) (versionTag : String)
  | get (now : Nat) (key : InMemCacheBlock) (expectedVersionTag : String)
  | delete (key : InMemCacheBlock)
  | clear
  | clearFile (hash : PolicyHash) (fname : String)
  | take (clock : Nat → Nat) (hash : PolicyHash)

inductive CallResult
  /-- The chunk pinned, none on a miss. -/
  | get (data : Option PageAlignedDataChunk)
  | delete (found : Bool)
  deriving DecidableEq, Repr

/-- A storage, and what its `Get`s and `Delete`s have returned. -/
structure CallRun where
  storage : DataCacheStorage
  results : List CallResult := []

def callStep (c : CallRun) : StorageCall → Option CallRun
  | .put now key chunk tag => (c.storage.put now [] key chunk tag).toOption.map fun storage => { c with storage }
  | .get now key tag =>
    let (p, storage) := c.storage.get now key tag
    some { storage, results := c.results ++ [.get (p.bind storage.chunk?)] }
  | .delete key =>
    let (found, storage) := c.storage.delete key
    some { storage, results := c.results ++ [.delete found] }
  | .clear => some { c with storage := c.storage.clear }
  | .clearFile hash fname => some { c with storage := c.storage.clearFile hash fname }
  | .take clock hash => (c.storage.take clock hash).toOption.map fun (_, storage) => { c with storage }

/-- The chunks put have the capacity `size`. -/
def StorageCall.Sized (size : Nat) : StorageCall → Prop
  | .put _ _ chunk _ => chunk.capacity = size
  | _ => True

instance (size : Nat) : DecidablePred (StorageCall.Sized size)
  | .put .. => inferInstanceAs (Decidable (_ = _))
  | .get .. | .delete _ | .clear | .clearFile .. | .take .. => .isTrue trivial

/-- Both storages are the same LRU map, and have returned the same. -/
structure SameMap (limit : Option Nat) (size : Nat) (c d : CallRun) : Prop where
  realized : ∃ p e r, c.storage = .policy p ∧ d.storage = .extension e ∧ p.Realizes limit size r ∧ e.Realizes limit r
  results : c.results = d.results

variable {limit : Option Nat} {size : Nat} {c d : CallRun}

theorem SameMap.step (h : SameMap limit size c d) (hsize : 0 < size) {a : StorageCall} (ha : a.Sized size) :
    ∃ c' d', callStep c a = some c' ∧ callStep d a = some d' ∧ SameMap limit size c' d' := by
  obtain ⟨⟨p, e, r, hc, hd, hp, he⟩, hres⟩ := h
  obtain ⟨_, cres⟩ := c
  obtain ⟨_, dres⟩ := d
  cases hc
  cases hd
  obtain rfl : cres = dres := hres
  cases a with
  | put now key chunk tag =>
    have hcharge : chargedBytes chunk = size := by
      have hcap : chunk.capacity = size := ha
      rw [chargedBytes, if_pos (by omega), hcap]
    exact ⟨_, _, rfl, rfl, ⟨_, _, _, rfl, rfl, hp.put now key hcharge tag, he.put now key chunk tag⟩, rfl⟩
  | get now key tag =>
    obtain ⟨hpres, hp'⟩ := hp.get now key tag
    obtain ⟨heres, he'⟩ := he.get now key tag
    have hchunk : (p.get now key tag).1.bind (DataCacheStorage.chunk? · (.policy (p.get now key tag).2)) =
        (e.get now key tag).1.bind (DataCacheStorage.chunk? · (.extension (e.get now key tag).2)) := by
      have hheap : (p.get now key tag).2.heap = p.heap := by
        rw [(PolicyStorage.get_moves hp.routed now key tag).heap, List.append_nil]
      have hheap' := (ExtensionStorage.get_heap e now key tag).1
      have hsame := congrArg (Option.map (·.data)) (hpres.trans heres.symm)
      rw [Option.map_bind, Option.map_bind] at hsame
      simp only [DataCacheStorage.chunk?, hheap, hheap']
      exact hsame
    refine ⟨_, _, rfl, rfl, ⟨_, _, _, rfl, rfl, hp', he'⟩, ?_⟩
    exact congrArg (fun x => cres ++ [CallResult.get x]) hchunk
  | delete key =>
    obtain ⟨hpres, hp'⟩ := hp.delete key
    obtain ⟨heres, he'⟩ := he.delete key
    refine ⟨_, _, rfl, rfl, ⟨_, _, _, rfl, rfl, hp', he'⟩, ?_⟩
    exact congrArg (fun x => cres ++ [CallResult.delete x]) (hpres.trans heres.symm)
  | clear => exact ⟨_, _, rfl, rfl, ⟨_, _, _, rfl, rfl, hp.clear, he.clear⟩, rfl⟩
  | clearFile hash fname =>
    exact ⟨_, _, rfl, rfl, ⟨_, _, _, rfl, rfl, hp.clearFile hash fname, he.clearFile fname⟩, rfl⟩
  | take clock hash =>
    obtain ⟨taken, e', htake, he'⟩ := he.take clock
    refine ⟨{ storage := .policy p.clear, results := cres },
      { storage := .extension e', results := cres }, rfl, ?_,
      ⟨_, _, _, rfl, rfl, hp.clear, he'⟩, rfl⟩
    simp only [callStep, DataCacheStorage.take, htake]
    rfl

theorem SameMap.run (hsize : 0 < size) {calls : List StorageCall} (hcalls : ∀ a ∈ calls, a.Sized size)
    (h : SameMap limit size c d) :
    ∃ c' d', exec callStep c calls = some c' ∧ exec callStep d calls = some d' ∧ SameMap limit size c' d' := by
  induction calls generalizing c d with
  | nil => exact ⟨c, d, rfl, rfl, h⟩
  | cons a as ih =>
    obtain ⟨c₁, d₁, hc, hd, h₁⟩ := h.step hsize (hcalls a (by simp))
    obtain ⟨c', d', hc', hd', h'⟩ := ih (fun b hb => hcalls b (List.mem_cons_of_mem _ hb)) h₁
    exact ⟨c', d', exec_cons.mpr ⟨c₁, hc, hc'⟩, exec_cons.mpr ⟨d₁, hd, hd'⟩, h'⟩

/-- **The two backends replace alike.** A budget of bytes with room for `n`
chunks and one of `n` entries, or none and none: whatever is called, both
return the same and hold the same keys. -/
theorem backends_replace_alike (n size maxBytes : Nat) (hsize : 0 < size)
    (hbudget : (n = 0 ∧ maxBytes = 0) ∨
      (0 < n ∧ n * size ≤ maxBytes ∧ maxBytes < (n + 1) * size ∧ (n + 1) * size < 2 ^ 64))
    (s₀ : PolicyStorage) (hnew : newPolicyStorage maxBytes 0 .lru [] = .ok s₀)
    (calls : List StorageCall) (hcalls : ∀ a ∈ calls, a.Sized size) :
    ∃ c d, exec callStep { storage := .policy s₀ } calls = some c ∧
      exec callStep { storage := .extension (newExtensionStorage n 0) } calls = some d ∧
      c.results = d.results ∧ ∀ hash k, k ∈ c.storage.keys hash ↔ k ∈ d.storage.keys hash := by
  obtain ⟨limit, hn, hlimit⟩ : ∃ limit : Option Nat, limit.getD 0 = n ∧
      ((limit = none → maxBytes = 0) ∧ ∀ m, limit = some m → 0 < m ∧ 0 < maxBytes ∧ m * size ≤ maxBytes ∧
        maxBytes < (m + 1) * size ∧ (m + 1) * size < 2 ^ 64) := by
    rcases hbudget with ⟨rfl, hmax⟩ | ⟨hpos, hlo, hhi, hfit⟩
    · exact ⟨none, rfl, fun _ => hmax, fun m hm => by cases hm⟩
    · refine ⟨some n, rfl, fun h => (by cases h), fun m hm => ?_⟩
      cases hm
      exact ⟨hpos, Nat.lt_of_lt_of_le (Nat.mul_pos hpos hsize) hlo, hlo, hhi, hfit⟩
  obtain ⟨hzero, hsome⟩ := hlimit
  have hstart : SameMap limit size { storage := .policy s₀ }
      { storage := .extension (newExtensionStorage n 0) } :=
    ⟨⟨s₀, _, .empty, rfl, by rw [← hn], PolicyStorage.Realizes.new hnew hzero hsome,
      ExtensionStorage.Realizes.new fun m hm => (hsome m hm).1⟩, rfl⟩
  obtain ⟨c, d, hc, hd, ⟨p, e, r, hcs, hds, hp, he⟩, hres⟩ := hstart.run hsize hcalls
  refine ⟨c, d, hc, hd, hres, fun hash k => ?_⟩
  rw [hcs, hds]
  exact (hp.mem_keys hash k).trans (he.mem_keys k).symm

/-- Three blocks for two places, the first of them used in between. -/
def threeCalls : List StorageCall :=
  [.put 0 ⟨"f", 0, 40⟩ ⟨some [1], 40, 40⟩ "v", .put 1 ⟨"f", 40, 40⟩ ⟨some [2], 40, 40⟩ "v", .get 2 ⟨"f", 0, 40⟩ "v",
    .put 3 ⟨"g", 0, 40⟩ ⟨some [3], 40, 40⟩ "v", .get 4 ⟨"f", 40, 40⟩ "v", .get 5 ⟨"f", 0, 40⟩ "w", .delete ⟨"f", 0, 40⟩]

theorem backends_replace_alike_three :
    ∃ s₀ c d, newPolicyStorage 100 0 .lru [] = .ok s₀ ∧
      exec callStep { storage := .policy s₀ } threeCalls = some c ∧
      exec callStep { storage := .extension (newExtensionStorage 2 0) } threeCalls = some d ∧
        c.results = d.results ∧
      d.results = [.get (some ⟨some [1], 40, 40⟩), .get none, .get none, .delete false] := by
  obtain ⟨s₀, h₀, hrun⟩ : ∃ s₀, newPolicyStorage 100 0 .lru [] = .ok s₀ ∧
      (exec callStep { storage := .policy s₀ } threeCalls).map (·.results) =
        some [.get (some ⟨some [1], 40, 40⟩), .get none, .get none, .delete false] := ⟨_, rfl, by decide +kernel⟩
  obtain ⟨c, d, hc, hd, hres, _⟩ :=
    backends_replace_alike 2 40 100 (by decide) (.inr (by decide)) s₀ h₀ threeCalls (by decide)
  rw [hc] at hrun
  exact ⟨s₀, c, d, h₀, hc, hd, hres, hres ▸ Option.some.inj hrun⟩

/-- Two blocks of half the address space. -/
def halfSpaceCalls : List StorageCall :=
  [.put 0 ⟨"f", 0, 1⟩ ⟨some [1], 1, 2 ^ 63⟩ "", .put 1 ⟨"g", 0, 1⟩ ⟨some [2], 1, 2 ^ 63⟩ "", .get 2 ⟨"f", 0, 1⟩ ""]

/-- The sum of the bytes comes round to 0, and the policy storage keeps both. -/
theorem backends_differ_on_wrap :
    0 < 2 ^ 63 ∧ 1 * 2 ^ 63 ≤ 2 ^ 63 ∧ 2 ^ 63 < (1 + 1) * 2 ^ 63 ∧ (∀ a ∈ halfSpaceCalls, a.Sized (2 ^ 63)) ∧
      ∃ s₀ c d, newPolicyStorage (2 ^ 63) 0 .lru [] = .ok s₀ ∧
        exec callStep { storage := .policy s₀ } halfSpaceCalls = some c ∧
        exec callStep { storage := .extension (newExtensionStorage 1 0) } halfSpaceCalls = some d ∧
        c.results = [.get (some ⟨some [1], 1, 2 ^ 63⟩)] ∧ d.results = [.get none] := by
  obtain ⟨s₀, h₀, hrun⟩ : ∃ s₀, newPolicyStorage (2 ^ 63) 0 .lru [] = .ok s₀ ∧
      (exec callStep { storage := .policy s₀ } halfSpaceCalls).map (·.results) =
        some [.get (some ⟨some [1], 1, 2 ^ 63⟩)] := ⟨_, rfl, by decide +kernel⟩
  have hrun' : (exec callStep { storage := .extension (newExtensionStorage 1 0) } halfSpaceCalls).map
    (·.results) =
      some [.get none] := by decide +kernel
  obtain ⟨c, hc, hcr⟩ := Option.map_eq_some_iff.mp hrun
  obtain ⟨d, hd, hdr⟩ := Option.map_eq_some_iff.mp hrun'
  exact ⟨by decide, by decide, by decide, by decide, s₀, c, d, h₀, hc, hd, hcr, hdr⟩

end ReadCacheFs
