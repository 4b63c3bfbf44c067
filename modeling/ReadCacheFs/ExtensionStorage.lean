/-
`ExtensionBoundedDataCacheStorage`: an LRU cache of pointers to entries.
-/
import ReadCacheFs.SharedValueLru

namespace ReadCacheFs

open Lib

structure ExtensionStorage where
  lruCache : SharedValueLruCache InMemCacheBlock Nat
  heap : DataHeap := []

def newExtensionStorage (maxEntries timeoutMillisec : Nat) : ExtensionStorage :=
  { lruCache := { maxEntries, timeoutMillisec } }

namespace ExtensionStorage

def put (s : ExtensionStorage) (now : Nat) (key : InMemCacheBlock) (chunk : PageAlignedDataChunk)
    (versionTag : String) : ExtensionStorage :=
  { lruCache := s.lruCache.put (steadyMillis now) key s.heap.length, heap := s.heap ++ [{ data := chunk, versionTag }] }

/-- A hit pins the entry it returns a pointer to. -/
def get (s : ExtensionStorage) (now : Nat) (key : InMemCacheBlock) (expectedVersionTag : String) :
    Option Nat × ExtensionStorage :=
  match s.lruCache.get (steadyMillis now) key with
  | (none, c) => (none, { s with lruCache := c })
  | (some p, c) =>
    match s.heap[p]? with
    | none => (none, { s with lruCache := c })
    | some entry =>
      if !validateVersionTag entry.versionTag expectedVersionTag then (none, { s with lruCache := (c.delete key).2 })
      else (some p, { s with lruCache := c })

def delete (s : ExtensionStorage) (key : InMemCacheBlock) : Bool × ExtensionStorage :=
  let (found, c) := s.lruCache.delete key
  (found, { s with lruCache := c })

def clear (s : ExtensionStorage) : ExtensionStorage := { s with lruCache := s.lruCache.clear }

def clearFrom (s : ExtensionStorage) (startKey : InMemCacheBlock) (filter : InMemCacheBlock → Bool) :
    ExtensionStorage :=
  { s with lruCache := s.lruCache.clearFrom startKey filter }

def keys (s : ExtensionStorage) : List InMemCacheBlock := s.lruCache.keys

/-- The clock of `Take` gives a reading for each entry. -/
def take (s : ExtensionStorage) (clock : Nat → Nat) :
    Except Fault (List (InMemCacheBlock × Nat) × ExtensionStorage) :=
  (s.lruCache.take (steadyMillis ∘ clock)).map fun (result, c) => (result, { s with lruCache := c })

def timeoutMillisec (s : ExtensionStorage) : Nat := s.lruCache.timeoutMillisec

/-! ## The block held under a key -/

/-- The LRU cache is in order and points at entries that exist. -/
structure OK (s : ExtensionStorage) : Prop where
  lru : s.lruCache.OK
  pointed : ∀ k p ts, s.lruCache.find? k = some (p, ts) → p < s.heap.length

def resident (s : ExtensionStorage) (k : InMemCacheBlock) : Option HeldBlock :=
  (s.lruCache.find? k).bind fun (p, ts) => (s.heap[p]?).map fun d => ⟨d.data, d.versionTag, ts⟩

variable {s s' : ExtensionStorage} {key k : InMemCacheBlock} {b : HeldBlock}

theorem resident_iff : s.resident k = some b ↔
    ∃ p ts d, s.lruCache.find? k = some (p, ts) ∧ s.heap[p]? = some d ∧ b = ⟨d.data, d.versionTag, ts⟩ := by
  simp only [resident, Option.bind_eq_some_iff, Option.map_eq_some_iff, Prod.exists]
  exact ⟨fun ⟨p, ts, hf, d, hd, hb⟩ => ⟨p, ts, d, hf, hd, hb.symm⟩,
    fun ⟨p, ts, d, hf, hd, hb⟩ => ⟨p, ts, hf, d, hd, hb.symm⟩⟩

theorem get_heap (s : ExtensionStorage) (now : Nat) (key : InMemCacheBlock) (tag : String) :
    (s.get now key tag).2.heap = s.heap ∧ (s.get now key tag).2.timeoutMillisec = s.timeoutMillisec := by
  have ht := SharedValueLruCache.get_timeout s.lruCache (steadyMillis now) key
  unfold get
  cases hget : s.lruCache.get (steadyMillis now) key with
  | mk r c =>
  rw [hget] at ht
  cases r with
  | none => exact ⟨rfl, ht⟩
  | some p =>
    dsimp only
    split
    · exact ⟨rfl, ht⟩
    split
    · exact ⟨rfl, (SharedValueLruCache.delete_timeout c key).trans ht⟩
    · exact ⟨rfl, ht⟩

theorem resident_none (h : s.lruCache.find? k = none) : s.resident k = none := by
  rw [resident, h]
  rfl

theorem OK.new (maxEntries timeoutMillisec : Nat) :
    (newExtensionStorage maxEntries timeoutMillisec).OK ∧
      ∀ k, (newExtensionStorage maxEntries timeoutMillisec).resident k = none := by
  have hf : ∀ k, (newExtensionStorage maxEntries timeoutMillisec).lruCache.find? k = none := by
    intro k
    simp [newExtensionStorage, SharedValueLruCache.find?]
  refine ⟨⟨Indexes.nil fun k => ?_, fun k p ts h => ?_⟩, fun k => resident_none (hf k)⟩
  · simp [newExtensionStorage]
  · rw [hf] at h
    cases h

/-- The entries that remain are entries there were. -/
theorem OK.shrink {t : ExtensionStorage} (h : s.OK) (hheap : t.heap = s.heap) (hlru : t.lruCache.OK)
    (hfind : ∀ k x, t.lruCache.find? k = some x → s.lruCache.find? k = some x) :
    t.OK ∧ ∀ k b, t.resident k = some b → s.resident k = some b := by
  refine ⟨⟨hlru, fun k p ts hk => by rw [hheap]; exact h.pointed k p ts (hfind k _ hk)⟩, fun k b hb => ?_⟩
  obtain ⟨p, ts, d, hf, hd, rfl⟩ := resident_iff.mp hb
  exact resident_iff.mpr ⟨p, ts, d, hfind k _ hf, by rw [← hheap]; exact hd, rfl⟩

theorem put_spec (h : s.OK) (now : Nat) (key : InMemCacheBlock) (chunk : PageAlignedDataChunk)
    (versionTag : String) :
    (s.put now key chunk versionTag).OK ∧ ∀ k b, (s.put now key chunk versionTag).resident k = some b →
      (k = key ∧ b = ⟨chunk, versionTag, steadyMillis now⟩) ∨ (k ≠ key ∧ s.resident k = some b) := by
  refine ⟨⟨SharedValueLruCache.put_ok h.lru _ _ _, fun k p ts hk => ?_⟩, fun k b hb => ?_⟩
  · change p < (s.heap ++ [_]).length
    rw [List.length_append]
    rcases SharedValueLruCache.put_find? h.lru hk with ⟨_, he⟩ | ⟨_, hold⟩
    · rw [(Prod.mk.inj he).1]
      simp
    · have := h.pointed k p ts hold
      omega
  · obtain ⟨p, ts, d, hf, hd, rfl⟩ := resident_iff.mp hb
    change (s.heap ++ [_])[p]? = some d at hd
    rcases SharedValueLruCache.put_find? h.lru hf with ⟨hk, he⟩ | ⟨hk, hold⟩
    · obtain ⟨rfl, rfl⟩ := Prod.mk.inj he
      rw [List.getElem?_concat_length] at hd
      cases hd
      exact .inl ⟨hk, rfl⟩
    · rw [List.getElem?_append_left (h.pointed k p ts hold)] at hd
      exact .inr ⟨hk, resident_iff.mpr ⟨p, ts, d, hold, hd, rfl⟩⟩

theorem delete_spec (h : s.OK) (key : InMemCacheBlock) :
    (s.delete key).2.OK ∧ (s.delete key).2.resident key = none ∧
    ∀ k b, (s.delete key).2.resident k = some b → s.resident k = some b := by
  obtain ⟨hok, hn, ho⟩ := SharedValueLruCache.delete_spec h.lru key
  obtain ⟨hok', hr⟩ := h.shrink (t := (s.delete key).2) rfl hok fun k x hx => by
    by_cases hk : k = key
    · rw [show (s.delete key).2.lruCache = (s.lruCache.delete key).2 from rfl, hk, hn] at hx
      cases hx
    · rw [← ho k hk]
      exact hx
  exact ⟨hok', resident_none hn, hr⟩

theorem clear_spec (s : ExtensionStorage) : s.clear.OK ∧ ∀ k, s.clear.resident k = none := by
  obtain ⟨hok, hn⟩ := SharedValueLruCache.clear_spec (c := s.lruCache)
  refine ⟨⟨hok, fun k p ts hk => ?_⟩, fun k => resident_none (hn k)⟩
  rw [show s.clear.lruCache = s.lruCache.clear from rfl, hn] at hk
  cases hk

theorem clearFrom_spec (h : s.OK) (startKey : InMemCacheBlock) (filter : InMemCacheBlock → Bool) :
    (s.clearFrom startKey filter).OK ∧
      (∀ k ∈ s.lruCache.keysFrom startKey filter, (s.clearFrom startKey filter).resident k = none) ∧
      ∀ k b, (s.clearFrom startKey filter).resident k = some b → s.resident k = some b := by
  obtain ⟨hok, hk⟩ := SharedValueLruCache.clearFrom_spec h.lru startKey filter
  obtain ⟨hok', hr⟩ := h.shrink (t := s.clearFrom startKey filter) rfl hok fun k x hx => by
    by_cases hm : k ∈ s.lruCache.keysFrom startKey filter
    · rw [show (s.clearFrom startKey filter).lruCache = s.lruCache.clearFrom startKey filter from rfl,
        (hk k).1 hm] at hx
      cases hx
    · rw [← (hk k).2 hm]
      exact hx
  exact ⟨hok', fun k hm => resident_none ((hk k).1 hm), hr⟩

/-- The keys a per-file clear deletes are all keys of the file. -/
theorem mem_keysFrom_file {f : String} : k ∈ s.lruCache.keysFrom ⟨f, 0, 0⟩ (·.fname == f) ↔
    (∃ e, s.lruCache.entryMap[k]? = some e) ∧ k.fname = f := by
  rw [SharedValueLruCache.keysFrom, mem_keysInRange_file Std.TreeMap.ordered_keys, SharedValueLruCache.mem_keys]

/-- A per-file clear leaves nothing of the file. -/
theorem clearFile_spec (h : s.OK) {f : String} (hk : k.fname = f) :
    (s.clearFrom ⟨f, 0, 0⟩ (·.fname == f)).resident k = none := by
  obtain ⟨_, hgone, hold⟩ := clearFrom_spec h ⟨f, 0, 0⟩ (·.fname == f)
  refine Option.eq_none_iff_forall_ne_some.mpr fun b hb => ?_
  obtain ⟨p, ts, _, hf, _⟩ := resident_iff.mp (hold k b hb)
  obtain ⟨e, he, _⟩ := Option.map_eq_some_iff.mp hf
  rw [hgone k (mem_keysFrom_file.mpr ⟨⟨e, he⟩, hk⟩)] at hb
  cases hb

/-- A clear leaves alone what its filter does not match. -/
theorem clearFrom_keeps (h : s.OK) (startKey : InMemCacheBlock) {filter : InMemCacheBlock → Bool}
    (hk : filter k = false) : (s.clearFrom startKey filter).resident k = s.resident k := by
  have hm : k ∉ s.lruCache.keysFrom startKey filter := by
    intro hm
    rw [filter_of_mem_keysInRange hm] at hk
    cases hk
  have hfind := ((SharedValueLruCache.clearFrom_spec h.lru startKey filter).2 k).2 hm
  simp only [resident, clearFrom, hfind]

/-- A hit returns the block held, which serves the lookup; after a miss
nothing is held. -/
theorem get_spec (h : s.OK) (now : Nat) (key : InMemCacheBlock) (tag : String) :
    (s.get now key tag).2.OK ∧ (∀ k b, (s.get now key tag).2.resident k = some b → s.resident k = some b) ∧
      match (s.get now key tag).1 with
      | some p => ∃ b, s.resident key = some b ∧ s.heap[p]? = some ⟨b.data, b.versionTag⟩ ∧
          (now < clockLimit → b.putMillis ≤ steadyMillis now → b.Serves s.timeoutMillisec now tag)
      | none => (s.get now key tag).2.resident key = none := by
  have hg := SharedValueLruCache.get_spec h.lru (steadyMillis now) key
  unfold get
  cases hget : s.lruCache.get (steadyMillis now) key with
  | mk r c =>
  rw [hget] at hg
  obtain ⟨hok, hg⟩ := hg
  cases r with
  | none =>
    obtain ⟨hn, ho⟩ := hg
    obtain ⟨hok', hr⟩ := h.shrink (t := { s with lruCache := c }) rfl hok fun k x hx => by
      by_cases hk : k = key
      · rw [hk, hn] at hx
        cases hx
      · rw [← ho k hk]
        exact hx
    exact ⟨hok', hr, resident_none hn⟩
  | some p =>
    obtain ⟨⟨ts, hf, htime⟩, hsame⟩ := hg
    obtain ⟨d, hd⟩ : ∃ d, s.heap[p]? = some d := ⟨_, List.getElem?_eq_getElem (h.pointed key p ts hf)⟩
    have hres : s.resident key = some ⟨d.data, d.versionTag, ts⟩ := resident_iff.mpr ⟨p, ts, d, hf, hd, rfl⟩
    have hshrink := h.shrink (t := { s with lruCache := c }) rfl hok fun k x hx => by rw [← hsame k]; exact hx
    simp only [hd]
    split
    next hv =>
      obtain ⟨hok', hn, hr⟩ := delete_spec hshrink.1 key
      exact ⟨hok', fun k b hb => hshrink.2 k b (hr k b hb), hn⟩
    next hv =>
      refine ⟨hshrink.1, hshrink.2, _, hres, hd, fun hnow hpast =>
        ⟨validateVersionTag_iff.mp (by simpa using hv), fun ht => ?_⟩⟩
      have hle : u64Sub (steadyMillis now) ts ≤ s.timeoutMillisec := htime.resolve_left ht
      dsimp only at hpast
      have hlt : steadyMillis now < 2 ^ 64 := by
        have : now < 2 ^ 63 := hnow
        unfold steadyMillis
        omega
      rw [u64Sub_eq hpast hlt] at hle
      change _ ≤ ts + _
      omega

/-- `Take` empties the storage and returns only blocks that were held and not expired. -/
theorem take_spec (h : s.OK) (clock : Nat → Nat) : ∃ result s', s.take clock = .ok (result, s') ∧ s'.OK ∧
    (∀ k, s'.resident k = none) ∧ s'.heap = s.heap ∧ s'.timeoutMillisec = s.timeoutMillisec ∧
      ∀ k p, (k, p) ∈ result → ∃ b, s.resident k = some b ∧ s.heap[p]? = some ⟨b.data, b.versionTag⟩ ∧
        ∃ j, ¬(0 < s.timeoutMillisec ∧ s.timeoutMillisec < u64Sub (steadyMillis (clock j)) b.putMillis) := by
  obtain ⟨result, c, htake, hok, hn, hmem, _, ht⟩ := SharedValueLruCache.take_spec h.lru (steadyMillis ∘ clock)
  refine ⟨result, { s with lruCache := c }, by rw [take, htake]; rfl, ⟨hok, fun k p ts hk => ?_⟩,
    fun k => resident_none (hn k), rfl, ht, fun k p hp => ?_⟩
  · rw [show ({ s with lruCache := c } : ExtensionStorage).lruCache = c from rfl, hn] at hk
    cases hk
  · obtain ⟨ts, hf, hj⟩ := hmem k p hp
    have hd := List.getElem?_eq_getElem (h.pointed k p ts hf)
    exact ⟨_, resident_iff.mpr ⟨p, ts, _, hf, hd, rfl⟩, hd, hj⟩

end ExtensionStorage

end ReadCacheFs
