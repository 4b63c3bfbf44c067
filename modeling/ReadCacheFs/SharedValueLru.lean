/-
`SharedValueLruCache`: an LRU cache bounded by entry count, with an optional
timeout. The entries are in an ordered map, the recency order in a linked
list, and each entry keeps an iterator into the list.

Clock readings are arguments, in milliseconds. `Take` reads the clock once
an entry; its clock is a function of the round.
-/
import ReadCacheFs.Basic
import ReadCacheFs.Lib.NodeList
import Std.Data.TreeMap

namespace ReadCacheFs

open Lib

/-- The `Entry` of `SharedValueLruCache`. -/
structure LruEntry (V : Type) where
  value : V
  timestamp : Nat
  lruIterator : Nat
  deriving DecidableEq, Repr

structure SharedValueLruCache (K V : Type) [Ord K] where
  maxEntries : Nat
  timeoutMillisec : Nat
  entryMap : Std.TreeMap K (LruEntry V) := ∅
  lruList : NodeList K := ∅

namespace SharedValueLruCache

variable {K V : Type} [Ord K]

/-- `DeleteImpl`. -/
def deleteImpl (c : SharedValueLruCache K V) (key : K) (e : LruEntry V) : SharedValueLruCache K V :=
  { c with entryMap := c.entryMap.erase key, lruList := c.lruList.erase e.lruIterator }

/-- The first part of `Put`: an entry the key already has goes. -/
def removeExisting (c : SharedValueLruCache K V) (key : K) : SharedValueLruCache K V :=
  match c.entryMap[key]? with
  | some e => c.deleteImpl key e
  | none => c

/-- The second part: the new entry, at the front. -/
def insertFront (c : SharedValueLruCache K V) (now : Nat) (key : K) (value : V) : SharedValueLruCache K V :=
  { c with entryMap := c.entryMap.insert key ⟨value, now, c.lruList.fresh⟩, lruList := c.lruList.pushFront key }

/-- The third part: the entry at the back goes when there are too many. -/
def evictBack (c : SharedValueLruCache K V) : SharedValueLruCache K V :=
  if 0 < c.maxEntries ∧ c.maxEntries < c.lruList.size then
    match c.lruList.back? with
    | some (node, staleKey) => { c with entryMap := c.entryMap.erase staleKey, lruList := c.lruList.erase node }
    | none => c
  else c

def put (c : SharedValueLruCache K V) (now : Nat) (key : K) (value : V) : SharedValueLruCache K V :=
  ((c.removeExisting key).insertFront now key value).evictBack

def delete (c : SharedValueLruCache K V) (key : K) : Bool × SharedValueLruCache K V :=
  match c.entryMap[key]? with
  | some e => (true, c.deleteImpl key e)
  | none => (false, c)

def expired (c : SharedValueLruCache K V) (now : Nat) (e : LruEntry V) : Bool :=
  0 < c.timeoutMillisec && c.timeoutMillisec < u64Sub now e.timestamp

def get (c : SharedValueLruCache K V) (now : Nat) (key : K) : Option V × SharedValueLruCache K V :=
  match c.entryMap[key]? with
  | none => (none, c)
  | some e =>
    if c.expired now e then (none, c.deleteImpl key e)
    else (some e.value, { c with lruList := c.lruList.moveToFront e.lruIterator })

/-- `Clear()`. -/
def clear (c : SharedValueLruCache K V) : SharedValueLruCache K V :=
  { c with entryMap := ∅, lruList := c.lruList.clear }

/-- The keys `Clear(start_key, filter)` deletes. -/
def keysFrom (c : SharedValueLruCache K V) (startKey : K) (filter : K → Bool) : List K :=
  keysInRange c.entryMap.keys startKey filter

/-- `Clear(start_key, filter)`. -/
def clearFrom (c : SharedValueLruCache K V) (startKey : K) (filter : K → Bool) : SharedValueLruCache K V :=
  (c.keysFrom startKey filter).foldl (fun c k => (c.delete k).2) c

def keys (c : SharedValueLruCache K V) : List K := c.entryMap.keys

/-- The loop of `Take` from round `i` on: what it adds to the result, and
the list it leaves. -/
def takeLoop (c : SharedValueLruCache K V) (clock : Nat → Nat) :
    List (K × LruEntry V) → Nat → NodeList K → List (K × V) × NodeList K
  | [], _, l => ([], l)
  | (k, e) :: rest, i, l =>
    let (result, l') := c.takeLoop clock rest (i + 1) (l.erase e.lruIterator)
    if c.expired (clock i) e then (result, l') else ((k, e.value) :: result, l')

/-- `Take()`, which asserts that the list ends up as empty as the map. -/
def take (c : SharedValueLruCache K V) (clock : Nat → Nat) :
    Except Fault (List (K × V) × SharedValueLruCache K V) :=
  let (result, l) := c.takeLoop clock c.entryMap.toList 0 c.lruList
  if l.isEmpty then .ok (result, { c with entryMap := ∅, lruList := l }) else .error .assertFailed

/-! ## The timeout and the limit stay -/

theorem put_timeout (c : SharedValueLruCache K V) (now : Nat) (key : K) (value : V) :
    (c.put now key value).timeoutMillisec = c.timeoutMillisec := by
  have hrem : (c.removeExisting key).timeoutMillisec = c.timeoutMillisec := by
    unfold removeExisting
    split <;> rfl
  unfold put evictBack
  split
  · split
    · exact hrem
    · exact hrem
  · exact hrem

theorem get_timeout (c : SharedValueLruCache K V) (now : Nat) (key : K) :
    (c.get now key).2.timeoutMillisec = c.timeoutMillisec := by
  unfold get
  split
  · rfl
  split <;> rfl

theorem delete_timeout (c : SharedValueLruCache K V) (key : K) :
    (c.delete key).2.timeoutMillisec = c.timeoutMillisec := by
  unfold delete
  split <;> rfl

theorem clearFrom_timeout (c : SharedValueLruCache K V) (startKey : K) (filter : K → Bool) :
    (c.clearFrom startKey filter).timeoutMillisec = c.timeoutMillisec := by
  unfold clearFrom
  generalize c.keysFrom startKey filter = ks
  induction ks generalizing c with
  | nil => rfl
  | cons k ks ih => exact (ih _).trans (delete_timeout c k)

theorem put_maxEntries (c : SharedValueLruCache K V) (now : Nat) (key : K) (value : V) :
    (c.put now key value).maxEntries = c.maxEntries := by
  have hrem : (c.removeExisting key).maxEntries = c.maxEntries := by
    unfold removeExisting
    split <;> rfl
  unfold put evictBack
  split
  · split
    · exact hrem
    · exact hrem
  · exact hrem

theorem get_maxEntries (c : SharedValueLruCache K V) (now : Nat) (key : K) :
    (c.get now key).2.maxEntries = c.maxEntries := by
  unfold get
  split
  · rfl
  split <;> rfl

theorem delete_maxEntries (c : SharedValueLruCache K V) (key : K) :
    (c.delete key).2.maxEntries = c.maxEntries := by
  unfold delete
  split <;> rfl

theorem clearFrom_maxEntries (c : SharedValueLruCache K V) (startKey : K) (filter : K → Bool) :
    (c.clearFrom startKey filter).maxEntries = c.maxEntries := by
  unfold clearFrom
  generalize c.keysFrom startKey filter = ks
  induction ks generalizing c with
  | nil => rfl
  | cons k ks ih => exact (ih _).trans (delete_maxEntries c k)

/-! ## The map and the list -/

/-- Each entry's iterator is its key's node, and the list has no other node. -/
def OK (c : SharedValueLruCache K V) : Prop :=
  Indexes id (fun k => (c.entryMap[k]?).map (·.lruIterator)) c.lruList.nodes

/-- What is cached under a key, and since when. -/
def find? (c : SharedValueLruCache K V) (key : K) : Option (V × Nat) :=
  (c.entryMap[key]?).map fun e => (e.value, e.timestamp)

variable [Std.TransOrd K] [Std.LawfulEqOrd K]

theorem getElem?_insert_ne {β : Type*} {m : Std.TreeMap K β} {k a : K} {v : β} (h : a ≠ k) :
    (m.insert k v)[a]? = m[a]? := by
  rw [Std.TreeMap.getElem?_insert, if_neg]
  simpa [Std.compare_eq_iff_eq] using fun he => h he.symm

theorem getElem?_erase_ne {β : Type*} {m : Std.TreeMap K β} {k a : K} (h : a ≠ k) : (m.erase k)[a]? = m[a]? := by
  rw [Std.TreeMap.getElem?_erase, if_neg]
  simpa [Std.compare_eq_iff_eq] using fun he => h he.symm

variable {c : SharedValueLruCache K V} {key : K}

theorem deleteImpl_ok (h : c.OK) {e : LruEntry V} (he : c.entryMap[key]? = some e) : (c.deleteImpl key e).OK := by
  refine Indexes.erase h (by rw [he]; rfl) ?_ fun k hk => ?_
  · simp [deleteImpl]
  · simp only [deleteImpl, getElem?_erase_ne hk]

@[simp] theorem find?_deleteImpl_self (e : LruEntry V) : (c.deleteImpl key e).find? key = none := by
  simp [find?, deleteImpl]

theorem find?_deleteImpl_ne (e : LruEntry V) {k : K} (h : k ≠ key) :
    (c.deleteImpl key e).find? k = c.find? k := by
  simp only [find?, deleteImpl, getElem?_erase_ne h]

omit [Std.LawfulEqOrd K] in
theorem find?_none_iff : c.find? key = none ↔ c.entryMap[key]? = none := by simp [find?]

theorem mem_keys {k : K} : k ∈ c.entryMap.keys ↔ ∃ e, c.entryMap[k]? = some e := by
  rw [Std.TreeMap.mem_keys, ← Std.TreeMap.isSome_getElem?_iff_mem, Option.isSome_iff_exists]

theorem removeExisting_spec (h : c.OK) (key : K) :
    (c.removeExisting key).OK ∧ (c.removeExisting key).find? key = none ∧
    ∀ k, k ≠ key → (c.removeExisting key).find? k = c.find? k := by
  unfold removeExisting
  split
  next e he => exact ⟨deleteImpl_ok h he, find?_deleteImpl_self e, fun k hk => find?_deleteImpl_ne e hk⟩
  next he => exact ⟨h, find?_none_iff.mpr he, fun _ _ => rfl⟩

theorem insertFront_spec (h : c.OK) (hn : c.find? key = none) (now : Nat) (value : V) :
    (c.insertFront now key value).OK ∧ (c.insertFront now key value).find? key = some (value, now) ∧
      ∀ k, k ≠ key → (c.insertFront now key value).find? k = c.find? k := by
  refine ⟨?_, by simp [find?, insertFront], fun k hk => by simp only [find?, insertFront, getElem?_insert_ne hk]⟩
  refine Indexes.insert (a := key) (n := c.lruList.fresh) h ?_ ?_ (fun k hk => ?_) (.refl _)
  · simpa using find?_none_iff.mp hn
  · simp [insertFront]
  · simp only [insertFront, getElem?_insert_ne (show k ≠ key from hk)]

/-- Evicting only takes entries away. -/
theorem evictBack_spec (h : c.OK) :
    c.evictBack.OK ∧ ∀ k, c.evictBack.find? k = c.find? k ∨ c.evictBack.find? k = none := by
  unfold evictBack
  split
  next =>
    split
    next node staleKey hb =>
      have hget := h.get_of_mem (q := (node, staleKey)) (List.mem_of_getLast? hb)
      obtain ⟨e, he, rfl⟩ := Option.map_eq_some_iff.mp hget
      refine ⟨deleteImpl_ok h he, fun k => ?_⟩
      by_cases hk : k = staleKey
      · subst hk; exact .inr (find?_deleteImpl_self e)
      · exact .inl (find?_deleteImpl_ne e hk)
    next => exact ⟨h, fun k => .inl rfl⟩
  next => exact ⟨h, fun k => .inl rfl⟩

theorem put_ok (h : c.OK) (now : Nat) (key : K) (value : V) : (c.put now key value).OK := by
  obtain ⟨h1, hn, _⟩ := removeExisting_spec h key
  exact (evictBack_spec (insertFront_spec h1 hn now value).1).1

/-- After a `Put` a key has what was put, what it had, or nothing. -/
theorem put_find? (h : c.OK) {now : Nat} {value : V} {k : K} {x : V × Nat}
    (hx : (c.put now key value).find? k = some x) :
    (k = key ∧ x = (value, now)) ∨ (k ≠ key ∧ c.find? k = some x) := by
  obtain ⟨h1, hn, ho1⟩ := removeExisting_spec h key
  obtain ⟨h2, hs2, ho2⟩ := insertFront_spec h1 hn now value
  rcases (evictBack_spec h2).2 k with he | he
  · rw [put, he] at hx
    by_cases hk : k = key
    · subst hk
      rw [hs2] at hx
      exact .inl ⟨rfl, (Option.some.inj hx).symm⟩
    · rw [ho2 k hk, ho1 k hk] at hx
      exact .inr ⟨hk, hx⟩
  · rw [put, he] at hx; cases hx

theorem delete_spec (h : c.OK) (key : K) : (c.delete key).2.OK ∧ (c.delete key).2.find? key = none ∧
    ∀ k, k ≠ key → (c.delete key).2.find? k = c.find? k := by
  unfold delete
  split
  next e he => exact ⟨deleteImpl_ok h he, find?_deleteImpl_self e, fun k hk => find?_deleteImpl_ne e hk⟩
  next he => exact ⟨h, find?_none_iff.mpr he, fun _ _ => rfl⟩

/-- A hit returns what is cached, not expired, and changes only the order; a
miss leaves nothing under the key. -/
theorem get_spec (h : c.OK) (now : Nat) (key : K) : (c.get now key).2.OK ∧
    match (c.get now key).1 with
    | some v => (∃ ts, c.find? key = some (v, ts) ∧ (c.timeoutMillisec = 0 ∨ u64Sub now ts ≤ c.timeoutMillisec)) ∧
        ∀ k, (c.get now key).2.find? k = c.find? k
    | none => (c.get now key).2.find? key = none ∧ ∀ k, k ≠ key → (c.get now key).2.find? k = c.find? k := by
  unfold get
  cases he : c.entryMap[key]? with
  | none => exact ⟨h, find?_none_iff.mpr he, fun _ _ => rfl⟩
  | some e =>
    dsimp only
    split
    next => exact ⟨deleteImpl_ok h he, find?_deleteImpl_self e, fun k hk => find?_deleteImpl_ne e hk⟩
    next hexp =>
      refine ⟨h.perm (NodeList.moveToFront_perm _ _), ⟨e.timestamp, by simp [find?, he], ?_⟩, fun _ => rfl⟩
      simp only [expired, Bool.and_eq_true, decide_eq_true_eq, not_and] at hexp
      by_cases ht : 0 < c.timeoutMillisec
      · exact .inr (Nat.le_of_not_lt (hexp ht))
      · exact .inl (by omega)

omit [Std.LawfulEqOrd K] in
theorem clear_spec : c.clear.OK ∧ ∀ k, c.clear.find? k = none := by
  refine ⟨fun k n => ?_, fun k => by simp [find?, clear]⟩
  simp [clear, NodeList.clear]

/-- Keys deleted one after another. -/
theorem foldl_delete_spec : ∀ (ks : List K) {c : SharedValueLruCache K V}, c.OK →
    (ks.foldl (fun c k => (c.delete k).2) c).OK ∧
      ∀ k, (k ∈ ks → (ks.foldl (fun c k => (c.delete k).2) c).find? k = none) ∧
        (k ∉ ks → (ks.foldl (fun c k => (c.delete k).2) c).find? k = c.find? k)
  | [], c, h => ⟨h, fun k => ⟨fun hk => by simp at hk, fun _ => rfl⟩⟩
  | k' :: ks, c, h => by
    obtain ⟨h1, hn, ho⟩ := delete_spec h k'
    obtain ⟨h2, hks⟩ := foldl_delete_spec ks h1
    refine ⟨h2, fun k => ⟨fun hk => ?_, fun hk => ?_⟩⟩
    · by_cases hm : k ∈ ks
      · exact (hks k).1 hm
      · obtain rfl : k = k' := by simpa [hm] using hk
        exact ((hks k).2 hm).trans hn
    · simp only [List.mem_cons, not_or] at hk
      exact ((hks k).2 hk.2).trans (ho k hk.1)

theorem clearFrom_spec (h : c.OK) (startKey : K) (filter : K → Bool) :
    (c.clearFrom startKey filter).OK ∧ ∀ k,
      (k ∈ c.keysFrom startKey filter → (c.clearFrom startKey filter).find? k = none) ∧
      (k ∉ c.keysFrom startKey filter → (c.clearFrom startKey filter).find? k = c.find? k) :=
  foldl_delete_spec _ h

omit [Std.TransOrd K] [Std.LawfulEqOrd K] in
/-- The loop takes the entries' nodes out of the list and returns only what it was given and found not expired. -/
theorem takeLoop_spec (c : SharedValueLruCache K V) (clock : Nat → Nat) :
    ∀ (entries : List (K × LruEntry V)) (i : Nat) (l : NodeList K),
      (c.takeLoop clock entries i l).2.nodes = l.nodes.filter (fun q => q.1 ∉ entries.map (·.2.lruIterator)) ∧
        ∀ k v, (k, v) ∈ (c.takeLoop clock entries i l).1 →
          ∃ e, (k, e) ∈ entries ∧ e.value = v ∧ ∃ j, c.expired (clock j) e = false
  | [], i, l => by simp [takeLoop]
  | (k, e) :: rest, i, l => by
    obtain ⟨hn, hr⟩ := takeLoop_spec c clock rest (i + 1) (l.erase e.lruIterator)
    have hnodes : (c.takeLoop clock ((k, e) :: rest) i l).2 =
        (c.takeLoop clock rest (i + 1) (l.erase e.lruIterator)).2 := by
      simp only [takeLoop]; split <;> rfl
    refine ⟨?_, fun k' v hv => ?_⟩
    · rw [hnodes, hn, NodeList.erase, List.filter_filter]
      refine List.filter_congr fun q _ => ?_
      simp only [List.map_cons, List.mem_cons, not_or, Bool.decide_and, bne, Bool.and_comm]
      simp [BEq.beq]
    · have hrest : (k', v) ∈ (c.takeLoop clock rest (i + 1) (l.erase e.lruIterator)).1 →
          ∃ e', (k', e') ∈ (k, e) :: rest ∧ e'.value = v ∧ ∃ j, c.expired (clock j) e' = false := by
        intro hv
        obtain ⟨e', he', hval, hj⟩ := hr k' v hv
        exact ⟨e', List.mem_cons_of_mem _ he', hval, hj⟩
      simp only [takeLoop] at hv
      split at hv
      · exact hrest hv
      next hexp =>
        rcases List.mem_cons.mp hv with hv | hv
        · cases hv
          exact ⟨e, List.mem_cons_self, rfl, i, by simpa using hexp⟩
        · exact hrest hv

/-- `Take` never fails its assertion: it empties the cache and returns what was cached and not expired. -/
theorem take_spec (h : c.OK) (clock : Nat → Nat) :
    ∃ result c', c.take clock = .ok (result, c') ∧ c'.OK ∧ (∀ k, c'.find? k = none) ∧
      (∀ k v, (k, v) ∈ result → ∃ ts, c.find? k = some (v, ts) ∧
        ∃ j, ¬(0 < c.timeoutMillisec ∧ c.timeoutMillisec < u64Sub (clock j) ts)) ∧
      c'.maxEntries = c.maxEntries ∧ c'.timeoutMillisec = c.timeoutMillisec := by
  obtain ⟨hn, hr⟩ := takeLoop_spec c clock c.entryMap.toList 0 c.lruList
  have hempty : (c.takeLoop clock c.entryMap.toList 0 c.lruList).2.nodes = [] := by
    rw [hn, List.filter_eq_nil_iff]
    intro q hq
    obtain ⟨e, he, hit⟩ := Option.map_eq_some_iff.mp (h.get_of_mem hq)
    have hmem := Std.TreeMap.mem_toList_iff_getElem?_eq_some.mpr he
    simp only [decide_eq_true_eq, not_not]
    exact List.mem_map.mpr ⟨_, hmem, hit⟩
  cases hloop : c.takeLoop clock c.entryMap.toList 0 c.lruList with
  | mk result l =>
  rw [hloop] at hempty hr
  dsimp only at hempty hr
  refine ⟨result, { c with entryMap := ∅, lruList := l }, ?_, fun k n => ?_, fun k => by simp [find?], ?_,
    rfl, rfl⟩
  · rw [take, hloop]
    exact if_pos (by simp [NodeList.isEmpty, hempty])
  · simp [hempty]
  · intro k v hv
    obtain ⟨e, he, rfl, j, hj⟩ := hr k v hv
    refine ⟨e.timestamp, by rw [find?, Std.TreeMap.mem_toList_iff_getElem?_eq_some.mp he]; rfl, j, fun hexp => ?_⟩
    simp [expired, hexp.1, hexp.2] at hj

end SharedValueLruCache

end ReadCacheFs
