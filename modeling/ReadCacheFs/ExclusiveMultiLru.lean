/-
`ExclusiveMultiLruCache`: an LRU cache that hands its values out. A key may
have several values, the oldest first; `GetAndPop` takes one out.

What goes in comes out once: `put_spec`, `getAndPop_spec` and the two
`clearAndGetValues` say where each item is afterwards, and that no
assertion fails on the way.
-/
import ReadCacheFs.Basic
import ReadCacheFs.Lib.MultiMap
import ReadCacheFs.Lib.NodeList

namespace ReadCacheFs

open Lib

/-- The `Entry` of `ExclusiveMultiLruCache`. -/
structure MultiLruEntry (V : Type) where
  value : V
  timestamp : Nat
  lruIterator : Nat
  deriving DecidableEq, Repr

structure ExclusiveMultiLruCache (K V : Type) [Ord K] where
  maxEntries : Nat
  timeoutMillisec : Nat
  totalEntriesNum : Nat := 0
  entryMap : Std.TreeMap K (List (MultiLruEntry V)) := ∅
  lruList : NodeList K := ∅

namespace ExclusiveMultiLruCache

variable {K V : Type} [Ord K]

/-- `DeleteFirstEntry`, of a key with the entries `e :: rest`. -/
def deleteFirstEntry (c : ExclusiveMultiLruCache K V) (key : K) (e : MultiLruEntry V)
    (rest : List (MultiLruEntry V)) :
    ExclusiveMultiLruCache K V :=
  { c with
    entryMap := if rest.isEmpty then c.entryMap.erase key else c.entryMap.insert key rest
    lruList := c.lruList.erase e.lruIterator
    totalEntriesNum := c.totalEntriesNum - 1 }

/-- The first part of `Put`: the new entry, the last of its key and at the front of the list. -/
def emplace (c : ExclusiveMultiLruCache K V) (now : Nat) (key : K) (value : V) : ExclusiveMultiLruCache K V :=
  { c with
    entryMap := c.entryMap.insert key (((c.entryMap[key]?).getD []) ++ [⟨value, now, c.lruList.fresh⟩])
    lruList := c.lruList.pushFront key
    totalEntriesNum := c.totalEntriesNum + 1 }

/-- The second part: the oldest entry goes when there are too many. -/
def evictBack (c : ExclusiveMultiLruCache K V) : Except Fault (Option V × ExclusiveMultiLruCache K V) :=
  if 0 < c.maxEntries ∧ c.maxEntries < c.totalEntriesNum then
    match c.lruList.back? with
    | none => .ok (none, c)
    | some (_, staleKey) =>
      match c.entryMap[staleKey]? with
      | some (e :: rest) => .ok (some e.value, c.deleteFirstEntry staleKey e rest)
      | _ => .error .assertFailed
  else .ok (none, c)

/-- `Put`, and the value it evicts. -/
def put (c : ExclusiveMultiLruCache K V) (now : Nat) (key : K) (value : V) :
    Except Fault (Option V × ExclusiveMultiLruCache K V) := (c.emplace now key value).evictBack

def expired (c : ExclusiveMultiLruCache K V) (now : Nat) (e : MultiLruEntry V) : Bool :=
  0 < c.timeoutMillisec && c.timeoutMillisec < u64Sub now e.timestamp

/-- The loop of `GetAndPop` over the entries of the key: what it evicts, and
the entries left. -/
def popStale (c : ExclusiveMultiLruCache K V) (now : Nat) (key : K) :
    List (MultiLruEntry V) → List V × List (MultiLruEntry V) × ExclusiveMultiLruCache K V
  | [] => ([], [], c)
  | e :: rest =>
    if c.expired now e then
      let (evicted, left, c') := (c.deleteFirstEntry key e rest).popStale now key rest
      (e.value :: evicted, left, c')
    else ([], e :: rest, c)

/-- `GetAndPop`: the evicted values and the target. -/
def getAndPop (c : ExclusiveMultiLruCache K V) (now : Nat) (key : K) :
    Except Fault (List V × Option V × ExclusiveMultiLruCache K V) :=
  match c.entryMap[key]? with
  | none => .ok ([], none, c)
  | some es =>
    match c.popStale now key es with
    | (evicted, e :: rest, c') => .ok (evicted, some e.value, c'.deleteFirstEntry key e rest)
    | (evicted, [], c') => if 0 < c.timeoutMillisec then .ok (evicted, none, c') else .error .assertFailed

def item (ke : K × MultiLruEntry V) : K × V := (ke.1, ke.2.value)

def items (c : ExclusiveMultiLruCache K V) : List (K × V) := (entries c.entryMap).map item

def values (c : ExclusiveMultiLruCache K V) : List V := c.items.map Prod.snd

def clearAndGetValues (c : ExclusiveMultiLruCache K V) : List V × ExclusiveMultiLruCache K V :=
  (c.values, { c with entryMap := ∅, lruList := c.lruList.clear, totalEntriesNum := 0 })

/-- A key and its entries go. -/
def removeKey (c : ExclusiveMultiLruCache K V) (key : K) (es : List (MultiLruEntry V)) :
    ExclusiveMultiLruCache K V :=
  { c with
    entryMap := c.entryMap.erase key
    lruList := (es.map fun e => (e.lruIterator, key)).foldl (fun l n => l.erase n.1) c.lruList
    totalEntriesNum := c.totalEntriesNum - es.length }

/-- The loop of `ClearAndGetValues(start_key, key_filter)` over `keys_to_delete`. -/
def removeKeys (c : ExclusiveMultiLruCache K V) : List K → Except Fault (List V × ExclusiveMultiLruCache K V)
  | [] => .ok ([], c)
  | key :: keys =>
    match c.entryMap[key]? with
    | none => .error .assertFailed
    | some es => ((c.removeKey key es).removeKeys keys).map fun (vs, c') => (es.map (·.value) ++ vs, c')

/-- `ClearAndGetValues(start_key, key_filter)`. -/
def clearAndGetValuesFrom (c : ExclusiveMultiLruCache K V) (startKey : K) (keyFilter : K → Bool) :
    Except Fault (List V × ExclusiveMultiLruCache K V) :=
  c.removeKeys (keysInRange c.entryMap.keys startKey keyFilter)

/-! ## The map and the list -/

def node (ke : K × MultiLruEntry V) : Nat × K := (ke.2.lruIterator, ke.1)

/-- Each entry has its node in the list, and the list has no other. -/
structure OK (c : ExclusiveMultiLruCache K V) : Prop where
  nodes : c.lruList.nodes.Perm ((entries c.entryMap).map node)
  nonempty : ∀ k : K, c.entryMap[k]? ≠ some []
  total : c.totalEntriesNum = c.lruList.size

variable {c : ExclusiveMultiLruCache K V} {key : K}

theorem OK.take {c' : ExclusiveMultiLruCache K V} (h : c.OK) {e : MultiLruEntry V}
    (hent : (entries c.entryMap).Perm ((key, e) :: entries c'.entryMap))
    (hlru : c'.lruList = c.lruList.erase e.lruIterator) (hne : ∀ k : K, c'.entryMap[k]? ≠ some [])
    (htotal : c'.totalEntriesNum = c.totalEntriesNum - 1) : c'.OK := by
  have hnodes := h.nodes.trans (hent.map _)
  rw [List.map_cons] at hnodes
  have herase := NodeList.perm_erase (hnodes.mem_iff.mpr (List.mem_cons_self ..))
  refine ⟨?_, hne, ?_⟩
  · rw [hlru]
    exact (herase.symm.trans hnodes).cons_inv
  · have hlen := herase.length_eq
    rw [List.length_cons] at hlen
    rw [htotal, h.total, hlru, NodeList.size, NodeList.size, hlen, Nat.add_sub_cancel]

@[simp] theorem clearAndGetValues_items (c : ExclusiveMultiLruCache K V) : c.clearAndGetValues.2.items = [] := rfl

variable [Std.TransOrd K] [Std.LawfulEqOrd K]

theorem deleteFirstEntry_entries {e : MultiLruEntry V} {rest : List (MultiLruEntry V)}
    (he : c.entryMap[key]? = some (e :: rest)) :
    (entries c.entryMap).Perm ((key, e) :: entries (c.deleteFirstEntry key e rest).entryMap) := by
  have hsplit := entries_split c.entryMap key
  rw [he, Option.getD_some, List.map_cons, List.cons_append] at hsplit
  refine hsplit.trans (.cons _ ?_)
  unfold deleteFirstEntry
  cases rest with
  | nil => exact .refl _
  | cons e' rest => exact (entries_insert _ _ _).symm

theorem deleteFirstEntry_ok (h : c.OK) {e : MultiLruEntry V} {rest : List (MultiLruEntry V)}
    (he : c.entryMap[key]? = some (e :: rest)) : (c.deleteFirstEntry key e rest).OK := by
  refine h.take (deleteFirstEntry_entries he) rfl (fun k hk => ?_) rfl
  unfold deleteFirstEntry at hk
  cases rest with
  | nil =>
    rw [List.isEmpty_nil, if_pos rfl, Std.TreeMap.getElem?_erase] at hk
    split at hk
    · cases hk
    · exact h.nonempty k hk
  | cons e' rest =>
    rw [List.isEmpty_cons, if_neg Bool.false_ne_true, Std.TreeMap.getElem?_insert] at hk
    split at hk
    · cases hk
    · exact h.nonempty k hk

theorem deleteFirstEntry_items {e : MultiLruEntry V} {rest : List (MultiLruEntry V)}
    (he : c.entryMap[key]? = some (e :: rest)) :
    ((key, e.value) :: (c.deleteFirstEntry key e rest).items).Perm c.items :=
  ((deleteFirstEntry_entries he).map item).symm

/-! ## Putting in -/

theorem emplace_entries (c : ExclusiveMultiLruCache K V) (now : Nat) (key : K) (value : V) :
    (entries (c.emplace now key value).entryMap).Perm
      ((key, ⟨value, now, c.lruList.fresh⟩) :: entries c.entryMap) := by
  refine (entries_insert _ _ _).trans ?_
  rw [List.map_append, List.append_assoc]
  refine List.perm_append_comm_assoc _ _ _ |>.trans (.cons _ ?_)
  exact (entries_split c.entryMap key).symm

theorem emplace_ok (h : c.OK) (now : Nat) (key : K) (value : V) : (c.emplace now key value).OK := by
  refine ⟨?_, fun k hk => ?_, ?_⟩
  · exact (h.nodes.cons _).trans ((emplace_entries c now key value).map node).symm
  · simp only [emplace, Std.TreeMap.getElem?_insert] at hk
    split at hk
    · simp at hk
    · exact h.nonempty k hk
  · simp [emplace, h.total, NodeList.size]

theorem emplace_items (c : ExclusiveMultiLruCache K V) (now : Nat) (key : K) (value : V) :
    (c.emplace now key value).items.Perm ((key, value) :: c.items) :=
  (emplace_entries c now key value).map item

theorem evictBack_spec (h : c.OK) :
    ∃ (evicted : Option (K × V)) (c' : ExclusiveMultiLruCache K V),
      c.evictBack = .ok (evicted.map Prod.snd, c') ∧ c'.OK ∧
      (evicted.toList ++ c'.items).Perm c.items := by
  unfold evictBack
  split
  · cases hback : c.lruList.back? with
    | none => exact ⟨none, c, rfl, h, .refl _⟩
    | some node =>
      obtain ⟨n, staleKey⟩ := node
      have hmem : (n, staleKey) ∈ c.lruList.nodes := List.mem_of_getLast? hback
      obtain ⟨⟨k, e⟩, he, heq⟩ := List.mem_map.mp (h.nodes.mem_iff.mp hmem)
      cases heq
      obtain ⟨es, hes, _⟩ := mem_entries.mp he
      cases es with
      | nil => exact absurd hes (h.nonempty k)
      | cons e rest =>
        simp only [hes]
        exact ⟨some (k, e.value), _, rfl, deleteFirstEntry_ok h hes, deleteFirstEntry_items hes⟩
  · exact ⟨none, c, rfl, h, .refl _⟩

/-- `Put` keeps all it has, and all it is given but what it returns. -/
theorem put_spec (h : c.OK) (now : Nat) (key : K) (value : V) :
    ∃ (evicted : Option (K × V)) (c' : ExclusiveMultiLruCache K V),
      c.put now key value = .ok (evicted.map Prod.snd, c') ∧
      c'.OK ∧ (evicted.toList ++ c'.items).Perm ((key, value) :: c.items) := by
  obtain ⟨evicted, c', hrun, hok, hitems⟩ := evictBack_spec (emplace_ok h now key value)
  exact ⟨evicted, c', hrun, hok, hitems.trans (emplace_items c now key value)⟩

omit [Std.TransOrd K] [Std.LawfulEqOrd K] in
/-- A value alone in the cache is not evicted. -/
theorem put_of_empty (h : c.OK) (hempty : c.items = []) (now : Nat) (key : K) (value : V) :
    c.put now key value = .ok (none, c.emplace now key value) := by
  have hent : entries c.entryMap = [] := List.map_eq_nil_iff.mp hempty
  have hnodes := h.nodes
  rw [hent, List.map_nil, List.perm_nil] at hnodes
  have htotal := h.total
  rw [NodeList.size, hnodes, List.length_nil] at htotal
  rw [put, evictBack, if_neg]
  rintro ⟨hpos, hlt⟩
  simp only [emplace, htotal] at hpos hlt
  omega

/-! ## Taking out -/

theorem eq_some_of_getD {α : Type*} {o : Option (List α)} {a : α} {as : List α} (h : o.getD [] = a :: as) :
    o = some (a :: as) := by
  cases o with
  | none => simp at h
  | some as' => exact congrArg some h

omit [Std.TransOrd K] [Std.LawfulEqOrd K] in
theorem popStale_of_no_timeout (ht : c.timeoutMillisec = 0) (now : Nat) (key : K) (es : List (MultiLruEntry V)) :
    c.popStale now key es = ([], es, c) := by
  cases es <;> simp [popStale, expired, ht]

theorem popStale_spec (h : c.OK) (now : Nat) {es : List (MultiLruEntry V)}
    (hes : (c.entryMap[key]?).getD [] = es) :
    (c.popStale now key es).2.2.OK ∧ (((c.popStale now key es).2.2.entryMap[key]?).getD [] =
      (c.popStale now key es).2.1) ∧
      ((c.popStale now key es).1.map (key, ·) ++ (c.popStale now key es).2.2.items).Perm c.items := by
  induction es generalizing c with
  | nil => exact ⟨h, hes, .refl _⟩
  | cons e rest ih =>
    have he : c.entryMap[key]? = some (e :: rest) := eq_some_of_getD hes
    unfold popStale
    split
    · have hrest : ((c.deleteFirstEntry key e rest).entryMap[key]?).getD [] = rest := by
        unfold deleteFirstEntry
        cases rest <;> simp
      obtain ⟨hok, hleft, hitems⟩ := ih (deleteFirstEntry_ok h he) hrest
      exact ⟨hok, hleft, (hitems.cons _).trans (deleteFirstEntry_items he)⟩
    · exact ⟨h, hes, .refl _⟩

/-- `GetAndPop` hands out values of the key, and keeps the rest. -/
theorem getAndPop_spec (h : c.OK) (now : Nat) (key : K) :
    ∃ (evicted : List V) (target : Option V) (c' : ExclusiveMultiLruCache K V),
      c.getAndPop now key = .ok (evicted, target, c') ∧ c'.OK ∧
      ((evicted ++ target.toList).map (key, ·) ++ c'.items).Perm c.items := by
  unfold getAndPop
  cases hk : c.entryMap[key]? with
  | none => exact ⟨[], none, c, rfl, h, .refl _⟩
  | some es =>
    obtain ⟨hok, hleft, hitems⟩ := popStale_spec h now (show (c.entryMap[key]?).getD [] = es by rw [hk]; rfl)
    rcases hp : c.popStale now key es with ⟨evicted, left, c'⟩
    rw [hp] at hok hleft hitems
    cases left with
    | cons e rest =>
      have he : c'.entryMap[key]? = some (e :: rest) := eq_some_of_getD hleft
      refine ⟨evicted, some e.value, _, by simp only [hp], deleteFirstEntry_ok hok he, ?_⟩
      rw [Option.toList_some, List.map_append, List.append_assoc]
      exact ((deleteFirstEntry_items he).append_left _).trans hitems
    | nil =>
      by_cases ht : 0 < c.timeoutMillisec
      · exact ⟨evicted, none, c', by simp only [hp, if_pos ht], hok, by simpa using hitems⟩
      · -- without a timeout nothing is evicted, and a key has an entry
        have hes : es = [] := by
          rw [popStale_of_no_timeout (by omega)] at hp
          exact congrArg (·.2.1) hp
        exact absurd (hes ▸ hk) (h.nonempty key)

/-! ## Clearing -/

theorem removeKey_ok (h : c.OK) {es : List (MultiLruEntry V)} (hes : c.entryMap[key]? = some es) :
    (c.removeKey key es).OK ∧ (es.map (fun e => (key, e.value)) ++ (c.removeKey key es).items).Perm c.items := by
  have hsplit := entries_split c.entryMap key
  rw [hes, Option.getD_some] at hsplit
  have hnodes := h.nodes.trans (hsplit.map node)
  rw [List.map_append, List.map_map] at hnodes
  have hlru := NodeList.eraseAll_perm hnodes
  refine ⟨⟨hlru, fun k hk => ?_, ?_⟩, ?_⟩
  · simp only [removeKey, Std.TreeMap.getElem?_erase] at hk
    split at hk
    · cases hk
    · exact h.nonempty k hk
  · have hlen := hnodes.length_eq
    have hlen' : (c.removeKey key es).lruList.nodes.length = _ := hlru.length_eq
    have htotal : c.totalEntriesNum = c.lruList.nodes.length := h.total
    change c.totalEntriesNum - es.length = (c.removeKey key es).lruList.nodes.length
    simp only [List.length_append, List.length_map] at hlen hlen'
    omega
  · have hitems := hsplit.map item
    rw [List.map_append, List.map_map] at hitems
    exact hitems.symm

/-- The keys go, and nothing else. -/
theorem removeKeys_spec (h : c.OK) {keys : List K} (hnodup : keys.Nodup) (hkeys : ∀ k ∈ keys, k ∈ c.entryMap) :
    ∃ (gone : List (K × V)) (c' : ExclusiveMultiLruCache K V),
      c.removeKeys keys = .ok (gone.map Prod.snd, c') ∧ c'.OK ∧
      (gone ++ c'.items).Perm c.items ∧ (∀ k, k ∈ c'.entryMap ↔ k ∈ c.entryMap ∧ k ∉ keys) ∧
        ∀ kv ∈ gone, kv.1 ∈ keys := by
  induction keys generalizing c with
  | nil => exact ⟨[], c, rfl, h, .refl _, by simp, nofun⟩
  | cons key keys ih =>
    obtain ⟨hkey, hnodup⟩ := List.nodup_cons.mp hnodup
    obtain ⟨es, hes⟩ := Option.isSome_iff_exists.mp (Std.TreeMap.mem_iff_isSome_getElem?.mp (hkeys key (by simp)))
    obtain ⟨hok, hitems⟩ := removeKey_ok h hes
    have hmem : ∀ k, k ∈ (c.removeKey key es).entryMap ↔ k ∈ c.entryMap ∧ k ≠ key := by
      intro k
      simp only [removeKey, Std.TreeMap.mem_erase, ne_eq, Std.compare_eq_iff_eq]
      rw [and_comm, eq_comm]
    obtain ⟨gone, c', hrun, hok', hitems', hleft, hgone⟩ := ih hok hnodup fun k hk =>
      (hmem k).mpr ⟨hkeys k (by simp [hk]), fun he => hkey (he ▸ hk)⟩
    refine ⟨es.map (fun e => (key, e.value)) ++ gone, c', ?_, hok', ?_, fun k => ?_, fun kv hkv => ?_⟩
    · simp only [removeKeys, hes, hrun, Except.map, List.map_append, List.map_map]
      rfl
    · rw [List.append_assoc]
      exact (hitems'.append_left _).trans hitems
    · rw [hleft, hmem, List.mem_cons, not_or, and_assoc]
    · rcases List.mem_append.mp hkv with hkv | hkv
      · obtain ⟨e, -, rfl⟩ := List.mem_map.mp hkv
        exact List.mem_cons_self
      · exact List.mem_cons_of_mem _ (hgone kv hkv)

theorem clearAndGetValuesFrom_spec (h : c.OK) (startKey : K) (keyFilter : K → Bool) :
    ∃ (gone : List (K × V)) (c' : ExclusiveMultiLruCache K V),
      c.clearAndGetValuesFrom startKey keyFilter = .ok (gone.map Prod.snd, c') ∧ c'.OK ∧
        (gone ++ c'.items).Perm c.items ∧
      (∀ k, k ∈ c'.entryMap ↔ k ∈ c.entryMap ∧ k ∉ keysInRange c.entryMap.keys startKey keyFilter) ∧
      ∀ kv ∈ gone, kv.1 ∈ keysInRange c.entryMap.keys startKey keyFilter := by
  have hsub : (keysInRange c.entryMap.keys startKey keyFilter).Sublist c.entryMap.keys :=
    (List.takeWhile_sublist _).trans (List.dropWhile_sublist _)
  exact removeKeys_spec h (Std.TreeMap.nodup_keys.sublist hsub) fun k hk => Std.TreeMap.mem_keys.mp
    (hsub.subset hk)

omit [Std.LawfulEqOrd K] in
theorem clearAndGetValues_ok (c : ExclusiveMultiLruCache K V) : c.clearAndGetValues.2.OK :=
  ⟨.refl _, by simp [clearAndGetValues], rfl⟩

end ExclusiveMultiLruCache

end ReadCacheFs
