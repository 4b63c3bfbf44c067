/-
Groups do not see one another.

`Alike`: the same group in two storages, down to the nodes of its policy,
with the same blocks behind its pointers. What is done to other groups is
invisible to it; what is done to the group itself, or to all, keeps it. So a
run and what is left of it when the other groups' operations are taken out
agree on the group all along.

The order in which a hash map is iterated may differ between the two runs:
the loop of a filtered clear ends in one state whatever the order.
-/
import ReadCacheFs.Lib.Runs
import ReadCacheFs.PolicyInvariant

namespace ReadCacheFs

open Lib

/-! ## Entries with their blocks -/

/-- An entry, the block it points at in the place of the pointer. -/
structure HeldEntry where
  key : InMemCacheBlock
  bytes : Nat
  insertedAt : Nat
  block : Option InMemCacheDataEntry
  deriving DecidableEq, Repr

def heldEntry (heap : DataHeap) (kv : Σ _ : InMemCacheBlock, PolicyEntry) : HeldEntry :=
  { key := kv.1, bytes := kv.2.bytes, insertedAt := kv.2.insertedAt, block := heap[kv.2.data]? }

def heldEntries (heap : DataHeap) (entries : PolicyEntries) : List HeldEntry :=
  entries.entries.map (heldEntry heap)

section Entries

variable {heap : DataHeap} {entries : PolicyEntries} {key : InMemCacheBlock} {e : PolicyEntry}

theorem heldEntries_lookup (heap : DataHeap) (entries : PolicyEntries) (key : InMemCacheBlock) :
    (entries.lookup key).map (fun e => heldEntry heap ⟨key, e⟩) =
      (heldEntries heap entries).find? (·.key == key) := by
  rw [AList.lookup, heldEntries]
  induction entries.entries with
  | nil => rfl
  | cons kv rest ih =>
    obtain ⟨k, e⟩ := kv
    by_cases hk : k = key
    · subst hk
      simp [heldEntry]
    · rw [List.dlookup_cons_ne _ _ (Ne.symm hk), ih]
      simp [heldEntry, hk]

theorem heldEntries_erase (heap : DataHeap) (entries : PolicyEntries) (key : InMemCacheBlock) :
    heldEntries heap (entries.erase key) = (heldEntries heap entries).eraseP fun x => decide (key = x.key) := by
  change (List.kerase key entries.entries).map _ = _
  simp only [heldEntries, List.kerase, List.eraseP_map]
  rfl

theorem heldEntries_insert (heap : DataHeap) (entries : PolicyEntries) (key : InMemCacheBlock) (e : PolicyEntry) :
    heldEntries heap (entries.insert key e) = heldEntry heap ⟨key, e⟩ :: heldEntries heap
      (entries.erase key) := rfl

/-- Blocks allocated later are behind no pointer there is. -/
theorem heldEntries_append {alloc : DataHeap} (h : ∀ k e, entries.lookup k = some e → e.data < heap.length) :
    heldEntries (heap ++ alloc) entries = heldEntries heap entries := by
  refine List.map_congr_left fun kv hkv => ?_
  rw [heldEntry, heldEntry, List.getElem?_append_left (h kv.1 kv.2 (AList.mem_lookup_iff.mpr hkv))]

end Entries

/-! ## The loop of a filtered clear, in any order -/

namespace Group

/-- Sizes are `idx_t`. -/
def Narrow (g : Group) : Prop := ∀ k e, g.entries.lookup k = some e → e.bytes < 2 ^ 64

theorem clearMatching_eq_foldl (filter : InMemCacheBlock → Bool)
    (l : List (Σ _ : InMemCacheBlock, PolicyEntry)) (g : Group) :
    clearMatching filter l g =
      (l.filter fun kv => filter kv.1).foldl (fun g kv => g.removeEntry kv.1 kv.2) g := by
  induction l generalizing g with
  | nil => rfl
  | cons kv rest ih =>
    rw [clearMatching, List.filter_cons]
    split
    · exact ih _
    · exact ih _

theorem removeEntry_comm (g : Group) {k k' : InMemCacheBlock} {e e' : PolicyEntry} (he : e.bytes < 2 ^ 64)
    (he' : e'.bytes < 2 ^ 64) :
    (g.removeEntry k e).removeEntry k' e' = (g.removeEntry k' e').removeEntry k e := by
  have hused : u64Sub (u64Sub g.usedBytes e.bytes) e'.bytes = u64Sub (u64Sub g.usedBytes e'.bytes) e.bytes := by
    unfold u64Sub
    omega
  simp only [removeEntry, hused, AList.erase_erase k k', EvictionPolicy.onErase_comm g.policy k k']

theorem clearMatching_perm {g : Group} (hg : g.Narrow) (filter : InMemCacheBlock → Bool)
    {l : List (Σ _ : InMemCacheBlock, PolicyEntry)} (h : l.Perm g.entries.entries) :
    clearMatching filter l g = clearMatching filter g.entries.entries g := by
  have hbytes : ∀ kv ∈ l.filter (fun kv => filter kv.1), kv.2.bytes < 2 ^ 64 := fun kv hkv =>
    hg kv.1 kv.2 (AList.mem_lookup_iff.mpr (h.mem_iff.mp (List.mem_of_mem_filter hkv)))
  rw [clearMatching_eq_foldl, clearMatching_eq_foldl]
  exact (h.filter _).foldl_eq' (fun x hx y hy z => removeEntry_comm z (hbytes x hx) (hbytes y hy)) g

end Group

/-! ## One group in two storages -/

/-- The group but for its entries, and the entries with their blocks: all
its state, the values of the pointers apart. -/
def Group.contents (heap : DataHeap) (g : Group) : Group × List HeldEntry :=
  ({ g with entries := ∅ }, heldEntries heap g.entries)

def Alike (heap heap' : DataHeap) (g g' : Group) : Prop := g'.contents heap' = g.contents heap

namespace Alike

variable {heap heap' : DataHeap} {g g' : Group} {key : InMemCacheBlock}

theorem symm (h : Alike heap heap' g g') : Alike heap' heap g' g := Eq.symm h

theorem trans {heap'' : DataHeap} {g'' : Group} (h' : Alike heap' heap'' g' g'') (h : Alike heap heap' g g') :
    Alike heap heap'' g g'' :=
  Eq.trans h' h

/-- The two groups differ in pointers at most. -/
theorem entries_only (h : Alike heap heap' g g') :
    ∃ entries, g' = { g with entries } ∧ heldEntries heap' entries = heldEntries heap g.entries := by
  obtain ⟨hg, he⟩ := Prod.mk.inj h
  refine ⟨g'.entries, ?_, he⟩
  cases g
  cases g'
  simp only [Group.mk.injEq] at hg ⊢
  simp [hg]

theorem lookup (h : Alike heap heap' g g') (key : InMemCacheBlock) :
    (g'.entries.lookup key).map (fun e => heldEntry heap' ⟨key, e⟩) =
      (g.entries.lookup key).map fun e => heldEntry heap ⟨key, e⟩ := by
  rw [heldEntries_lookup, heldEntries_lookup, show heldEntries heap' g'.entries = _ from (Prod.mk.inj h).2]

theorem lookup_none (h : Alike heap heap' g g') : g'.entries.lookup key = none ↔ g.entries.lookup key = none := by
  have hl := h.lookup key
  rw [← Option.map_eq_none_iff, hl, Option.map_eq_none_iff]

theorem lookup_some (h : Alike heap heap' g g') {e : PolicyEntry} (he : g.entries.lookup key = some e) :
    ∃ e', g'.entries.lookup key = some e' ∧ e'.bytes = e.bytes ∧ e'.insertedAt = e.insertedAt ∧
      heap'[e'.data]? = heap[e.data]? := by
  have hl := h.lookup key
  rw [he, Option.map_some] at hl
  obtain ⟨e', he', heq⟩ := Option.map_eq_some_iff.mp hl
  simp only [heldEntry, HeldEntry.mk.injEq] at heq
  exact ⟨e', he', heq.2.1, heq.2.2.1, heq.2.2.2⟩

theorem of_entries (g : Group) {entries entries' : PolicyEntries}
    (h : heldEntries heap' entries' = heldEntries heap entries) :
    Alike heap heap' { g with entries } { g with entries := entries' } := by
  rw [Alike, Group.contents, Group.contents, h]

theorem refl_of_held {g : Group} (h : heldEntries heap' g.entries = heldEntries heap g.entries) :
    Alike heap heap' g g :=
  of_entries g h

theorem held_erase {entries entries' : PolicyEntries} (h : heldEntries heap' entries' = heldEntries heap entries)
    (key : InMemCacheBlock) : heldEntries heap' (entries'.erase key) = heldEntries heap (entries.erase key) := by
  rw [heldEntries_erase, heldEntries_erase, h]

theorem removeEntry (h : Alike heap heap' g g') (key : InMemCacheBlock) {e e' : PolicyEntry}
    (hb : e'.bytes = e.bytes) :
    Alike heap heap' (g.removeEntry key e) (g'.removeEntry key e') := by
  obtain ⟨entries, rfl, he⟩ := h.entries_only
  rw [Group.removeEntry, Group.removeEntry, hb]
  exact of_entries (g.removeEntry key e) (held_erase he key)

theorem evictVictim (h : Alike heap heap' g g') (policy : EvictionPolicy) (victim : InMemCacheBlock)
    {e e' : PolicyEntry} (hb : e'.bytes = e.bytes) :
    Alike heap heap' (g.evictVictim policy victim e) (g'.evictVictim policy victim e') := by
  obtain ⟨entries, rfl, he⟩ := h.entries_only
  rw [Group.evictVictim, Group.evictVictim, hb]
  exact of_entries (g.evictVictim policy victim e) (held_erase he victim)

theorem removeExisting (h : Alike heap heap' g g') (key : InMemCacheBlock) :
    Alike heap heap' (g.removeExisting key) (g'.removeExisting key) := by
  unfold Group.removeExisting
  cases he : g.entries.lookup key with
  | none =>
    rw [h.lookup_none.mpr he]
    exact h
  | some e =>
    obtain ⟨e', he', hb, _⟩ := h.lookup_some he
    rw [he']
    exact h.removeEntry key hb

theorem evictToFit (needed : Nat) (h : Alike heap heap' g g') :
    Alike heap heap' (g.evictToFit needed).1 (g'.evictToFit needed).1 := by
  induction hn : g.policy.keys.length using Nat.strong_induction_on generalizing g g' with
  | _ n ih =>
    subst hn
    obtain ⟨entries, rfl, he⟩ := h.entries_only
    rw [Group.evictToFit_fst, Group.evictToFit_fst]
    dsimp only
    split
    · exact h
    · cases hp : g.policy.popVictim with
      | mk victim policy =>
        cases victim with
        | none => exact of_entries { g with policy } he
        | some victim =>
          have hlt := EvictionPolicy.popVictim_size hp
          dsimp only
          cases hl : g.entries.lookup victim with
          | none =>
            rw [show entries.lookup victim = none from h.lookup_none.mpr hl]
            exact ih _ hlt (of_entries { g with policy } he) rfl
          | some e =>
            obtain ⟨e', hl', hb, _⟩ := h.lookup_some hl
            rw [show entries.lookup victim = some e' from hl']
            exact ih _ hlt (h.evictVictim policy victim hb) rfl

/-- A new entry with the same block behind it. -/
theorem insertEntry (h : Alike heap heap' g g') (key : InMemCacheBlock) {e e' : PolicyEntry}
    (hb : heldEntry heap' ⟨key, e'⟩ = heldEntry heap ⟨key, e⟩) :
    Alike heap heap' (g.insertEntry key e) (g'.insertEntry key e') := by
  obtain ⟨entries, rfl, he⟩ := h.entries_only
  have hbytes : e'.bytes = e.bytes := congrArg HeldEntry.bytes hb
  rw [Group.insertEntry, Group.insertEntry, hbytes]
  refine of_entries (g.insertEntry key e) ?_
  rw [heldEntries_insert, hb, held_erase he]
  rfl

theorem clear (h : Alike heap heap' g g') : Alike heap heap' g.clear g'.clear := by
  obtain ⟨entries, rfl, _⟩ := h.entries_only
  exact refl_of_held rfl

theorem miss (h : Alike heap heap' g g') :
    Alike heap heap' { g with misses := u64 (g.misses + 1) } { g' with misses := u64 (g'.misses + 1) } := by
  obtain ⟨entries, rfl, he⟩ := h.entries_only
  exact of_entries { g with misses := u64 (g.misses + 1) } he

theorem hit (h : Alike heap heap' g g') (key : InMemCacheBlock) :
    Alike heap heap' { g with hits := u64 (g.hits + 1), policy := g.policy.onHit key }
      { g' with hits := u64 (g'.hits + 1), policy := g'.policy.onHit key } := by
  obtain ⟨entries, rfl, he⟩ := h.entries_only
  exact of_entries { g with hits := u64 (g.hits + 1), policy := g.policy.onHit key } he

theorem clearLoop (filter : InMemCacheBlock → Bool) {l l' : List (Σ _ : InMemCacheBlock, PolicyEntry)}
    (hl : l'.map (heldEntry heap') = l.map (heldEntry heap)) (h : Alike heap heap' g g') :
    Alike heap heap' (g.clearMatching filter l) (g'.clearMatching filter l') := by
  induction l generalizing l' g g' with
  | nil =>
    rw [List.map_nil, List.map_eq_nil_iff] at hl
    rw [hl]
    exact h
  | cons kv rest ih =>
    obtain ⟨kv', rest', rfl, hkv, hrest⟩ := List.map_eq_cons_iff.mp hl
    have hk : kv'.1 = kv.1 := congrArg HeldEntry.key hkv
    have hb : kv'.2.bytes = kv.2.bytes := congrArg HeldEntry.bytes hkv
    rw [Group.clearMatching, Group.clearMatching, hk]
    split
    · exact ih hrest (h.removeEntry kv.1 hb)
    · exact ih hrest h

theorem narrow (h : Alike heap heap' g g') (hg : g.Narrow) : g'.Narrow := by
  intro k e' he'
  have hl := h.lookup k
  rw [he', Option.map_some, eq_comm] at hl
  obtain ⟨e, he, heq⟩ := Option.map_eq_some_iff.mp hl
  rw [← show e.bytes = e'.bytes from congrArg HeldEntry.bytes heq]
  exact hg k e he

theorem clearMatching (h : Alike heap heap' g g') (hg : g.Narrow) (filter : InMemCacheBlock → Bool)
    {l l' : List (Σ _ : InMemCacheBlock, PolicyEntry)} (hl : l.Perm g.entries.entries)
    (hl' : l'.Perm g'.entries.entries) :
    Alike heap heap' (g.clearMatching filter l) (g'.clearMatching filter l') := by
  rw [Group.clearMatching_perm hg filter hl, Group.clearMatching_perm (h.narrow hg) filter hl']
  exact clearLoop filter (Prod.mk.inj h).2 h

end Alike

/-! ## Two storages that agree on a group -/

namespace PolicyStorage

/-- The two storages have the same groups, and the same state in group `i`. -/
structure Agree (i : Nat) (s t : PolicyStorage) : Prop where
  routed : s.Routed
  routed' : t.Routed
  shapes : t.groups.map Group.shape = s.groups.map Group.shape
  timeoutMillisec : t.timeoutMillisec = s.timeoutMillisec
  narrow : ∀ g, s.groups[i]? = some g → g.Narrow
  alike : ∀ g g', s.groups[i]? = some g → t.groups[i]? = some g' → Alike s.heap t.heap g g'

variable {i : Nat} {s s' t t' : PolicyStorage} {alloc alloc' : List InMemCacheDataEntry}

theorem Routed.pointed_in (h : s.Routed) {g : Group} (hg : s.groups[i]? = some g) :
    ∀ k e, g.entries.lookup k = some e → e.data < s.heap.length :=
  fun k e he => h.pointed i k e (by rw [lookupIn, hg]; exact he)

theorem Routed.alike_append (h : s.Routed) {g : Group} (hg : s.groups[i]? = some g) (alloc : DataHeap) :
    Alike s.heap (s.heap ++ alloc) g g :=
  .refl_of_held (heldEntries_append (h.pointed_in hg))

/-- Blocks allocated on either side change nothing. -/
theorem Agree.alike_append (h : Agree i s t) {g g' : Group} (hg : s.groups[i]? = some g)
    (hg' : t.groups[i]? = some g') (alloc alloc' : DataHeap) :
    Alike (s.heap ++ alloc) (t.heap ++ alloc') g g' :=
  ((h.routed'.alike_append hg' alloc').trans (h.alike g g' hg hg')).trans (h.routed.alike_append hg alloc).symm

/-- An operation on the one side that leaves the group alone. -/
theorem Agree.other (h : Agree i s t) (hm : Moves s s' alloc) (hi : s'.groups[i]? = s.groups[i]?) :
    Agree i s' t := by
  refine ⟨hm.routed h.routed, h.routed', h.shapes.trans hm.shapes.symm,
    h.timeoutMillisec.trans hm.timeoutMillisec.symm,
    fun g hg => h.narrow g (hi ▸ hg), fun g g' hg hg' => ?_⟩
  have := h.alike_append (hi ▸ hg) hg' alloc []
  rwa [List.append_nil, ← hm.heap] at this

/-- An operation on both sides. -/
theorem Agree.both (h : Agree i s t) (hm : Moves s s' alloc) (hm' : Moves t t' alloc')
    (hg : ∀ g g', s.groups[i]? = some g → t.groups[i]? = some g' → ∃ g₁ g₁', s'.groups[i]? = some g₁ ∧
      t'.groups[i]? = some g₁' ∧ g₁.Narrow ∧ Alike s'.heap t'.heap g₁ g₁') : Agree i s' t' := by
  have hnone : ∀ {u u' : PolicyStorage}, u'.groups.map Group.shape = u.groups.map Group.shape →
      ∀ g, u'.groups[i]? = some g → ∃ g₀, u.groups[i]? = some g₀ := by
    intro u u' hsh g hg
    have hlen := congrArg List.length hsh
    rw [List.length_map, List.length_map] at hlen
    have hlt := (List.getElem?_eq_some_iff.mp hg).1
    exact ⟨_, List.getElem?_eq_getElem (hlen ▸ hlt)⟩
  have hboth : ∀ g₁, s'.groups[i]? = some g₁ → g₁.Narrow ∧ ∀ g₁', t'.groups[i]? = some g₁' →
      Alike s'.heap t'.heap g₁ g₁' := by
    intro g₁ hg₁
    obtain ⟨g, hgs⟩ := hnone hm.shapes g₁ hg₁
    obtain ⟨g', hgt⟩ := hnone h.shapes.symm g hgs
    obtain ⟨g₂, g₂', hg₂, hg₂', hn, ha⟩ := hg g g' hgs hgt
    rw [hg₁] at hg₂
    cases hg₂
    refine ⟨hn, fun g₁' hg₁' => ?_⟩
    rw [hg₁'] at hg₂'
    cases hg₂'
    exact ha
  exact ⟨hm.routed h.routed, hm'.routed h.routed', hm'.shapes.trans (h.shapes.trans hm.shapes.symm),
    hm'.timeoutMillisec.trans (h.timeoutMillisec.trans hm.timeoutMillisec.symm), fun g hg => (hboth g hg).1,
    fun g g' hg hg' => (hboth g hg).2 g' hg'⟩

theorem getElem?_set_self {groups : List Group} {g : Group} (h : groups[i]? = some g) (g' : Group) :
    (groups.set i g')[i]? = some g' := by
  rw [List.getElem?_set_self (List.getElem?_eq_some_iff.mp h).1]

/-- After a `Put` into it, the group is as it was or has the new block. -/
theorem Agree.put (h : Agree i s t) {key : InMemCacheBlock} (hi : chooseGroup s.groups key.fname = i) (now : Nat)
    {chunk : PageAlignedDataChunk} (hwide : chargedBytes chunk < 2 ^ 64) (versionTag : String) :
    Agree i (s.put now key chunk versionTag) (t.put now key chunk versionTag) := by
  obtain ⟨alloc, hm, _⟩ := put_moves h.routed now key chunk versionTag
  obtain ⟨alloc', hm', _⟩ := put_moves h.routed' now key chunk versionTag
  refine h.both hm hm' fun g g' hg hg' => ?_
  have hti : chooseGroup t.groups key.fname = i := (chooseGroup_congr h.shapes _).trans hi
  obtain ⟨g₀, hg₀, hs⟩ := put_cases h.routed now key chunk versionTag
  obtain ⟨g₀', hg₀', ht⟩ := put_cases h.routed' now key chunk versionTag
  rw [hi] at hg₀ hs
  rw [hti] at hg₀' ht
  cases hg.symm.trans hg₀
  cases hg'.symm.trans hg₀'
  have ha := h.alike g g' hg hg'
  have hb : g'.bounded = g.bounded := congrArg (fun c => c.1.bounded) ha
  have hc : g'.capacityBytes = g.capacityBytes := congrArg (fun c => c.1.capacityBytes) ha
  rw [hb, hc] at ht
  rcases hs with ⟨hbd, hlt, hs⟩ | ⟨hfit, hs⟩
  · rcases ht with ⟨_, _, ht⟩ | ⟨hfit, _⟩
    · rw [hs, ht, groupFor_eq, groupFor_eq t]
      exact ⟨g, g', hg, hg', h.narrow g hg, ha⟩
    · exact absurd (hfit hbd) (Nat.not_le.mpr hlt)
  · rcases ht with ⟨hbd, hlt, _⟩ | ⟨_, ht⟩
    · exact absurd (hfit hbd) (Nat.not_le.mpr hlt)
    · rw [hs, ht, groupFor_eq, groupFor_eq t]
      refine ⟨_, _, getElem?_set_self hg _, getElem?_set_self hg' _, fun k e he => ?_, ?_⟩
      · by_cases hk : k = key
        · subst hk
          rw [Group.insertEntry, AList.lookup_insert] at he
          cases he
          exact hwide
        · rw [Group.insertEntry, AList.lookup_insert_ne hk] at he
          exact h.narrow g hg k e (Group.removeExisting_lookup (Group.evictToFit_lookup he)).2
      · refine (((h.alike_append hg hg' _ _).removeExisting key).evictToFit
          (chargedBytes chunk)).insertEntry key ?_
        simp [heldEntry]

/-- `Get` finds the same block in both, and the group is changed the same way. -/
theorem Agree.get (h : Agree i s t) {key : InMemCacheBlock} (hi : chooseGroup s.groups key.fname = i) (now : Nat)
    (tag : String) : Agree i (s.get now key tag).2 (t.get now key tag).2 ∧
      (s.get now key tag).1.bind (s.heap[·]?) = (t.get now key tag).1.bind (t.heap[·]?) := by
  have hti : chooseGroup t.groups key.fname = i := (chooseGroup_congr h.shapes _).trans hi
  obtain ⟨g, hg, hs⟩ := get_cases h.routed now key tag
  obtain ⟨g', hg', ht⟩ := get_cases h.routed' now key tag
  rw [hi] at hg hs
  rw [hti] at hg' ht
  have ha := h.alike g g' hg hg'
  have hexp : ∀ {e e' : PolicyEntry}, e'.insertedAt = e.insertedAt → t.expired now e' = s.expired now e := by
    intro e e' he
    rw [expired, expired, h.timeoutMillisec, he]
  -- It is enough to say what has become of the group.
  have hsuff : ∀ {g₁ g₁' : Group}, Alike s.heap t.heap g₁ g₁' → g₁.Narrow →
      (s.get now key tag).2 =
        { (s.groupFor key.fname).2 with groups := (s.groupFor key.fname).2.groups.set i g₁ } →
      (t.get now key tag).2 =
        { (t.groupFor key.fname).2 with groups := (t.groupFor key.fname).2.groups.set i g₁' } →
      Agree i (s.get now key tag).2 (t.get now key tag).2 := by
    intro g₁ g₁' ha₁ hn hs₁ ht₁
    refine h.both (get_moves h.routed now key tag) (get_moves h.routed' now key tag) fun _ _ _ _ => ?_
    rw [hs₁, ht₁, groupFor_eq, groupFor_eq t]
    exact ⟨g₁, g₁', getElem?_set_self hg _, getElem?_set_self hg' _, hn, ha₁⟩
  have hnar := h.narrow g hg
  rcases hs with ⟨hl, hs⟩ | ⟨e, d, hl, hd, hs⟩
  · rcases ht with ⟨_, ht⟩ | ⟨e', _, hl', _⟩
    · refine ⟨hsuff ha.miss hnar (congrArg Prod.snd hs) (congrArg Prod.snd ht), ?_⟩
      rw [hs, ht]
      rfl
    · rw [ha.lookup_none.mpr hl] at hl'
      cases hl'
  · obtain ⟨e', hl', hb, hat, hblock⟩ := ha.lookup_some hl
    rcases ht with ⟨hn, _⟩ | ⟨e₂, d₂, he₂, hd₂, ht⟩
    · rw [hl'] at hn
      cases hn
    rw [hl'] at he₂
    cases he₂
    rw [hblock, hd] at hd₂
    cases hd₂
    rw [hexp hat] at ht
    rcases hs with ⟨hstale, hs⟩ | ⟨hfresh, htag, hs⟩
    · rcases ht with ⟨_, ht⟩ | ⟨hfresh, htag, _⟩
      · refine ⟨hsuff (ha.removeEntry key hb).miss (fun k e he => hnar k e (Group.lookup_erase_iff.mp he).2)
          (congrArg Prod.snd hs) (congrArg Prod.snd ht), ?_⟩
        rw [hs, ht]
        rfl
      · simp [hfresh, htag] at hstale
    · rcases ht with ⟨hstale, _⟩ | ⟨_, _, ht⟩
      · simp [hfresh, htag] at hstale
      · refine ⟨hsuff (ha.hit key) hnar (congrArg Prod.snd hs) (congrArg Prod.snd ht), ?_⟩
        rw [hs, ht]
        exact hblock.symm

theorem Agree.delete (h : Agree i s t) {key : InMemCacheBlock} (hi : chooseGroup s.groups key.fname = i) :
    Agree i (s.delete key).2 (t.delete key).2 := by
  have hti : chooseGroup t.groups key.fname = i := (chooseGroup_congr h.shapes _).trans hi
  obtain ⟨g, hg, hs⟩ := delete_cases h.routed key
  obtain ⟨g', hg', ht⟩ := delete_cases h.routed' key
  rw [hi] at hg hs
  rw [hti] at hg' ht
  have ha := h.alike g g' hg hg'
  refine h.both (delete_moves h.routed key) (delete_moves h.routed' key) fun _ _ _ _ => ?_
  rcases hs with ⟨hl, hs⟩ | ⟨e, hl, hs⟩
  · rcases ht with ⟨_, ht⟩ | ⟨e', hl', _⟩
    · rw [hs, ht, groupFor_eq, groupFor_eq t]
      exact ⟨g, g', hg, hg', h.narrow g hg, ha⟩
    · rw [ha.lookup_none.mpr hl] at hl'
      cases hl'
  · obtain ⟨e', hl', hb, _⟩ := ha.lookup_some hl
    rcases ht with ⟨hn, _⟩ | ⟨e₂, he₂, ht⟩
    · rw [hl'] at hn
      cases hn
    rw [hl'] at he₂
    cases he₂
    rw [hs, ht, groupFor_eq, groupFor_eq t]
    exact ⟨_, _, getElem?_set_self hg _, getElem?_set_self hg' _,
      fun k e he => h.narrow g hg k e (Group.lookup_erase_iff.mp he).2, ha.removeEntry key hb⟩

theorem Agree.clear (h : Agree i s t) : Agree i s.clear t.clear := by
  refine h.both s.clear_moves t.clear_moves fun g g' hg hg' => ⟨g.clear, g'.clear, ?_, ?_, fun k e he => ?_, ?_⟩
  · simp [PolicyStorage.clear, hg]
  · simp [PolicyStorage.clear, hg']
  · rw [Group.clear, AList.lookup_empty] at he
    cases he
  · exact (h.alike g g' hg hg').clear

theorem Agree.clearFrom (h : Agree i s t) (hash hash' : HashOrder (Σ _ : InMemCacheBlock, PolicyEntry))
    (startKey : InMemCacheBlock) (filter : InMemCacheBlock → Bool) :
    Agree i (s.clearFrom hash startKey filter) (t.clearFrom hash' startKey filter) := by
  refine h.both (s.clearFrom_moves hash startKey filter) (t.clearFrom_moves hash' startKey filter)
    fun g g' hg hg' => ⟨_, _, ?_, ?_, fun k e he => ?_,
      (h.alike g g' hg hg').clearMatching (h.narrow g hg) filter (hash.perm g.entries.entries)
        (hash'.perm g'.entries.entries)⟩
  · simp [PolicyStorage.clearFrom, hg]
  · simp [PolicyStorage.clearFrom, hg']
  · exact h.narrow g hg k e ((Group.clearMatching_lookup filter _ g).mp he).1

/-- An operation on a path of another group. -/
theorem put_other (h : s.Routed) {key : InMemCacheBlock} (hi : chooseGroup s.groups key.fname ≠ i) (now : Nat)
    (chunk : PageAlignedDataChunk) (versionTag : String) :
    (s.put now key chunk versionTag).groups[i]? = s.groups[i]? := by
  obtain ⟨g, _, ⟨_, _, he⟩ | ⟨_, he⟩⟩ := put_cases h now key chunk versionTag
  · rw [he, groupFor_eq]
  · rw [he, groupFor_eq]
    exact List.getElem?_set_ne hi

theorem get_other (h : s.Routed) {key : InMemCacheBlock} (hi : chooseGroup s.groups key.fname ≠ i) (now : Nat)
    (tag : String) : (s.get now key tag).2.groups[i]? = s.groups[i]? := by
  obtain ⟨g, _, ⟨_, he⟩ | ⟨e, d, _, _, ⟨_, he⟩ | ⟨_, _, he⟩⟩⟩ := get_cases h now key tag
  · rw [he, groupFor_eq]
    exact List.getElem?_set_ne hi
  · rw [he, groupFor_eq]
    exact List.getElem?_set_ne hi
  · rw [he, groupFor_eq]
    exact List.getElem?_set_ne hi

theorem delete_other (h : s.Routed) {key : InMemCacheBlock} (hi : chooseGroup s.groups key.fname ≠ i) :
    (s.delete key).2.groups[i]? = s.groups[i]? := by
  obtain ⟨g, _, ⟨_, he⟩ | ⟨e, _, he⟩⟩ := delete_cases h key
  · rw [he, groupFor_eq]
  · rw [he, groupFor_eq]
    exact List.getElem?_set_ne hi

end PolicyStorage

/-! ## The two runs -/

/-- The group of a path: the first entry of the spec whose pattern occurs in
it (the parser refuses an empty pattern), else the catch-all. -/
def groupOf (spec : List SpecEntry) (fname : String) : Nat :=
  (spec.findIdx? fun e => decide (e.pattern ≠ "") && decide (e.pattern.toList <:+: fname.toList)).getD spec.length

/-- The operation is on a file of group `i`, or on no one file. -/
def PolicyAct.concerns (spec : List SpecEntry) (i : Nat) : PolicyAct → Bool
  | .put _ key _ _ | .get _ key _ | .delete key => decide (groupOf spec key.fname = i)
  | .clear | .clearFrom .. | .take _ => true

/-- The sizes of a chunk are `idx_t`. -/
def PolicyAct.Wide : PolicyAct → Prop
  | .put _ _ chunk _ => chunk.length < 2 ^ 64 ∧ chunk.capacity < 2 ^ 64
  | _ => True

instance : DecidablePred PolicyAct.Wide
  | .put .. => inferInstanceAs (Decidable (_ ∧ _))
  | .get .. | .delete _ | .clear | .clearFrom .. | .take _ => .isTrue trivial

/-- What an operation returns, if it is a `Get`: the key, and the entry pinned. -/
def PolicyAct.result (s : PolicyStorage) : PolicyAct → Option (InMemCacheBlock × Option InMemCacheDataEntry)
  | .get now key tag => some (key, (s.get now key tag).1.bind (s.heap[·]?))
  | _ => none

/-- What the `Get`s on files of group `i` return in a run. -/
def groupResults (spec : List SpecEntry) (i : Nat) :
    PolicyStorage → List PolicyAct → List (InMemCacheBlock × Option InMemCacheDataEntry)
  | _, [] => []
  | s, a :: as =>
    (if a.concerns spec i then (a.result s).toList else []) ++
      ((policyStep s a).elim [] fun s' => groupResults spec i s' as)

namespace PolicyStorage

variable {i : Nat} {s s' t t' : PolicyStorage} {spec : List SpecEntry} {a : PolicyAct}

theorem chooseGroup_new {maxBytes timeoutMillisec : Nat} {defaultPolicy : EvictionPolicyKind} {s₀ : PolicyStorage}
    (h : newPolicyStorage maxBytes timeoutMillisec defaultPolicy spec = .ok s₀) (fname : String) :
    chooseGroup s₀.groups fname = groupOf spec fname := by
  simp only [newPolicyStorage] at h
  split at h
  · cases h
  · cases h
    rw [chooseGroup, groupOf, List.findIdx?_append, List.findIdx?_map]
    simp only [Function.comp_def]
    cases spec.findIdx? fun e => decide (e.pattern ≠ "") && decide (e.pattern.toList <:+: fname.toList) with
    | none => simp
    | some n => simp

theorem policyStep_moves (h : s.Routed) (hs : policyStep s a = some s') : ∃ alloc, Moves s s' alloc := by
  cases a with
  | put now key chunk tag =>
    cases hs
    obtain ⟨alloc, hm, _⟩ := put_moves h now key chunk tag
    exact ⟨alloc, hm⟩
  | get now key tag => cases hs; exact ⟨[], get_moves h now key tag⟩
  | delete key => cases hs; exact ⟨[], delete_moves h key⟩
  | clear => cases hs; exact ⟨[], clear_moves s⟩
  | clearFrom hash startKey filter => cases hs; exact ⟨[], clearFrom_moves s hash startKey filter⟩
  | take hash => cases hs; exact ⟨[], clear_moves s⟩

/-- The groups are those of the spec, and entries are where they belong. -/
structure Grouped (spec : List SpecEntry) (s : PolicyStorage) : Prop where
  routed : s.Routed
  chosen : ∀ fname, chooseGroup s.groups fname = groupOf spec fname

theorem Grouped.step (h : Grouped spec s) (hs : policyStep s a = some s') : Grouped spec s' := by
  obtain ⟨alloc, hm⟩ := policyStep_moves h.routed hs
  exact ⟨hm.routed h.routed, fun f => (chooseGroup_congr hm.shapes f).trans (h.chosen f)⟩

theorem Grouped.groupFor (h : Grouped spec s) (fname : String) : (s.groupFor fname).1 = groupOf spec fname :=
  (groupFor_fst h.routed fname).trans (h.chosen fname)

/-- An operation on another group changes the one storage only. -/
theorem Agree.step_other (h : Agree i s t) (hs : Grouped spec s) (ha : a.concerns spec i = false)
    (hx : policyStep s a = some s') : Agree i s' t := by
  obtain ⟨alloc, hm⟩ := policyStep_moves h.routed hx
  refine h.other hm ?_
  cases a with
  | put now key chunk tag =>
    cases hx
    exact put_other h.routed (by rw [hs.chosen]; simpa [PolicyAct.concerns] using ha) now chunk tag
  | get now key tag =>
    cases hx
    exact get_other h.routed (by rw [hs.chosen]; simpa [PolicyAct.concerns] using ha) now tag
  | delete key =>
    cases hx
    exact delete_other h.routed (by rw [hs.chosen]; simpa [PolicyAct.concerns] using ha)
  | clear | clearFrom _ _ _ | take _ => cases ha

/-- An operation of both runs. -/
theorem Agree.step (h : Agree i s t) (hs : Grouped spec s) (ha : a.concerns spec i = true) (hw : a.Wide)
    (hx : policyStep s a = some s') (hx' : policyStep t a = some t') :
    Agree i s' t' ∧ a.result s = a.result t := by
  cases a with
  | put now key chunk tag =>
    cases hx
    cases hx'
    have hwide : chargedBytes chunk < 2 ^ 64 := by
      have : chunk.length < 2 ^ 64 ∧ chunk.capacity < 2 ^ 64 := hw
      unfold chargedBytes
      split
      · exact this.2
      · exact this.1
    exact ⟨h.put (by rw [hs.chosen]; simpa [PolicyAct.concerns] using ha) now hwide tag, rfl⟩
  | get now key tag =>
    cases hx
    cases hx'
    have hi : chooseGroup s.groups key.fname = i := by rw [hs.chosen]; simpa [PolicyAct.concerns] using ha
    obtain ⟨hagree, hres⟩ := h.get hi now tag
    exact ⟨hagree, by rw [PolicyAct.result, PolicyAct.result, hres]⟩
  | delete key =>
    cases hx
    cases hx'
    exact ⟨h.delete (by rw [hs.chosen]; simpa [PolicyAct.concerns] using ha), rfl⟩
  | clear => cases hx; cases hx'; exact ⟨h.clear, rfl⟩
  | clearFrom hash startKey filter => cases hx; cases hx'; exact ⟨h.clearFrom hash hash startKey filter, rfl⟩
  | take hash => cases hx; cases hx'; exact ⟨h.clear, rfl⟩

/-- The run, and what is left of it without the operations on other groups. -/
theorem Agree.run {as : List PolicyAct} (h : Agree i s t) (hs : Grouped spec s) (hw : ∀ a ∈ as, a.Wide)
    (hx : exec policyStep s as = some s') (hx' : exec policyStep t (as.filter (·.concerns spec i)) = some t') :
    Agree i s' t' ∧ groupResults spec i s as = groupResults spec i t (as.filter (·.concerns spec i)) := by
  induction as generalizing s t with
  | nil =>
    cases hx
    cases hx'
    exact ⟨h, rfl⟩
  | cons a as ih =>
    obtain ⟨u, hu, hx⟩ := exec_cons.mp hx
    have hw' : ∀ b ∈ as, b.Wide := fun b hb => hw b (List.mem_cons_of_mem _ hb)
    cases ha : a.concerns spec i with
    | false =>
      rw [List.filter_cons_of_neg (by simp [ha])] at hx' ⊢
      obtain ⟨hagree, hres⟩ := ih (h.step_other hs ha hu) (hs.step hu) hw' hx hx'
      refine ⟨hagree, ?_⟩
      simp [groupResults, ha, hu, hres]
    | true =>
      rw [List.filter_cons_of_pos (by simp [ha])] at hx' ⊢
      obtain ⟨v, hv, hx'⟩ := exec_cons.mp hx'
      obtain ⟨hstep, hsame⟩ := h.step hs ha (hw a (by simp)) hu hv
      obtain ⟨hagree, hres⟩ := ih hstep (hs.step hu) hw' hx hx'
      refine ⟨hagree, ?_⟩
      simp [groupResults, ha, hu, hv, hsame, hres]

end PolicyStorage

/-- **Groups are isolated.** Any spec and any run: group `i` ends in the
state it ends in when the other groups' operations are left out, its `Get`s
return the same, and the group of a path is that of the spec all along. -/
theorem group_isolation (maxBytes timeoutMillisec : Nat) (defaultPolicy : EvictionPolicyKind)
    (spec : List SpecEntry) (s₀ : PolicyStorage)
    (hnew : newPolicyStorage maxBytes timeoutMillisec defaultPolicy spec = .ok s₀) (as : List PolicyAct)
    (hwide : ∀ a ∈ as, a.Wide) (i : Nat) (s t : PolicyStorage) (hs : exec policyStep s₀ as = some s)
    (ht : exec policyStep s₀ (as.filter (·.concerns spec i)) = some t) :
    (s.groups[i]?).map (·.contents s.heap) = (t.groups[i]?).map (·.contents t.heap) ∧
      groupResults spec i s₀ as = groupResults spec i s₀ (as.filter (·.concerns spec i)) ∧
      ∀ fname, (s.groupFor fname).1 = groupOf spec fname ∧ (t.groupFor fname).1 = groupOf spec fname := by
  obtain ⟨hrouted, _, hempty⟩ := PolicyStorage.new_routed hnew
  have hgrouped : PolicyStorage.Grouped spec s₀ := ⟨hrouted, PolicyStorage.chooseGroup_new hnew⟩
  have hstart : PolicyStorage.Agree i s₀ s₀ := by
    refine ⟨hrouted, hrouted, rfl, rfl, fun g hg k e he => ?_, fun g g' hg hg' => ?_⟩
    · have := hempty i k
      rw [PolicyStorage.lookupIn, hg, Option.bind_some, he] at this
      cases this
    · rw [hg] at hg'
      cases hg'
      exact .refl_of_held rfl
  obtain ⟨hagree, hres⟩ := hstart.run hgrouped hwide hs ht
  have hs' := exec_invariant (I := PolicyStorage.Grouped spec) (fun _ _ _ h hx => h.step hx) hs hgrouped
  have ht' := exec_invariant (I := PolicyStorage.Grouped spec) (fun _ _ _ h hx => h.step hx) ht hgrouped
  refine ⟨?_, hres, fun f => ⟨hs'.groupFor f, ht'.groupFor f⟩⟩
  have hlen := congrArg List.length hagree.shapes
  rw [List.length_map, List.length_map] at hlen
  by_cases hi : i < s.groups.length
  · have hg := List.getElem?_eq_getElem hi
    have hg' := List.getElem?_eq_getElem (hlen ▸ hi : i < t.groups.length)
    rw [hg, hg', Option.map_some, Option.map_some, show _ = _ from hagree.alike _ _ hg hg']
  · rw [List.getElem?_eq_none (by omega), List.getElem?_eq_none (by omega)]
    rfl

/-- Blocks of 60 bytes into budgets of 100, one of them for the paths with
"hot" in them, and a clear of all that start at 0. -/
def hotColdActs : List PolicyAct :=
  [.put 0 ⟨"hot", 0, 60⟩ ⟨some [], 60, 60⟩ "v", .put 1 ⟨"cold", 0, 60⟩ ⟨some [], 60, 60⟩ "v",
    .put 2 ⟨"cold", 60, 60⟩ ⟨some [], 60, 60⟩ "v", .get 3 ⟨"hot", 0, 60⟩ "v",
    .clearFrom .inserted ⟨"hot", 0, 60⟩ fun k => k.startOff == 0, .get 4 ⟨"hot", 0, 60⟩ "v",
    .put 5 ⟨"hot", 60, 60⟩ ⟨some [], 60, 60⟩ "v"]

theorem group_isolation_hot :
    ∃ s₀ s t, newPolicyStorage 200 0 .lru [⟨"hot", .clock, 100⟩] = .ok s₀ ∧
      exec policyStep s₀ hotColdActs = some s ∧
      exec policyStep s₀ (hotColdActs.filter (·.concerns [⟨"hot", .clock, 100⟩] 0)) = some t ∧
      s.groups.map (·.evictions) = [0, 1] ∧ t.groups.map (·.evictions) = [0, 0] ∧
      (s.groups[0]?).map (·.contents s.heap) = (t.groups[0]?).map (·.contents t.heap) := by
  obtain ⟨s₀, h₀, hrun, hrun'⟩ : ∃ s₀, newPolicyStorage 200 0 .lru [⟨"hot", .clock, 100⟩] = .ok s₀ ∧
      (exec policyStep s₀ hotColdActs).map (fun s => s.groups.map (·.evictions)) = some [0, 1] ∧
      (exec policyStep s₀ (hotColdActs.filter (·.concerns [⟨"hot", .clock, 100⟩] 0))).map
        (fun s => s.groups.map (·.evictions)) = some [0, 0] :=
    ⟨_, rfl, by decide +kernel, by decide +kernel⟩
  obtain ⟨s, hs, he⟩ := Option.map_eq_some_iff.mp hrun
  obtain ⟨t, ht, he'⟩ := Option.map_eq_some_iff.mp hrun'
  exact ⟨s₀, s, t, h₀, hs, ht, he, he',
    (group_isolation 200 0 .lru [⟨"hot", .clock, 100⟩] s₀ h₀ hotColdActs (by decide) 0 s t hs ht).1⟩

end ReadCacheFs
