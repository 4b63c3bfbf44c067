/-
The accounting of `PolicyDataCacheStorage`.

Three things are kept in step by every operation: the counter
`used_bytes`, the entries, and what the policy tracks (`Group.OK`). With
them in step `EvictToFit` can only end with room: as long as it is over
budget the policy has a victim and the victim has an entry. That is so while
the counter does not wrap; the policy tracks the entries in any case
(`Group.Tracked`).
-/
import ReadCacheFs.Lib.Runs
import ReadCacheFs.PolicyContents

namespace ReadCacheFs

open Lib

theorem entries_perm_erase {α : Type} [DecidableEq α] {β : Type} {m : AList fun _ : α => β} {k : α} {v : β}
    (h : m.lookup k = some v) : m.entries.Perm (⟨k, v⟩ :: (m.erase k).entries) := by
  have hk : k ∈ m.entries.keys := List.mem_keys_of_mem (AList.mem_lookup_iff.mp h)
  obtain ⟨v', l₁, l₂, hn, hl, he⟩ := List.exists_of_kerase hk
  have hv : m.lookup k = some v' := AList.mem_lookup_iff.mpr (by rw [hl]; simp)
  rw [h] at hv
  cases hv
  rw [show (m.erase k).entries = l₁ ++ l₂ from he, hl]
  exact List.perm_middle

namespace Group

/-- The bytes of the entries. -/
def residentBytes (g : Group) : Nat := (g.entries.entries.map (·.2.bytes)).sum

theorem residentBytes_erase {g : Group} {key : InMemCacheBlock} {e : PolicyEntry}
    (h : g.entries.lookup key = some e) :
    g.residentBytes = e.bytes + ((g.entries.erase key).entries.map (·.2.bytes)).sum := by
  rw [residentBytes, ((entries_perm_erase h).map _).sum_nat, List.map_cons, List.sum_cons]

/-- The counter, the entries and the policy are in step. -/
structure Consistent (g : Group) : Prop where
  used : g.usedBytes = g.residentBytes
  policy : g.policy.OK
  tracked : g.policy.keys.Perm g.entries.keys
  lt : g.usedBytes < 2 ^ 64

/-- In step, and within the budget. -/
structure OK (g : Group) : Prop extends Consistent g where
  room : g.bounded = true → g.usedBytes ≤ g.capacityBytes

variable {g : Group} {key : InMemCacheBlock} {e : PolicyEntry}

/-- An entry out of the counter, the entries and the policy at once. -/
theorem Consistent.erase (h : g.Consistent) (he : g.entries.lookup key = some e) {g' : Group}
    (hused : g'.usedBytes = u64Sub g.usedBytes e.bytes) (hentries : g'.entries = g.entries.erase key)
    (hok : g'.policy.OK) (hkeys : g'.policy.keys.Perm (g.policy.keys.erase key)) :
    g'.Consistent ∧ g.usedBytes = g'.usedBytes + e.bytes := by
  have hres := residentBytes_erase he
  have hu := h.used
  have hlt := h.lt
  have hsub : g'.usedBytes = g.usedBytes - e.bytes := by rw [hused, u64Sub_eq (by omega) hlt]
  refine ⟨⟨?_, hok, ?_, by omega⟩, by omega⟩
  · rw [hsub, hu, hres, residentBytes, hentries]
    omega
  · rw [hentries, AList.keys_erase]
    exact hkeys.trans (h.tracked.erase key)

theorem removeEntry_consistent (h : g.Consistent) (he : g.entries.lookup key = some e) :
    (g.removeEntry key e).Consistent ∧ g.usedBytes = (g.removeEntry key e).usedBytes + e.bytes :=
  have hp := EvictionPolicy.onErase_spec h.policy key
  h.erase he rfl rfl hp.1 hp.2

theorem removeEntry_ok (h : g.OK) (he : g.entries.lookup key = some e) : (g.removeEntry key e).OK := by
  obtain ⟨hc, hu⟩ := removeEntry_consistent h.toConsistent he
  refine ⟨hc, fun hb => ?_⟩
  have := h.room hb
  change _ ≤ g.capacityBytes
  omega

theorem removeExisting_ok (h : g.OK) (key : InMemCacheBlock) :
    (g.removeExisting key).OK ∧ (g.removeExisting key).usedBytes ≤ g.usedBytes ∧
      (g.removeExisting key).entries.lookup key = none ∧ SameShape g (g.removeExisting key) := by
  unfold removeExisting
  split
  next e he =>
    have hu := (removeEntry_consistent h.toConsistent he).2
    exact ⟨removeEntry_ok h he, by omega, AList.lookup_erase _ _, ⟨rfl, rfl, rfl⟩⟩
  next he => exact ⟨h, Nat.le_refl _, he, .refl g⟩

/-- What `EvictToFit` does to a group in step: it never meets an empty
policy, a victim without an entry or an underflow, and ends with room. -/
structure Evicted (g : Group) (needed : Nat) (r : Group × EvictReport) : Prop where
  consistent : r.1.Consistent
  room : g.bounded = true → r.1.usedBytes + needed ≤ g.capacityBytes
  used_le : r.1.usedBytes ≤ g.usedBytes
  policyEmpty : r.2.policyEmpty = false
  victimNotFound : r.2.victimNotFound = false
  underflow : r.2.underflow = false

theorem evictToFit_spec (h : g.Consistent) {needed : Nat} (hcap : g.bounded = true → needed ≤ g.capacityBytes)
    (hlt : g.usedBytes + needed < 2 ^ 64) : Evicted g needed (g.evictToFit needed) := by
  fun_induction evictToFit g needed with
  | case1 g hb => exact ⟨h, fun hb' => by simp [hb'] at hb, Nat.le_refl _, rfl, rfl, rfl⟩
  | case2 g hb hfits =>
    rw [u64_eq hlt] at hfits
    exact ⟨h, fun _ => hfits, Nat.le_refl _, rfl, rfl, rfl⟩
  | case3 g hb hover policy hpop =>
    -- An empty policy would mean no entries, so nothing used.
    have hp := (EvictionPolicy.popVictim_spec h.policy).2
    rw [hpop] at hp
    have hnil : g.entries.keys = [] := List.nil_perm.mp (hp ▸ h.tracked)
    have hzero : g.usedBytes = 0 := by
      rw [h.used, residentBytes, List.map_eq_nil_iff.mp hnil]; rfl
    rw [u64_eq hlt] at hover
    have := hcap (by simpa using hb)
    omega
  | case4 g hb hover victim policy hpop hnone =>
    have hp := (EvictionPolicy.popVictim_spec h.policy).2
    rw [hpop] at hp
    have hmem : victim ∈ g.entries.keys := h.tracked.mem_iff.mp (hp.mem_iff.mpr (by simp))
    exact absurd (AList.lookup_eq_none.mp hnone) (by simpa [AList.mem_keys] using hmem)
  | case5 g hb hover victim policy hpop e he g' r hrec ih =>
    obtain ⟨hok, hp⟩ := EvictionPolicy.popVictim_spec h.policy
    rw [hpop] at hok hp
    obtain ⟨hc, hu⟩ := h.erase he (show (g.evictVictim policy victim e).usedBytes = _ from rfl) rfl hok
      (List.cons_perm_iff_perm_erase.mp hp.symm).2
    have hev := ih hc hcap (by omega)
    rw [hrec] at hev
    have hle := hev.used_le
    refine ⟨hev.consistent, hev.room, hle.trans (by omega), hev.policyEmpty, hev.victimNotFound, ?_⟩
    have hund : r.underflow = false := hev.underflow
    have hge : ¬ g.usedBytes < e.bytes := by omega
    simp [hund, hge]

theorem insertEntry_ok (h : g.Consistent) (hnew : g.entries.lookup key = none)
    (hroom : g.bounded = true → g.usedBytes + e.bytes ≤ g.capacityBytes) (hlt : g.usedBytes + e.bytes < 2 ^ 64) :
    (g.insertEntry key e).OK := by
  have hnot : key ∉ g.entries := AList.lookup_eq_none.mp hnew
  have hpk : key ∉ g.policy.keys := fun hm => hnot (AList.mem_keys.mpr (h.tracked.mem_iff.mp hm))
  obtain ⟨hok, hp⟩ := EvictionPolicy.onInsert_spec h.policy key
  rw [if_neg hpk] at hp
  have hused : (g.insertEntry key e).usedBytes = g.usedBytes + e.bytes := u64_eq hlt
  refine ⟨⟨?_, hok, ?_, by omega⟩, fun hb => by rw [hused]; exact hroom hb⟩
  · rw [hused, h.used, residentBytes, residentBytes, insertEntry, AList.entries_insert_of_notMem hnot,
      List.map_cons,
      List.sum_cons, Nat.add_comm]
  · rw [insertEntry, AList.keys_insert, List.erase_of_not_mem (by simpa [AList.mem_keys] using hnot)]
    exact hp.trans (h.tracked.cons key)

theorem clear_ok (g : Group) : g.clear.OK := by
  obtain ⟨hok, hk⟩ := g.policy.clear_spec
  exact ⟨⟨rfl, hok, by rw [clear, hk]; exact .refl _, Nat.two_pow_pos 64⟩, fun _ => Nat.zero_le _⟩

theorem clearMatching_ok (filter : InMemCacheBlock → Bool) :
    ∀ (l : List (Σ _ : InMemCacheBlock, PolicyEntry)) {g : Group}, g.OK → l.NodupKeys →
      (∀ kv ∈ l, g.entries.lookup kv.1 = some kv.2) → (clearMatching filter l g).OK
  | [], g, h, _, _ => h
  | ⟨key, e⟩ :: rest, g, h, hnd, hl => by
    rw [List.nodupKeys_cons] at hnd
    rw [clearMatching]
    split
    · refine clearMatching_ok filter rest (removeEntry_ok h (hl ⟨key, e⟩ (by simp))) hnd.2 fun kv hkv => ?_
      have hk : kv.1 ∈ rest.keys := List.mem_keys_of_mem hkv
      have hne : kv.1 ≠ key := fun he => hnd.1 (he ▸ hk)
      exact lookup_erase_iff.mpr ⟨hne, hl kv (by simp [hkv])⟩
    · exact clearMatching_ok filter rest h hnd.2 (fun kv hkv => hl kv (by simp [hkv]))

/-- A hit or a miss is counted, and a hit changes the order. -/
theorem count_ok (h : g.OK) {policy : EvictionPolicy} (hok : policy.OK) (hp : policy.keys.Perm g.policy.keys)
    (hits misses : Nat) : ({ g with policy, hits, misses } : Group).OK :=
  ⟨⟨h.used, hok, hp.trans h.tracked, h.lt⟩, h.room⟩

/-! ## Counters that wrap -/

/-- The policy tracks the keys of the entries, whatever the counters say. -/
structure Tracked (g : Group) : Prop where
  policy : g.policy.OK
  tracked : g.policy.keys.Perm g.entries.keys

variable {g' : Group}

theorem Tracked.erase (h : g.Tracked) (hentries : g'.entries = g.entries.erase key) (hok : g'.policy.OK)
    (hkeys : g'.policy.keys.Perm (g.policy.keys.erase key)) : g'.Tracked := by
  refine ⟨hok, ?_⟩
  rw [hentries, AList.keys_erase]
  exact hkeys.trans (h.tracked.erase key)

theorem Tracked.removeEntry (h : g.Tracked) (key : InMemCacheBlock) (e : PolicyEntry) :
    (g.removeEntry key e).Tracked :=
  have hp := EvictionPolicy.onErase_spec h.policy key
  h.erase rfl hp.1 hp.2

theorem Tracked.removeExisting (h : g.Tracked) (key : InMemCacheBlock) : (g.removeExisting key).Tracked := by
  unfold Group.removeExisting
  split
  · exact h.removeEntry key _
  · exact h

/-- A policy without a victim has nothing left. -/
theorem popVictim_none {p p' : EvictionPolicy} (h : p.OK) (hpop : p.popVictim = (none, p')) : p'.keys = [] := by
  have hnone := (EvictionPolicy.popVictim_spec h).2
  rw [hpop] at hnone
  have hlist : ∀ {q : ListPolicy} {victim : Option (Nat × InMemCacheBlock)}, (q.pop victim).1 = none →
      (q.pop victim).2 = q := by
    intro q victim hv
    cases victim with
    | none => rfl
    | some x => cases hv
  have hsame : p' = p := by
    cases p with
    | lru q | fifo q | mru q =>
      obtain ⟨hv, rfl⟩ := Prod.mk.inj hpop
      exact congrArg _ (hlist hv)
    | clock q =>
      have hempty : q.ring.isEmpty = true := by
        simpa [EvictionPolicy.keys, NodeList.values, NodeList.isEmpty] using hnone
      simp only [EvictionPolicy.popVictim, ClockPolicy.popVictim, hempty, if_true] at hpop
      cases hpop
      rfl
  exact hsame ▸ hnone

theorem Tracked.evictToFit (h : g.Tracked) (needed : Nat) : (g.evictToFit needed).1.Tracked := by
  fun_induction Group.evictToFit g needed with
  | case1 g hb => exact h
  | case2 g hb hfits => exact h
  | case3 g hb hover policy hpop =>
    obtain ⟨hok, hp⟩ := EvictionPolicy.popVictim_spec h.policy
    rw [hpop] at hok hp
    have hnil : g.entries.keys = [] := List.nil_perm.mp (hp ▸ h.tracked)
    refine ⟨hok, ?_⟩
    change policy.keys.Perm g.entries.keys
    rw [popVictim_none h.policy hpop, hnil]
  | case4 g hb hover victim policy hpop hnone =>
    have hp := (EvictionPolicy.popVictim_spec h.policy).2
    rw [hpop] at hp
    have hmem : victim ∈ g.entries.keys := h.tracked.mem_iff.mp (hp.mem_iff.mpr (by simp))
    exact absurd (AList.lookup_eq_none.mp hnone) (by simpa [AList.mem_keys] using hmem)
  | case5 g hb hover victim policy hpop e he g' r hrec ih =>
    obtain ⟨hok, hp⟩ := EvictionPolicy.popVictim_spec h.policy
    rw [hpop] at hok hp
    have hevicted : (g.evictVictim policy victim e).Tracked :=
      h.erase rfl hok (List.cons_perm_iff_perm_erase.mp hp.symm).2
    have := ih hevicted
    rwa [hrec] at this

theorem Tracked.insertEntry (h : g.Tracked) (hnew : g.entries.lookup key = none) :
    (g.insertEntry key e).Tracked := by
  have hnot : key ∉ g.entries := AList.lookup_eq_none.mp hnew
  have hpk : key ∉ g.policy.keys := fun hm => hnot (AList.mem_keys.mpr (h.tracked.mem_iff.mp hm))
  obtain ⟨hok, hp⟩ := EvictionPolicy.onInsert_spec h.policy key
  rw [if_neg hpk] at hp
  refine ⟨hok, ?_⟩
  rw [Group.insertEntry, AList.keys_insert, List.erase_of_not_mem (by simpa [AList.mem_keys] using hnot)]
  exact hp.trans (h.tracked.cons key)

/-- A lookup counted; the policy may have noted it. -/
theorem Tracked.count (h : g.Tracked) {policy : EvictionPolicy} (hok : policy.OK)
    (hp : policy.keys.Perm g.policy.keys) (hits misses : Nat) :
    ({ g with policy, hits, misses } : Group).Tracked := ⟨hok, hp.trans h.tracked⟩

end Group

/-! ## The storage -/

namespace PolicyStorage

/-- The bytes of all entries. -/
def residentBytes (s : PolicyStorage) : Nat := (s.groups.map Group.residentBytes).sum

/-- Every group is in order, and every entry is where it is looked for. -/
structure OK (s : PolicyStorage) : Prop extends Routed s where
  groups : ∀ g ∈ s.groups, g.OK
  bounded : ∀ g ∈ s.groups, g.bounded = decide (0 < s.maxBytes)

variable {s s' : PolicyStorage}

theorem groupFor_ok (h : s.OK) (fname : String) : (s.groupFor fname).2.OK := by
  refine ⟨(groupFor_moves s fname).routed h.toRouted, ?_, ?_⟩
  · rw [groupFor_eq]
    exact h.groups
  · rw [groupFor_eq]
    exact h.bounded

/-- One group changed: still in order and of the same shape. -/
theorem OK.set (h : s.OK) {i : Nat} {g g' : Group} (hg : s.groups[i]? = some g) (hok : g'.OK)
    (hshape : Group.SameShape g g') (hr : s'.Routed) (hs : s'.groups = s.groups.set i g')
    (hmax : s'.maxBytes = s.maxBytes) : s'.OK := by
  refine ⟨hr, fun x hx => ?_, fun x hx => ?_⟩
  · rw [hs] at hx
    rcases List.mem_or_eq_of_mem_set hx with hx | rfl
    · exact h.groups x hx
    · exact hok
  · rw [hs] at hx
    rw [hmax]
    rcases List.mem_or_eq_of_mem_set hx with hx | rfl
    · exact h.bounded x hx
    · exact hshape.bounded.trans (h.bounded g (List.mem_of_getElem? hg))

theorem residentBytes_le {i : Nat} {g : Group} (hg : s.groups[i]? = some g) :
    g.residentBytes ≤ s.residentBytes := by
  obtain ⟨l₁, l₂, hl⟩ := List.append_of_mem (List.mem_of_getElem? hg)
  simp only [residentBytes, hl, List.map_append, List.map_cons, List.sum_append, List.sum_cons]
  omega

/-- What the three steps of `Put` do to the group of the key. -/
theorem put_evicted (h : s.OK) (key : InMemCacheBlock) {i : Nat} {g : Group} (hg : s.groups[i]? = some g)
    {bytes : Nat} (hcap : g.bounded = true → bytes ≤ g.capacityBytes)
    (hfit : s.residentBytes + bytes < 2 ^ 64) :
    Group.Evicted (g.removeExisting key) bytes ((g.removeExisting key).evictToFit bytes) ∧
      (g.removeExisting key).usedBytes + bytes < 2 ^ 64 := by
  have hok := h.groups g (List.mem_of_getElem? hg)
  obtain ⟨hrem, hle, _, hsh⟩ := Group.removeExisting_ok hok key
  have hres := residentBytes_le hg
  have hu := hok.used
  have hlt : (g.removeExisting key).usedBytes + bytes < 2 ^ 64 := by omega
  refine ⟨Group.evictToFit_spec hrem.toConsistent (fun hb => ?_) hlt, hlt⟩
  rw [hsh.capacityBytes]
  exact hcap (hsh.bounded ▸ hb)

theorem put_ok (h : s.OK) (now : Nat) (key : InMemCacheBlock) (chunk : PageAlignedDataChunk) (versionTag : String)
    (hfit : s.residentBytes + chargedBytes chunk < 2 ^ 64) : (s.put now key chunk versionTag).OK := by
  obtain ⟨_, hmove, _⟩ := put_moves h.toRouted now key chunk versionTag
  obtain ⟨g, hg, ⟨_, _, he⟩ | ⟨hcap, he⟩⟩ := put_cases h.toRouted now key chunk versionTag
  · rw [he]
    exact groupFor_ok h key.fname
  · obtain ⟨hev, hlt⟩ := put_evicted h key hg hcap hfit
    have hrem := Group.removeExisting_shape g key
    have hshape := hrem.trans (Group.evictToFit_shape (g.removeExisting key) (chargedBytes chunk))
    have hnone : ((g.removeExisting key).evictToFit (chargedBytes chunk)).1.entries.lookup key = none :=
      Option.eq_none_iff_forall_ne_some.mpr fun e hl =>
        (Group.removeExisting_lookup (Group.evictToFit_lookup hl)).1 rfl
    have hle := hev.used_le
    refine h.set hg (Group.insertEntry_ok hev.consistent hnone (fun hb => ?_) ?_)
      ⟨hshape.pattern, hshape.bounded, hshape.capacityBytes⟩ (hmove.routed h.toRouted) (by rw [he, groupFor_eq])
      (by rw [he, groupFor_eq])
    · rw [hshape.capacityBytes, ← hrem.capacityBytes]
      exact hev.room (by rw [hrem.bounded, ← hshape.bounded]; exact hb)
    · dsimp only
      omega

theorem get_ok (h : s.OK) (now : Nat) (key : InMemCacheBlock) (tag : String) : (s.get now key tag).2.OK := by
  have hr := (get_moves h.toRouted now key tag).routed h.toRouted
  obtain ⟨g, hg, ⟨_, he⟩ | ⟨e, d, hl, _, ⟨_, he⟩ | ⟨_, _, he⟩⟩⟩ := get_cases h.toRouted now key tag
  all_goals have hok := h.groups g (List.mem_of_getElem? hg)
  · exact h.set hg (Group.count_ok hok hok.policy (.refl _) g.hits (u64 (g.misses + 1))) ⟨rfl, rfl, rfl⟩ hr
      (by rw [he, groupFor_eq]) (by rw [he, groupFor_eq])
  · have hrem := Group.removeEntry_ok hok hl
    exact h.set hg (Group.count_ok hrem hrem.policy (.refl _) g.hits (u64 (g.misses + 1))) ⟨rfl, rfl, rfl⟩ hr
      (by rw [he, groupFor_eq]; rfl) (by rw [he, groupFor_eq])
  · have hhit := EvictionPolicy.onHit_spec hok.policy key
    exact h.set hg (Group.count_ok hok hhit.1 hhit.2 (u64 (g.hits + 1)) g.misses) ⟨rfl, rfl, rfl⟩ hr
      (by rw [he, groupFor_eq]) (by rw [he, groupFor_eq])

theorem delete_ok (h : s.OK) (key : InMemCacheBlock) : (s.delete key).2.OK := by
  obtain ⟨g, hg, ⟨_, he⟩ | ⟨e, hl, he⟩⟩ := delete_cases h.toRouted key
  · rw [he]
    exact groupFor_ok h key.fname
  · exact h.set hg (Group.removeEntry_ok (h.groups g (List.mem_of_getElem? hg)) hl) ⟨rfl, rfl, rfl⟩
      ((delete_moves h.toRouted key).routed h.toRouted) (by rw [he, groupFor_eq]) (by rw [he, groupFor_eq])

/-- Every group changed in the same way. -/
theorem OK.map (h : s.OK) {f : Group → Group} (hf : ∀ g, g.OK → (f g).OK ∧ (f g).bounded = g.bounded)
    (hr : ({ s with groups := s.groups.map f } : PolicyStorage).Routed) :
    ({ s with groups := s.groups.map f } : PolicyStorage).OK := by
  refine ⟨hr, fun x hx => ?_, fun x hx => ?_⟩
  · obtain ⟨g, hg, rfl⟩ := List.mem_map.mp hx
    exact (hf g (h.groups g hg)).1
  · obtain ⟨g, hg, rfl⟩ := List.mem_map.mp hx
    exact (hf g (h.groups g hg)).2.trans (h.bounded g hg)

theorem clear_ok (h : s.OK) : s.clear.OK :=
  h.map (fun g _ => ⟨Group.clear_ok g, rfl⟩) ((clear_moves s).routed h.toRouted)

theorem clearFrom_ok (h : s.OK) (hash : HashOrder (Σ _ : InMemCacheBlock, PolicyEntry))
    (startKey : InMemCacheBlock) (filter : InMemCacheBlock → Bool) : (s.clearFrom hash startKey filter).OK :=
  by
  refine h.map (fun g hg => ⟨?_, (Group.clearMatching_shape filter _ g).bounded⟩)
    ((clearFrom_moves s hash startKey filter).routed h.toRouted)
  have hp := hash.perm g.entries.entries
  exact Group.clearMatching_ok filter _ hg ((List.perm_nodupKeys hp).mpr g.entries.nodupKeys)
    fun kv hkv => AList.mem_lookup_iff.mpr (hp.mem_iff.mp hkv)

theorem new_ok {maxBytes timeoutMillisec : Nat} {defaultPolicy : EvictionPolicyKind} {spec : List SpecEntry}
    (h : newPolicyStorage maxBytes timeoutMillisec defaultPolicy spec = .ok s) :
    s.OK ∧ s.maxBytes = maxBytes := by
  have hempty : ∀ (name pattern : String) (kind : EvictionPolicyKind) (bounded : Bool) (capacityBytes : Nat),
      ({ name, pattern, policy := createEvictionPolicy kind, bounded, capacityBytes } : Group).OK := by
    intro name pattern kind bounded capacityBytes
    obtain ⟨hok, hk⟩ := EvictionPolicy.create_spec kind
    exact ⟨⟨rfl, hok, by rw [hk]; exact .refl _, Nat.two_pow_pos 64⟩, fun _ => Nat.zero_le _⟩
  have hr := (new_routed h).1
  simp only [newPolicyStorage] at h
  split at h
  · cases h
  · cases h
    refine ⟨⟨hr, fun g hg => ?_, fun g hg => ?_⟩, rfl⟩
    · rcases List.mem_append.mp hg with hg | hg
      · obtain ⟨e, _, rfl⟩ := List.mem_map.mp hg
        exact hempty _ _ _ _ _
      · obtain rfl := List.mem_singleton.mp hg
        exact hempty _ _ _ _ _
    · rcases List.mem_append.mp hg with hg | hg
      · obtain ⟨e, _, rfl⟩ := List.mem_map.mp hg; rfl
      · obtain rfl := List.mem_singleton.mp hg; rfl

/-- In every group the policy tracks the entries. -/
structure Tracked (s : PolicyStorage) : Prop extends Routed s where
  groups : ∀ g ∈ s.groups, g.Tracked

theorem Tracked.setGroup (h : s.Tracked) (hr : s'.Routed) {i : Nat} {g : Group} (hg : g.Tracked)
    (hs : s'.groups = s.groups.set i g) : s'.Tracked := by
  refine ⟨hr, fun x hx => ?_⟩
  rw [hs] at hx
  rcases List.mem_or_eq_of_mem_set hx with hx | rfl
  · exact h.groups x hx
  · exact hg

theorem Tracked.groupFor (h : s.Tracked) (fname : String) : (s.groupFor fname).2.Tracked := by
  refine ⟨(groupFor_moves s fname).routed h.toRouted, ?_⟩
  rw [groupFor_eq]
  exact h.groups

theorem Tracked.put (h : s.Tracked) (now : Nat) (key : InMemCacheBlock) (chunk : PageAlignedDataChunk)
    (tag : String) :
    (s.put now key chunk tag).Tracked := by
  obtain ⟨_, hmove, _⟩ := put_moves h.toRouted now key chunk tag
  obtain ⟨g, hg, ⟨_, _, he⟩ | ⟨_, he⟩⟩ := put_cases h.toRouted now key chunk tag
  · rw [he]
    exact h.groupFor key.fname
  · have hroom := ((h.groups g (List.mem_of_getElem? hg)).removeExisting key).evictToFit (chargedBytes chunk)
    have hnone : ((g.removeExisting key).evictToFit (chargedBytes chunk)).1.entries.lookup key = none :=
      Option.eq_none_iff_forall_ne_some.mpr fun e hl =>
        (Group.removeExisting_lookup (Group.evictToFit_lookup hl)).1 rfl
    exact h.setGroup (hmove.routed h.toRouted) (hroom.insertEntry hnone) (by rw [he, groupFor_eq])

theorem Tracked.get (h : s.Tracked) (now : Nat) (key : InMemCacheBlock) (tag : String) :
    (s.get now key tag).2.Tracked := by
  have hr := (get_moves h.toRouted now key tag).routed h.toRouted
  obtain ⟨g, hg, ⟨_, he⟩ | ⟨e, d, _, _, ⟨_, he⟩ | ⟨_, _, he⟩⟩⟩ := get_cases h.toRouted now key tag
  all_goals have htracked := h.groups g (List.mem_of_getElem? hg)
  · exact h.setGroup hr (htracked.count htracked.policy (.refl _) g.hits (u64 (g.misses + 1)))
      (by rw [he, groupFor_eq])
  · have hrem := htracked.removeEntry key e
    exact h.setGroup hr (hrem.count hrem.policy (.refl _) g.hits (u64 (g.misses + 1)))
      (by rw [he, groupFor_eq]; rfl)
  · have hhit := EvictionPolicy.onHit_spec htracked.policy key
    exact h.setGroup hr (htracked.count hhit.1 hhit.2 (u64 (g.hits + 1)) g.misses) (by rw [he, groupFor_eq])

theorem new_tracked {maxBytes timeoutMillisec : Nat} {defaultPolicy : EvictionPolicyKind} {spec : List SpecEntry}
    (h : newPolicyStorage maxBytes timeoutMillisec defaultPolicy spec = .ok s) : s.Tracked := by
  obtain ⟨hok, -⟩ := new_ok h
  exact ⟨hok.toRouted, fun g hg => ⟨(hok.groups g hg).policy, (hok.groups g hg).tracked⟩⟩

end PolicyStorage

/-! ## Runs -/

inductive PolicyAct
  | put (now : Nat) (key : InMemCacheBlock) (chunk : PageAlignedDataChunk) (versionTag : String)
  | get (now : Nat) (key : InMemCacheBlock) (expectedVersionTag : String)
  | delete (key : InMemCacheBlock)
  | clear
  | clearFrom (hash : HashOrder (Σ _ : InMemCacheBlock, PolicyEntry)) (startKey : InMemCacheBlock)
      (filter : InMemCacheBlock → Bool)
  | take (hash : HashOrder (Σ _ : InMemCacheBlock, PolicyEntry))

def policyStep (s : PolicyStorage) : PolicyAct → Option PolicyStorage
  | .put now key chunk versionTag => some (s.put now key chunk versionTag)
  | .get now key tag => some (s.get now key tag).2
  | .delete key => some (s.delete key).2
  | .clear => some s.clear
  | .clearFrom hash startKey filter => some (s.clearFrom hash startKey filter)
  | .take hash => some (s.take hash).2

namespace PolicyStorage

theorem policyStep_total (s : PolicyStorage) (a : PolicyAct) : ∃ s', policyStep s a = some s' := by
  cases a <;> exact ⟨_, rfl⟩

theorem exec_total (s : PolicyStorage) (as : List PolicyAct) : ∃ s', exec policyStep s as = some s' := by
  induction as generalizing s with
  | nil => exact ⟨s, rfl⟩
  | cons a as ih =>
    obtain ⟨t, ht⟩ := policyStep_total s a
    obtain ⟨s', hs'⟩ := ih t
    exact ⟨s', exec_cons.mpr ⟨t, ht, hs'⟩⟩

end PolicyStorage

/-- All that is resident, with the block being put, is less than `2^64` bytes. -/
def FitsMemory (s : PolicyStorage) : PolicyAct → Prop
  | .put _ _ chunk _ => s.residentBytes + chargedBytes chunk < 2 ^ 64
  | _ => True

instance (s : PolicyStorage) (a : PolicyAct) : Decidable (FitsMemory s a) :=
  match a with
  | .put .. => inferInstanceAs (Decidable (_ < _))
  | .get .. | .delete _ | .clear | .clearFrom .. | .take _ => .isTrue trivial

theorem policyStep_ok {s s' : PolicyStorage} {a : PolicyAct} (h : s.OK) (hg : FitsMemory s a)
    (hs : policyStep s a = some s') : s'.OK := by
  cases a with
  | put now key chunk tag => cases hs; exact PolicyStorage.put_ok h now key chunk tag hg
  | get now key tag => cases hs; exact PolicyStorage.get_ok h now key tag
  | delete key => cases hs; exact PolicyStorage.delete_ok h key
  | clear => cases hs; exact PolicyStorage.clear_ok h
  | clearFrom hash startKey filter => cases hs; exact PolicyStorage.clearFrom_ok h hash startKey filter
  | take hash => cases hs; exact PolicyStorage.clear_ok h

theorem policyStep_maxBytes {s s' : PolicyStorage} {a : PolicyAct} (hs : policyStep s a = some s') :
    s'.maxBytes = s.maxBytes := by
  have hgf : ∀ f, (s.groupFor f).2.maxBytes = s.maxBytes := fun f => by rw [PolicyStorage.groupFor_eq]
  cases a with
  | put now key chunk tag =>
    cases hs
    rw [← hgf key.fname]
    simp only [PolicyStorage.put]
    repeat' split
    all_goals rfl
  | get now key tag =>
    cases hs
    rw [← hgf key.fname]
    simp only [PolicyStorage.get]
    repeat' split
    all_goals rfl
  | delete key =>
    cases hs
    rw [← hgf key.fname]
    simp only [PolicyStorage.delete]
    repeat' split
    all_goals rfl
  | clear => cases hs; rfl
  | clearFrom hash startKey filter => cases hs; rfl
  | take hash => cases hs; rfl

namespace PolicyStorage

/-- The representation invariant, and what it makes of `EvictToFit`. -/
structure Representation (s : PolicyStorage) : Prop where
  /-- `used_bytes` is the sum of the bytes of the entries. -/
  used : ∀ g ∈ s.groups, g.usedBytes = g.residentBytes
  /-- The policy tracks exactly the keys of the entries, each once. -/
  tracked : ∀ g ∈ s.groups, g.policy.keys.Nodup ∧ ∀ k, k ∈ g.policy.keys ↔ k ∈ g.entries
  within : ∀ g ∈ s.groups, g.usedBytes ≤ g.capacityBytes
  /-- A resident key is in the group `GroupFor` assigns to its file and in no other. -/
  placed : ∀ (i : Nat) g, s.groups[i]? = some g → ∀ k ∈ g.entries,
    (s.groupFor k.fname).1 = i ∧ ∀ (j : Nat) g', s.groups[j]? = some g' → k ∈ g'.entries → j = i
  /-- Called from `Put`, `EvictToFit` finds a victim with an entry whenever
  it is over budget, does not underflow, and ends with room. -/
  evicts : ∀ (key : InMemCacheBlock) (chunk : PageAlignedDataChunk), s.residentBytes + chargedBytes chunk < 2 ^ 64 →
    ∃ g, s.groups[(s.groupFor key.fname).1]? = some g ∧ (chargedBytes chunk ≤ g.capacityBytes →
      let r := (g.removeExisting key).evictToFit (chargedBytes chunk)
      r.2.policyEmpty = false ∧ r.2.victimNotFound = false ∧ r.2.underflow = false ∧
        r.1.usedBytes + chargedBytes chunk ≤ r.1.capacityBytes)

theorem OK.representation {s : PolicyStorage} (h : s.OK) (hpos : 0 < s.maxBytes) : s.Representation := by
  have hb : ∀ g ∈ s.groups, g.bounded = true := fun g hg => (h.bounded g hg).trans (by simpa using hpos)
  refine ⟨fun g hg => (h.groups g hg).used, fun g hg => ?_, fun g hg => (h.groups g hg).room (hb g hg),
    fun i g hg k hk => ?_, fun key chunk hfit => ?_⟩
  · have ht := (h.groups g hg).tracked
    exact ⟨ht.nodup_iff.mpr g.entries.keys_nodup, fun k => by rw [AList.mem_keys, ht.mem_iff]⟩
  · have hplaced : ∀ (j : Nat) g', s.groups[j]? = some g' → k ∈ g'.entries →
        chooseGroup s.groups k.fname = j := by
      intro j g' hg' hk'
      obtain ⟨e, he⟩ := Option.isSome_iff_exists.mp (AList.lookup_isSome.mpr hk')
      exact h.placed j k e (by rw [lookupIn, hg']; exact he)
    rw [groupFor_fst h.toRouted]
    exact ⟨hplaced i g hg hk, fun j g' hg' hk' => (hplaced j g' hg' hk').symm.trans (hplaced i g hg hk)⟩
  · have hlt : (s.groupFor key.fname).1 < s.groups.length := by
      rw [groupFor_fst h.toRouted]
      exact chooseGroup_lt h.nonempty _
    have hg : s.groups[(s.groupFor key.fname).1]? = some (s.groups.get ⟨_, hlt⟩) := List.getElem?_eq_getElem hlt
    refine ⟨_, hg, fun hcap => ?_⟩
    have hsh := (Group.removeExisting_ok (h.groups _ (List.mem_of_getElem? hg)) key).2.2.2
    have hev := (put_evicted h key hg (fun _ => hcap) hfit).1
    refine ⟨hev.policyEmpty, hev.victimNotFound, hev.underflow, ?_⟩
    rw [(Group.evictToFit_shape _ _).capacityBytes]
    exact hev.room (hsh.bounded.trans (hb _ (List.mem_of_getElem? hg)))

end PolicyStorage

/-- **The accounting holds in every run.** Any budget, any policies, any
groups, any operations: the counters, the entries and the policies stay in
step. -/
theorem policyStorage_representation (maxBytes timeoutMillisec : Nat) (defaultPolicy : EvictionPolicyKind)
    (spec : List SpecEntry) (s₀ : PolicyStorage) (hpos : 0 < maxBytes)
    (hnew : newPolicyStorage maxBytes timeoutMillisec defaultPolicy spec = .ok s₀) (as : List PolicyAct)
    (s : PolicyStorage) (hx : exec policyStep s₀ as = some s) (hfit : Guarded policyStep FitsMemory s₀ as) :
    s.Representation := by
  obtain ⟨h₀, hmax⟩ := PolicyStorage.new_ok hnew
  have h : s.OK ∧ s.maxBytes = maxBytes :=
    exec_guarded_invariant (I := fun s => s.OK ∧ s.maxBytes = maxBytes)
      (fun _ _ _ hi hg hs => ⟨policyStep_ok hi.1 hg hs, (policyStep_maxBytes hs).trans hi.2⟩) hfit hx ⟨h₀, hmax⟩
  exact h.1.representation (h.2 ▸ hpos)

/-- Three blocks of 40 bytes into a budget of 100, with a hit in between. -/
def evictingActs : List PolicyAct :=
  [.put 0 ⟨"f", 0, 40⟩ ⟨some [], 40, 40⟩ "v", .put 1 ⟨"f", 40, 40⟩ ⟨some [], 40, 40⟩ "v", .get 2 ⟨"f", 0, 40⟩ "v",
    .put 3 ⟨"f", 80, 40⟩ ⟨some [], 40, 40⟩ "v"]

theorem policyStorage_representation_evicting :
    ∃ s₀ s, newPolicyStorage 100 0 .clock [] = .ok s₀ ∧ exec policyStep s₀ evictingActs = some s ∧
      s.groups.map (·.evictions) = [1] ∧ s.Representation := by
  obtain ⟨s₀, h₀, hrun, hfit⟩ : ∃ s₀, newPolicyStorage 100 0 .clock [] = .ok s₀ ∧
      (exec policyStep s₀ evictingActs).map (fun s => s.groups.map (·.evictions)) = some [1] ∧
      Guarded policyStep FitsMemory s₀ evictingActs :=
    ⟨_, rfl, by decide +kernel, by decide +kernel⟩
  obtain ⟨s, hs, he⟩ := Option.map_eq_some_iff.mp hrun
  exact ⟨s₀, s, h₀, hs, he, policyStorage_representation 100 0 .clock [] s₀ (by decide) h₀ evictingActs s hs hfit⟩

end ReadCacheFs
