/-
`PolicyDataCacheStorage::GetStats`: what the counters of a group say about
its past.

Nothing but the group's own operations moves its counters, and they are kept
as books are (`Ledger`): what has been admitted covers what is used and what
was evicted, the hits and the misses are the `Get`s, and every entry, held
or evicted, lies between the smallest and the largest admitted.

`min_entry_bytes` has no entry yet where it is zero, so this is of entries
that take up space.
-/
import Mathlib.Algebra.Order.BigOperators.Group.List
import Mathlib.Algebra.Order.Group.Nat
import ReadCacheFs.GroupIsolation

namespace ReadCacheFs

open Lib

structure PolicyGroupStats where
  group : String
  policy : String
  capacityBytes : Nat
  usedBytes : Nat
  entryCount : Nat
  hits : Nat
  misses : Nat
  evictions : Nat
  bytesAdmitted : Nat
  bytesEvicted : Nat
  minEntryBytes : Nat
  maxEntryBytes : Nat
  deriving DecidableEq, Repr

def Group.stats (g : Group) : PolicyGroupStats :=
  { group := g.name, policy := g.policy.getName, capacityBytes := g.capacityBytes, usedBytes := g.usedBytes
    entryCount := g.entries.entries.length, hits := g.hits, misses := g.misses, evictions := g.evictions
    bytesAdmitted := g.bytesAdmitted, bytesEvicted := g.bytesEvicted, minEntryBytes := g.minEntryBytes
    maxEntryBytes := g.maxEntryBytes }

def PolicyStorage.getStats (s : PolicyStorage) : List PolicyGroupStats := s.groups.map Group.stats

/-! ## The books of a group -/

namespace Group

/-- After `hits` hits, `misses` misses and `Put`s of `put` bytes. -/
structure Ledger (hits misses put : Nat) (g : Group) : Prop where
  hits : g.hits = hits
  misses : g.misses = misses
  balance : g.usedBytes + g.bytesEvicted ≤ g.bytesAdmitted
  put : g.bytesAdmitted ≤ put
  sized : ∀ k e, g.entries.lookup k = some e → 0 < e.bytes ∧ g.minEntryBytes ≤ e.bytes ∧ e.bytes ≤ g.maxEntryBytes
  evicted_ge : g.minEntryBytes * g.evictions ≤ g.bytesEvicted
  evicted_le : g.bytesEvicted ≤ g.maxEntryBytes * g.evictions
  unset : g.minEntryBytes = 0 → g.evictions = 0 ∧ ∀ k, g.entries.lookup k = none

variable {hits misses put : Nat} {g : Group} {key : InMemCacheBlock} {e : PolicyEntry}

/-- Entries that go otherwise than by an eviction. -/
theorem Ledger.shrink (h : g.Ledger hits misses put) (policy : EvictionPolicy) {usedBytes : Nat}
    {entries : PolicyEntries} (hused : usedBytes ≤ g.usedBytes)
    (hentries : ∀ k e, entries.lookup k = some e → g.entries.lookup k = some e) :
    ({ g with policy, usedBytes, entries } : Group).Ledger hits misses put where
  hits := h.hits
  misses := h.misses
  balance := (Nat.add_le_add_right hused _).trans h.balance
  put := h.put
  sized k e he := h.sized k e (hentries k e he)
  evicted_ge := h.evicted_ge
  evicted_le := h.evicted_le
  unset hmin := by
    refine ⟨(h.unset hmin).1, fun k => Option.eq_none_iff_forall_ne_some.mpr fun e he => ?_⟩
    have hold := hentries k e he
    rw [(h.unset hmin).2 k] at hold
    cases hold

theorem Ledger.removeEntry (h : g.Ledger hits misses put) (hc : g.Consistent)
    (he : g.entries.lookup key = some e) :
    (g.removeEntry key e).Ledger hits misses put := by
  have hused := (removeEntry_consistent hc he).2
  have hle : (g.removeEntry key e).usedBytes ≤ g.usedBytes := by omega
  exact h.shrink (g.policy.onErase key) hle fun k x hx => (lookup_erase_iff.mp hx).2

theorem Ledger.removeExisting (h : g.Ledger hits misses put) (hc : g.Consistent) (key : InMemCacheBlock) :
    (g.removeExisting key).Ledger hits misses put := by
  unfold Group.removeExisting
  split
  next e he => exact h.removeEntry hc he
  next => exact h

/-- A victim's bytes change columns. -/
theorem Ledger.evictVictim (h : g.Ledger hits misses put) (hput : put < 2 ^ 64) (policy : EvictionPolicy)
    (he : g.entries.lookup key = some e)
    (hused : g.usedBytes = (g.evictVictim policy key e).usedBytes + e.bytes) :
    (g.evictVictim policy key e).Ledger hits misses put := by
  obtain ⟨hpos, hmin, hmax⟩ := h.sized key e he
  have hbalance := h.balance
  have hle := h.put
  have hset : g.minEntryBytes ≠ 0 := by
    intro h0
    rw [(h.unset h0).2 key] at he
    cases he
  have hge := h.evicted_ge
  have hcount : g.evictions ≤ g.bytesEvicted :=
    (Nat.le_mul_of_pos_left _ (Nat.pos_of_ne_zero hset)).trans hge
  have hbytes : (g.evictVictim policy key e).bytesEvicted = g.bytesEvicted + e.bytes := u64_eq (by omega)
  have hevictions : (g.evictVictim policy key e).evictions = g.evictions + 1 := u64_eq (by omega)
  refine ⟨h.hits, h.misses, ?_, h.put, fun k x hx => h.sized k x (lookup_erase_iff.mp hx).2, ?_, ?_,
    fun h0 => absurd h0 hset⟩
  · rw [hbytes]
    change _ ≤ g.bytesAdmitted
    omega
  · rw [hbytes, hevictions]
    change g.minEntryBytes * (g.evictions + 1) ≤ _
    rw [Nat.mul_add_one]
    omega
  · rw [hbytes, hevictions]
    change _ ≤ g.maxEntryBytes * (g.evictions + 1)
    have hevicted := h.evicted_le
    rw [Nat.mul_add_one]
    omega

theorem Ledger.evictToFit (h : g.Ledger hits misses put) (hput : put < 2 ^ 64) (hc : g.Consistent)
    (needed : Nat) :
    (g.evictToFit needed).1.Ledger hits misses put := by
  fun_induction Group.evictToFit g needed with
  | case1 => exact h
  | case2 => exact h
  | case3 => exact h.shrink _ (Nat.le_refl _) fun _ _ he => he
  | case4 g hb hover victim policy hpop hnone =>
    -- The policy tracks entries only.
    have hp := (EvictionPolicy.popVictim_spec hc.policy).2
    rw [hpop] at hp
    have hmem : victim ∈ g.entries.keys := hc.tracked.mem_iff.mp (hp.mem_iff.mpr (by simp))
    exact absurd (AList.lookup_eq_none.mp hnone) (by simpa [AList.mem_keys] using hmem)
  | case5 g hb hover victim policy hpop e he g' r hrec ih =>
    obtain ⟨hok, hp⟩ := EvictionPolicy.popVictim_spec hc.policy
    rw [hpop] at hok hp
    obtain ⟨hc', hused⟩ := hc.erase he (show (g.evictVictim policy victim e).usedBytes = _ from rfl) rfl hok
      (List.cons_perm_iff_perm_erase.mp hp.symm).2
    have hrest := ih (h.evictVictim hput policy he hused) hc'
    rw [hrec] at hrest
    exact hrest

/-- A new entry is admitted and used. -/
theorem Ledger.insertEntry (h : g.Ledger hits misses put) (hpos : 0 < e.bytes)
    (hfit : g.usedBytes + e.bytes < 2 ^ 64) (hput : put + e.bytes < 2 ^ 64) :
    (g.insertEntry key e).Ledger hits misses (put + e.bytes) := by
  have hbalance := h.balance
  have hle := h.put
  have hused : (g.insertEntry key e).usedBytes = g.usedBytes + e.bytes := u64_eq hfit
  have hadmitted : (g.insertEntry key e).bytesAdmitted = g.bytesAdmitted + e.bytes := u64_eq (by omega)
  have hmin : (g.insertEntry key e).minEntryBytes ≤ e.bytes ∧
      (g.minEntryBytes ≠ 0 → (g.insertEntry key e).minEntryBytes ≤ g.minEntryBytes) ∧
        (g.insertEntry key e).minEntryBytes ≠ 0 := by
    simp only [Group.insertEntry]
    split <;> omega
  have hmax : g.maxEntryBytes ≤ (g.insertEntry key e).maxEntryBytes ∧
      e.bytes ≤ (g.insertEntry key e).maxEntryBytes :=
    ⟨Nat.le_max_left _ _, Nat.le_max_right _ _⟩
  refine ⟨h.hits, h.misses, ?_, by omega, fun k x hx => ?_, ?_, ?_, fun h0 => absurd h0 hmin.2.2⟩
  · rw [hused, hadmitted]
    change _ + g.bytesEvicted ≤ _
    omega
  · by_cases hk : k = key
    · subst hk
      rw [Group.insertEntry, AList.lookup_insert] at hx
      cases hx
      exact ⟨hpos, hmin.1, hmax.2⟩
    · rw [Group.insertEntry, AList.lookup_insert_ne hk] at hx
      obtain ⟨hx0, hx1, hx2⟩ := h.sized k x hx
      have hset : g.minEntryBytes ≠ 0 := by
        intro h0
        rw [(h.unset h0).2 k] at hx
        cases hx
      exact ⟨hx0, (hmin.2.1 hset).trans hx1, hx2.trans hmax.1⟩
  · change _ * g.evictions ≤ g.bytesEvicted
    by_cases h0 : g.minEntryBytes = 0
    · rw [(h.unset h0).1]
      exact Nat.zero_le _
    · exact (Nat.mul_le_mul_right _ (hmin.2.1 h0)).trans h.evicted_ge
  · change g.bytesEvicted ≤ _ * g.evictions
    exact h.evicted_le.trans (Nat.mul_le_mul_right _ hmax.1)

theorem Ledger.clear (h : g.Ledger hits misses put) : g.clear.Ledger hits misses put :=
  h.shrink g.policy.clear (Nat.zero_le _) fun k e he => by simp at he

theorem Ledger.clearMatching (filter : InMemCacheBlock → Bool) :
    ∀ (l : List (Σ _ : InMemCacheBlock, PolicyEntry)) {g : Group}, g.Ledger hits misses put → g.OK → l.NodupKeys →
      (∀ kv ∈ l, g.entries.lookup kv.1 = some kv.2) → (Group.clearMatching filter l g).Ledger hits misses put
  | [], g, h, _, _, _ => h
  | ⟨key, e⟩ :: rest, g, h, hok, hnd, hl => by
    rw [List.nodupKeys_cons] at hnd
    rw [Group.clearMatching]
    split
    · have he := hl ⟨key, e⟩ (by simp)
      refine Ledger.clearMatching filter rest (h.removeEntry hok.toConsistent he) (removeEntry_ok hok he) hnd.2
        fun kv hkv => ?_
      have hk : kv.1 ∈ rest.keys := List.mem_keys_of_mem hkv
      have hne : kv.1 ≠ key := fun he => hnd.1 (he ▸ hk)
      exact lookup_erase_iff.mpr ⟨hne, hl kv (by simp [hkv])⟩
    · exact Ledger.clearMatching filter rest h hok hnd.2 fun kv hkv => hl kv (by simp [hkv])

theorem Ledger.miss (h : g.Ledger hits misses put) (hlt : misses + 1 < 2 ^ 64) :
    ({ g with misses := u64 (g.misses + 1) } : Group).Ledger hits (misses + 1) put := by
  refine ⟨h.hits, ?_, h.balance, h.put, h.sized, h.evicted_ge, h.evicted_le, h.unset⟩
  dsimp only
  rw [h.misses, u64_eq hlt]

theorem Ledger.hit (h : g.Ledger hits misses put) (hlt : hits + 1 < 2 ^ 64) (policy : EvictionPolicy) :
    ({ g with hits := u64 (g.hits + 1), policy } : Group).Ledger (hits + 1) misses put := by
  refine ⟨?_, h.misses, h.balance, h.put, h.sized, h.evicted_ge, h.evicted_le, h.unset⟩
  dsimp only
  rw [h.hits, u64_eq hlt]

end Group

/-! ## Runs -/

/-- The bytes a `Put` into group `i` is charged, refused or not. -/
def PolicyAct.putBytes (spec : List SpecEntry) (i : Nat) : PolicyAct → Nat
  | .put _ key chunk _ => if groupOf spec key.fname = i then chargedBytes chunk else 0
  | _ => 0

/-- What is put takes up space. -/
def PolicyAct.Occupies : PolicyAct → Prop
  | .put _ _ chunk _ => 0 < chargedBytes chunk
  | _ => True

instance : DecidablePred PolicyAct.Occupies
  | .put .. => inferInstanceAs (Decidable (_ < _))
  | .get .. | .delete _ | .clear | .clearFrom .. | .take _ => .isTrue trivial

/-- What one operation adds to `groupResults`. -/
def PolicyAct.groupResult (spec : List SpecEntry) (i : Nat) (s : PolicyStorage) (a : PolicyAct) :
    List (InMemCacheBlock × Option InMemCacheDataEntry) :=
  if a.concerns spec i then (a.result s).toList else []

/-- The results that return a block. -/
def hitCount (results : List (InMemCacheBlock × Option InMemCacheDataEntry)) : Nat := results.countP (·.2.isSome)

/-- The results that do not. -/
def missCount (results : List (InMemCacheBlock × Option InMemCacheDataEntry)) : Nat := results.countP (·.2.isNone)

namespace PolicyStorage

variable {i hits misses charged : Nat} {s s' : PolicyStorage} {spec : List SpecEntry}

/-- The books of group `i` of a storage in order. -/
structure Books (spec : List SpecEntry) (i hits misses charged : Nat) (s : PolicyStorage) : Prop where
  ok : s.OK
  grouped : Grouped spec s
  ledger : ∀ g, s.groups[i]? = some g → g.Ledger hits misses charged

/-- An operation that leaves the group alone. -/
theorem Books.other (h : Books spec i hits misses charged s) {a : PolicyAct} (hfit : FitsMemory s a)
    (hs : policyStep s a = some s') (hsame : s'.groups[i]? = s.groups[i]?) :
    Books spec i hits misses charged s' :=
  ⟨policyStep_ok h.ok hfit hs, h.grouped.step hs, fun g hg => h.ledger g (hsame ▸ hg)⟩

/-- An operation that puts another group in its place. -/
theorem Books.set (h : Books spec i hits misses charged s) {a : PolicyAct} (hfit : FitsMemory s a)
    (hs : policyStep s a = some s') {g g' : Group} {hits' misses' charged' : Nat}
    (hi : s.groups[i]? = some g) (hset : s'.groups = s.groups.set i g')
    (hg : g'.Ledger hits' misses' charged') : Books spec i hits' misses' charged' s' := by
  refine ⟨policyStep_ok h.ok hfit hs, h.grouped.step hs, fun x hx => ?_⟩
  rw [hset, getElem?_set_self hi] at hx
  cases hx
  exact hg

theorem Books.put (h : Books spec i hits misses charged s) (now : Nat) {key : InMemCacheBlock}
    (hi : groupOf spec key.fname = i) {chunk : PageAlignedDataChunk} (hpos : 0 < chargedBytes chunk)
    (hfit : s.residentBytes + chargedBytes chunk < 2 ^ 64) (hput : charged + chargedBytes chunk < 2 ^ 64)
    (tag : String) :
    Books spec i hits misses (charged + chargedBytes chunk) (s.put now key chunk tag) := by
  have hs : policyStep s (.put now key chunk tag) = some (s.put now key chunk tag) := rfl
  obtain ⟨g, hg, ⟨_, _, he⟩ | ⟨hcap, he⟩⟩ := put_cases h.ok.toRouted now key chunk tag
  · refine ⟨put_ok h.ok now key chunk tag hfit, h.grouped.step hs, fun x hx => ?_⟩
    rw [he, groupFor_eq] at hx
    have hx := h.ledger x hx
    exact { hx with put := hx.put.trans (Nat.le_add_right _ _) }
  · have hev := put_evicted h.ok key hg hcap hfit
    have hroom := hev.1.used_le
    rw [h.grouped.chosen, hi] at hg he
    have hok := h.ok.groups g (List.mem_of_getElem? hg)
    have hrem := (h.ledger g hg).removeExisting hok.toConsistent key
    have hevicted :=
      hrem.evictToFit (by omega) (Group.removeExisting_ok hok key).1.toConsistent (chargedBytes chunk)
    have hinserted : ∀ e : PolicyEntry, e.bytes = chargedBytes chunk →
        (((g.removeExisting key).evictToFit (chargedBytes chunk)).1.insertEntry key e).Ledger hits misses
          (charged + chargedBytes chunk) := by
      intro e he
      rw [← congrArg (charged + ·) he]
      exact hevicted.insertEntry (by omega) (by omega) (by omega)
    exact h.set (a := .put now key chunk tag) hfit hs hg (by rw [he, groupFor_eq]) (hinserted _ rfl)

theorem Books.get (h : Books spec i hits misses charged s) (now : Nat) {key : InMemCacheBlock}
    (hi : groupOf spec key.fname = i) (tag : String) (hlt : hits + misses + 1 < 2 ^ 64) :
    Books spec i (hits + hitCount ((PolicyAct.get now key tag).groupResult spec i s))
      (misses + missCount ((PolicyAct.get now key tag).groupResult spec i s)) charged (s.get now key tag).2 := by
  have hs : policyStep s (.get now key tag) = some (s.get now key tag).2 := rfl
  have hresult : (PolicyAct.get now key tag).groupResult spec i s =
      [(key, (s.get now key tag).1.bind (s.heap[·]?))] := by
    simp [PolicyAct.groupResult, PolicyAct.concerns, PolicyAct.result, hi]
  rw [hresult]
  obtain ⟨g, hg, ⟨_, he⟩ | ⟨e, d, hl, hd, ⟨_, he⟩ | ⟨_, _, he⟩⟩⟩ := get_cases h.ok.toRouted now key tag
  all_goals
    rw [h.grouped.chosen, hi] at hg he
    have hledger := h.ledger g hg
  · have hcount := h.set (a := .get now key tag) trivial hs hg (by rw [he, groupFor_eq])
      (hledger.miss (by omega))
    simpa [he, hitCount, missCount] using hcount
  · have hok := h.ok.groups g (List.mem_of_getElem? hg)
    have hcount := h.set (a := .get now key tag) trivial hs hg (by rw [he, groupFor_eq]; rfl)
      ((hledger.removeEntry hok.toConsistent hl).miss (by omega))
    simpa [he, hitCount, missCount] using hcount
  · have hcount := h.set (a := .get now key tag) trivial hs hg (by rw [he, groupFor_eq])
      (hledger.hit (by omega) (g.policy.onHit key))
    simpa [he, hd, hitCount, missCount] using hcount

/-- Every group changed in a way that keeps its books. -/
theorem Books.map (h : Books spec i hits misses charged s) {a : PolicyAct} (hfit : FitsMemory s a)
    (hs : policyStep s a = some s') {f : Group → Group} (hmap : s'.groups = s.groups.map f)
    (hf : ∀ g ∈ s.groups, g.Ledger hits misses charged → (f g).Ledger hits misses charged) :
    Books spec i hits misses charged s' := by
  refine ⟨policyStep_ok h.ok hfit hs, h.grouped.step hs, fun x hx => ?_⟩
  rw [hmap, List.getElem?_map] at hx
  obtain ⟨g, hg, rfl⟩ := Option.map_eq_some_iff.mp hx
  exact hf g (List.mem_of_getElem? hg) (h.ledger g hg)

theorem Books.step (h : Books spec i hits misses charged s) {a : PolicyAct} (hfit : FitsMemory s a)
    (hpos : a.Occupies) (hput : charged + a.putBytes spec i < 2 ^ 64) (hlt : hits + misses + 1 < 2 ^ 64)
    (hs : policyStep s a = some s') :
    Books spec i (hits + hitCount (a.groupResult spec i s)) (misses + missCount (a.groupResult spec i s))
      (charged + a.putBytes spec i) s' := by
  have hquiet : a.result s = none → a.groupResult spec i s = [] := by
    intro hnone
    simp [PolicyAct.groupResult, hnone]
  cases a with
  | put now key chunk tag =>
    cases hs
    rw [hquiet rfl]
    by_cases hi : groupOf spec key.fname = i
    · rw [PolicyAct.putBytes, if_pos hi] at hput ⊢
      exact h.put now hi hpos hfit hput tag
    · rw [PolicyAct.putBytes, if_neg hi]
      exact h.other (a := .put now key chunk tag) hfit rfl
        (put_other h.ok.toRouted (by rw [h.grouped.chosen]; exact hi) now chunk tag)
  | get now key tag =>
    cases hs
    by_cases hi : groupOf spec key.fname = i
    · exact h.get now hi tag hlt
    · have hnone : (PolicyAct.get now key tag).groupResult spec i s = [] := by
        simp [PolicyAct.groupResult, PolicyAct.concerns, hi]
      rw [hnone]
      exact h.other (a := .get now key tag) trivial rfl
        (get_other h.ok.toRouted (by rw [h.grouped.chosen]; exact hi) now tag)
  | delete key =>
    cases hs
    rw [hquiet rfl]
    by_cases hi : groupOf spec key.fname = i
    · obtain ⟨g, hg, ⟨_, he⟩ | ⟨e, hl, he⟩⟩ := delete_cases h.ok.toRouted key
      · exact h.other (a := .delete key) trivial rfl (by rw [he, groupFor_eq])
      · rw [h.grouped.chosen, hi] at hg he
        have hok := h.ok.groups g (List.mem_of_getElem? hg)
        exact h.set (a := .delete key) trivial rfl hg (by rw [he, groupFor_eq])
          ((h.ledger g hg).removeEntry hok.toConsistent hl)
    · exact h.other (a := .delete key) trivial rfl
        (delete_other h.ok.toRouted (by rw [h.grouped.chosen]; exact hi))
  | clear =>
    cases hs
    rw [hquiet rfl]
    exact h.map (a := .clear) trivial rfl rfl fun g _ hg => hg.clear
  | clearFrom hash startKey filter =>
    cases hs
    rw [hquiet rfl]
    refine h.map (a := .clearFrom hash startKey filter) trivial rfl rfl fun g hmem hg => ?_
    have hp := hash.perm g.entries.entries
    exact Group.Ledger.clearMatching filter _ hg (h.ok.groups g hmem)
      ((List.perm_nodupKeys hp).mpr g.entries.nodupKeys) fun kv hkv => AList.mem_lookup_iff.mpr
        (hp.mem_iff.mp hkv)
  | take hash =>
    cases hs
    rw [hquiet rfl]
    exact h.map (a := .take hash) trivial rfl rfl fun g _ hg => hg.clear

theorem hitCount_append (l l' : List (InMemCacheBlock × Option InMemCacheDataEntry)) :
    hitCount (l ++ l') = hitCount l + hitCount l' := List.countP_append

theorem missCount_append (l l' : List (InMemCacheBlock × Option InMemCacheDataEntry)) :
    missCount (l ++ l') = missCount l + missCount l' := List.countP_append

/-- Every `Get` hits or misses. -/
theorem hitCount_add_missCount (l : List (InMemCacheBlock × Option InMemCacheDataEntry)) :
    hitCount l + missCount l = l.length := by
  have hnot : missCount l = l.countP fun r => ¬r.2.isSome := List.countP_congr fun r _ => by cases r.2 <;> simp
  rw [hnot, hitCount, ← List.length_eq_countP_add_countP]

theorem groupResult_length_le (s : PolicyStorage) (a : PolicyAct) : (a.groupResult spec i s).length ≤ 1 := by
  unfold PolicyAct.groupResult
  split
  · cases a.result s <;> simp
  · exact Nat.zero_le 1

theorem Books.run {as : List PolicyAct} (h : Books spec i hits misses charged s)
    (hfit : Guarded policyStep FitsMemory s as) (hpos : ∀ a ∈ as, a.Occupies)
    (hput : charged + (as.map (PolicyAct.putBytes spec i)).sum < 2 ^ 64)
    (hlt : hits + misses + as.length < 2 ^ 64) (hx : exec policyStep s as = some s') :
    Books spec i (hits + hitCount (groupResults spec i s as)) (misses + missCount (groupResults spec i s as))
      (charged + (as.map (PolicyAct.putBytes spec i)).sum) s' := by
  induction as generalizing s hits misses charged with
  | nil =>
    cases hx
    exact h
  | cons a as ih =>
    obtain ⟨t, ht, hx⟩ := exec_cons.mp hx
    rw [List.map_cons, List.sum_cons] at hput ⊢
    rw [List.length_cons] at hlt
    have hresults : groupResults spec i s (a :: as) = a.groupResult spec i s ++ groupResults spec i t as := by
      rw [groupResults, ht]
      rfl
    have hone := (hitCount_add_missCount (a.groupResult spec i s)).trans_le (groupResult_length_le s a)
    have hstep := h.step hfit.1 (hpos a (by simp)) (by omega) (by omega) ht
    have hrest := ih hstep (hfit.2 t ht) (fun b hb => hpos b (by simp [hb])) (by omega) (by omega) hx
    rw [hresults, hitCount_append, missCount_append, ← Nat.add_assoc, ← Nat.add_assoc, ← Nat.add_assoc]
    exact hrest

end PolicyStorage

/-- The columns of a row agree, after `hits` hits, `misses` misses and `Put`s of `put` bytes. -/
structure PolicyGroupStats.Balances (hits misses put : Nat) (row : PolicyGroupStats) : Prop where
  hits : row.hits = hits
  misses : row.misses = misses
  admitted : row.usedBytes + row.bytesEvicted ≤ row.bytesAdmitted ∧ row.bytesAdmitted ≤ put
  evicted : row.minEntryBytes * row.evictions ≤ row.bytesEvicted ∧
    row.bytesEvicted ≤ row.maxEntryBytes * row.evictions
  used : row.minEntryBytes * row.entryCount ≤ row.usedBytes ∧ row.usedBytes ≤ row.maxEntryBytes * row.entryCount

theorem Group.Ledger.balances {hits misses put : Nat} {g : Group} (h : g.Ledger hits misses put)
    (hc : g.Consistent) :
    g.stats.Balances hits misses put := by
  refine ⟨h.hits, h.misses, ⟨h.balance, h.put⟩, ⟨h.evicted_ge, h.evicted_le⟩, ?_⟩
  have hsized : ∀ n ∈ g.entries.entries.map (·.2.bytes), g.minEntryBytes ≤ n ∧ n ≤ g.maxEntryBytes := by
    intro n hn
    obtain ⟨kv, hkv, rfl⟩ := List.mem_map.mp hn
    exact (h.sized kv.1 kv.2 (AList.mem_lookup_iff.mpr hkv)).2
  have hge := List.card_nsmul_le_sum _ _ fun n hn => (hsized n hn).1
  have hle := List.sum_le_card_nsmul _ _ fun n hn => (hsized n hn).2
  rw [List.length_map, Nat.nsmul_eq_mul, Nat.mul_comm] at hge hle
  change g.minEntryBytes * g.entries.entries.length ≤ g.usedBytes ∧
    g.usedBytes ≤ g.maxEntryBytes * g.entries.entries.length
  rw [hc.used]
  exact ⟨hge, hle⟩

/-- The books of a new group are empty. -/
theorem newPolicyStorage_ledger {maxBytes timeoutMillisec : Nat} {defaultPolicy : EvictionPolicyKind}
    {spec : List SpecEntry} {s₀ : PolicyStorage}
    (hnew : newPolicyStorage maxBytes timeoutMillisec defaultPolicy spec = .ok s₀) :
    ∀ g ∈ s₀.groups, g.Ledger 0 0 0 := by
  have hempty : ∀ (name pattern : String) (policy : EvictionPolicy) (bounded : Bool) (capacityBytes : Nat),
      ({ name, pattern, policy, bounded, capacityBytes } : Group).Ledger 0 0 0 := fun _ _ _ _ _ =>
    ⟨rfl, rfl, Nat.le_refl _, Nat.le_refl _, fun k e he => by simp at he, Nat.le_refl _, Nat.le_refl _,
      fun _ => ⟨rfl, fun k => AList.lookup_empty k⟩⟩
  simp only [newPolicyStorage] at hnew
  split at hnew
  · cases hnew
  · cases hnew
    intro g hg
    rcases List.mem_append.mp hg with hg | hg
    · obtain ⟨e, _, rfl⟩ := List.mem_map.mp hg
      exact hempty _ _ _ _ _
    · obtain rfl := List.mem_singleton.mp hg
      exact hempty _ _ _ _ _

/-- **The statistics balance.** After any run each row of `GetStats` counts
the `Get`s of its group, has admitted what is used and what was evicted, and
bounds the entries by their extremes. -/
theorem policy_stats_balance (maxBytes timeoutMillisec : Nat) (defaultPolicy : EvictionPolicyKind)
    (spec : List SpecEntry) (s₀ : PolicyStorage)
    (hnew : newPolicyStorage maxBytes timeoutMillisec defaultPolicy spec = .ok s₀) (as : List PolicyAct)
    (hpos : ∀ a ∈ as, a.Occupies) (hfit : Guarded policyStep FitsMemory s₀ as) (hlt : as.length < 2 ^ 64)
    (s : PolicyStorage) (hs : exec policyStep s₀ as = some s) (i : Nat)
    (hput : (as.map (PolicyAct.putBytes spec i)).sum < 2 ^ 64) (row : PolicyGroupStats)
    (hrow : s.getStats[i]? = some row) :
    row.Balances (hitCount (groupResults spec i s₀ as)) (missCount (groupResults spec i s₀ as))
      (as.map (PolicyAct.putBytes spec i)).sum := by
  have hstart : PolicyStorage.Books spec i 0 0 0 s₀ := by
    refine ⟨(PolicyStorage.new_ok hnew).1, ⟨(PolicyStorage.new_routed hnew).1,
      PolicyStorage.chooseGroup_new hnew⟩, ?_⟩
    exact fun g hg => newPolicyStorage_ledger hnew g (List.mem_of_getElem? hg)
  have h := hstart.run hfit hpos (by omega) (by omega) hs
  rw [PolicyStorage.getStats, List.getElem?_map] at hrow
  obtain ⟨g, hg, rfl⟩ := Option.map_eq_some_iff.mp hrow
  have hbalances := (h.ledger g hg).balances (h.ok.groups g (List.mem_of_getElem? hg)).toConsistent
  simpa using hbalances

theorem policy_stats_balance_evicting :
    ∃ s₀ s row, newPolicyStorage 100 0 .clock [] = .ok s₀ ∧ exec policyStep s₀ evictingActs = some s ∧
      s.getStats = [row] ∧ row.evictions = 1 ∧ row.Balances 1 0 120 := by
  obtain ⟨s₀, h₀, hrun, hfit, hhits, hmisses⟩ : ∃ s₀, newPolicyStorage 100 0 .clock [] = .ok s₀ ∧
      (exec policyStep s₀ evictingActs).map (fun s => s.getStats.map (·.evictions)) = some [1] ∧
      Guarded policyStep FitsMemory s₀ evictingActs ∧ hitCount (groupResults [] 0 s₀ evictingActs) = 1 ∧
      missCount (groupResults [] 0 s₀ evictingActs) = 0 :=
    ⟨_, rfl, by decide +kernel, by decide +kernel, by decide +kernel, by decide +kernel⟩
  obtain ⟨s, hs, he⟩ := Option.map_eq_some_iff.mp hrun
  obtain ⟨row, hrow, hev⟩ := List.map_eq_singleton_iff.mp he
  have hbalances := policy_stats_balance 100 0 .clock [] s₀ h₀ evictingActs (by decide) hfit (by decide) s hs 0
    (by decide) row (by rw [hrow]; rfl)
  rw [hhits, hmisses] at hbalances
  exact ⟨s₀, s, row, h₀, hs, hrow, hev, hbalances⟩

end ReadCacheFs
