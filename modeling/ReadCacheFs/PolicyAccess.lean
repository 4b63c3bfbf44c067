/-
Accesses to a policy storage with one bounded group: a `Get`, and a `Put` if
it misses.

With blocks that are charged alike, tags that stay and no timeout, the
policy decides alone what is resident: an access is one of
`EvictionPolicy.access`, which counts keys where the group counts bytes
(`Uniform.access`). The count of the bytes may wrap.
-/
import ReadCacheFs.Lib.Replacement
import ReadCacheFs.PolicyInvariant

namespace ReadCacheFs

open Lib

/-- What is accessed, and what the clock reads in the `Get` and in the `Put`. -/
structure Access where
  key : InMemCacheBlock
  chunk : PageAlignedDataChunk
  getNow : Nat
  putNow : Nat

/-- The answer is whether the `Get` hit. -/
def PolicyStorage.access (tagOf : InMemCacheBlock → String) (s : PolicyStorage) (a : Access) :
    Bool × PolicyStorage :=
  match s.get a.getNow a.key (tagOf a.key) with
  | (some _, s) => (true, s)
  | (none, s) => (false, s.put a.putNow a.key a.chunk (tagOf a.key))

/-- With `m` blocks of a size resident there is no room for one more: the
block is too large, or the count of the bytes would be. -/
def fullAt (capacity size m : Nat) : Bool := decide (capacity < size ∨ capacity < u64 (m * size + size))

theorem fullAt_zero (capacity size : Nat) : fullAt capacity size 0 = decide (capacity < size) := by
  have hle : u64 (0 * size + size) ≤ size := by
    rw [Nat.zero_mul, Nat.zero_add]
    exact Nat.mod_le size _
  rw [fullAt, decide_eq_decide]
  exact ⟨fun h => h.elim id fun hlt => hlt.trans_le hle, .inl⟩

/-- An access, where `full m` says that `m` keys leave no room for one more. -/
def EvictionPolicy.access (full : Nat → Bool) (p : EvictionPolicy) (key : InMemCacheBlock) :
    Bool × EvictionPolicy :=
  if key ∈ p.keys then (true, p.onHit key)
  else if full 0 then (false, p)
  else (false, (if full p.keys.length then p.popVictim.2 else p).onInsert key)

theorem EvictionPolicy.access_congr {full full' : Nat → Bool} {p : EvictionPolicy}
    (hzero : full 0 = full' 0) (hlength : full p.keys.length = full' p.keys.length) (key : InMemCacheBlock) :
    p.access full key = p.access full' key := by
  unfold EvictionPolicy.access
  rw [hzero, hlength]

/-! ## The group -/

namespace Group

/-- A bounded group of blocks of one size, each with its key's tag. -/
structure Uniform (capacity size : Nat) (tagOf : InMemCacheBlock → String) (heap : DataHeap) (g : Group) : Prop
    extends Tracked g where
  used : g.usedBytes = u64 (g.policy.keys.length * size)
  room : g.usedBytes ≤ capacity
  bounded : g.bounded = true
  capacityBytes : g.capacityBytes = capacity
  entries : ∀ k e, g.entries.lookup k = some e → e.bytes = size ∧ ∃ d, heap[e.data]? = some d ∧ d.versionTag = tagOf k

variable {capacity size : Nat} {tagOf : InMemCacheBlock → String} {heap : DataHeap} {g : Group}
    {key : InMemCacheBlock}

theorem Uniform.mem_keys (h : g.Uniform capacity size tagOf heap) :
    key ∈ g.policy.keys ↔ ∃ e, g.entries.lookup key = some e := by
  rw [h.tracked.mem_iff, ← AList.mem_keys, ← AList.lookup_isSome, Option.isSome_iff_exists]

/-- One victim at most has to go, and then there is room. -/
theorem Uniform.evictToFit_spec (h : g.Uniform capacity size tagOf heap) (hsize : size ≤ capacity) :
    ∃ policy, (g.evictToFit size).1.policy = policy ∧
      policy = (if fullAt capacity size g.policy.keys.length then g.policy.popVictim.2 else g.policy) ∧
      (g.evictToFit size).1.usedBytes = u64 (policy.keys.length * size) ∧
      u64 (policy.keys.length * size + size) ≤ capacity := by
  refine ⟨_, rfl, ?_⟩
  have hnext : u64 (g.usedBytes + size) = u64 (g.policy.keys.length * size + size) := by rw [h.used, u64_add]
  rw [evictToFit_fst, h.bounded, h.capacityBytes, hnext]
  by_cases hfull : capacity < u64 (g.policy.keys.length * size + size)
  · have hover : ¬(!true || decide (u64 (g.policy.keys.length * size + size) ≤ capacity)) = true := by
      simpa using hfull
    rw [if_neg hover, fullAt, decide_eq_true (.inr hfull), if_pos rfl]
    obtain ⟨-, hvictim⟩ := EvictionPolicy.popVictim_spec h.policy
    cases hpop : g.policy.popVictim with
    | mk victim policy =>
    rw [hpop] at hvictim
    cases victim with
    | none =>
      have hzero := fullAt_zero capacity size
      rw [fullAt, decide_eq_decide] at hzero
      rw [show g.policy.keys = [] from hvictim] at hfull
      exact absurd (hzero.mp (.inr hfull)) (Nat.not_lt.mpr hsize)
    | some victim =>
      obtain ⟨e, he⟩ := h.mem_keys.mp (hvictim.mem_iff.mpr List.mem_cons_self)
      have hbytes : e.bytes = size := (h.entries victim e he).1
      have hlength : g.policy.keys.length * size = policy.keys.length * size + size := by
        rw [hvictim.length_eq, List.length_cons, Nat.succ_mul]
      have hlt : size < 2 ^ 64 := (hsize.trans_lt hfull).trans (Nat.mod_lt _ (Nat.two_pow_pos 64))
      have hafter : (g.evictVictim policy victim e).usedBytes = u64 (policy.keys.length * size) := by
        change u64Sub g.usedBytes e.bytes = _
        rw [hbytes, h.used, hlength, u64Sub_u64 hlt]
      have hroom : u64 (policy.keys.length * size + size) ≤ capacity := by
        rw [← hlength, ← h.used]
        exact h.room
      simp only [he]
      rw [evictToFit_fst, if_pos]
      · exact ⟨rfl, hafter, hroom⟩
      · change (!g.bounded || decide (u64
          ((g.evictVictim policy victim e).usedBytes + size) ≤ g.capacityBytes)) = true
        rw [hafter, u64_add, h.capacityBytes, decide_eq_true hroom, Bool.or_true]
  · have hroom : (!true || decide (u64 (g.policy.keys.length * size + size) ≤ capacity)) = true := by
      simpa using hfull
    have hnot : ¬(capacity < size ∨ capacity < u64 (g.policy.keys.length * size + size)) :=
      not_or.mpr ⟨Nat.not_lt.mpr hsize, hfull⟩
    rw [if_pos hroom, fullAt, decide_eq_false hnot, if_neg Bool.false_ne_true]
    exact ⟨rfl, h.used, Nat.not_lt.mp hfull⟩

theorem removeExisting_of_none (h : g.entries.lookup key = none) : g.removeExisting key = g := by
  rw [removeExisting, h]

end Group

/-! ## The storage -/

namespace PolicyStorage

structure Uniform (capacity size : Nat) (tagOf : InMemCacheBlock → String) (s : PolicyStorage)
    (p : EvictionPolicy) :
    Prop extends Tracked s where
  timeoutMillisec : s.timeoutMillisec = 0
  group : ∃ g, s.groups = [g] ∧ g.Uniform capacity size tagOf s.heap ∧ g.policy = p

variable {capacity size : Nat} {tagOf : InMemCacheBlock → String} {s : PolicyStorage} {p : EvictionPolicy}

theorem Uniform.keys (h : s.Uniform capacity size tagOf p)
    (hash : HashOrder (Σ _ : InMemCacheBlock, PolicyEntry)) :
    (s.keys hash).Perm p.keys := by
  obtain ⟨g, hg, hu, rfl⟩ := h.group
  rw [PolicyStorage.keys, hg, List.flatMap_singleton]
  exact ((hash.perm g.entries.entries).map _).trans hu.tracked.symm

theorem Uniform.choose (h : s.Uniform capacity size tagOf p) {fname : String} {g g₀ : Group} (hg : s.groups = [g])
    (hg₀ : s.groups[chooseGroup s.groups fname]? = some g₀) : chooseGroup s.groups fname = 0 ∧ g₀ = g := by
  have hlt := chooseGroup_lt h.nonempty fname
  rw [hg, List.length_singleton] at hlt
  have hzero : chooseGroup s.groups fname = 0 := by
    rw [hg]
    omega
  rw [hzero, hg] at hg₀
  exact ⟨hzero, (Option.some.inj hg₀).symm⟩

theorem Uniform.get (h : s.Uniform capacity size tagOf p) (now : Nat) (key : InMemCacheBlock) :
    ((s.get now key (tagOf key)).1.isSome = decide (key ∈ p.keys)) ∧
      (s.get now key (tagOf key)).2.Uniform capacity size tagOf (if key ∈ p.keys then p.onHit key else p) := by
  have htracked := h.toTracked.get now key (tagOf key)
  have hm := get_moves h.toRouted now key (tagOf key)
  have htime := hm.timeoutMillisec.trans h.timeoutMillisec
  have hheap : (s.get now key (tagOf key)).2.heap = s.heap := by rw [hm.heap, List.append_nil]
  obtain ⟨g, hg, hu, rfl⟩ := h.group
  obtain ⟨g₀, hg₀, hget⟩ := get_cases h.toRouted now key (tagOf key)
  obtain ⟨hzero, rfl⟩ := h.choose hg hg₀
  have hgroups : (s.groupFor key.fname).2.groups = [g₀] := by
    rw [groupFor_eq]
    exact hg
  rcases hget with ⟨hnone, hget⟩ | ⟨e, d, hl, hd, hget⟩
  · have hkey : key ∉ g₀.policy.keys := by
      rw [hu.mem_keys, hnone]
      simp
    rw [if_neg hkey, decide_eq_false hkey]
    rw [hget, hgroups, hzero] at htracked hheap htime ⊢
    refine ⟨rfl, htracked, htime, _, rfl, ?_, rfl⟩
    exact ⟨htracked.groups _ List.mem_cons_self, hu.used, hu.room, hu.bounded, hu.capacityBytes,
      hheap ▸ hu.entries⟩
  · obtain ⟨d', hd', htag⟩ := (hu.entries key e hl).2
    cases hd.symm.trans hd'
    have hkey : key ∈ g₀.policy.keys := hu.mem_keys.mpr ⟨e, hl⟩
    have hfresh : s.expired now e = false := by simp [expired, h.timeoutMillisec]
    have hvalid : validateVersionTag d.versionTag (tagOf key) = true := by simp [validateVersionTag, htag]
    rcases hget with ⟨hstale, -⟩ | ⟨-, -, hget⟩
    · rw [hfresh, hvalid] at hstale
      simp at hstale
    · rw [if_pos hkey, decide_eq_true hkey]
      rw [hget, hgroups, hzero] at htracked hheap htime ⊢
      refine ⟨rfl, htracked, htime, _, rfl, ?_, rfl⟩
      have hlength := (EvictionPolicy.onHit_spec hu.policy key).2.length_eq
      exact ⟨htracked.groups _ List.mem_cons_self, hu.used.trans (by rw [← hlength]), hu.room, hu.bounded,
        hu.capacityBytes, hheap ▸ hu.entries⟩

theorem Uniform.put (h : s.Uniform capacity size tagOf p) (now : Nat) {key : InMemCacheBlock}
    (hkey : key ∉ p.keys) {chunk : PageAlignedDataChunk} (hsize : chargedBytes chunk = size) :
    (s.put now key chunk (tagOf key)).Uniform capacity size tagOf
      (if fullAt capacity size 0 then p
        else (if fullAt capacity size p.keys.length then p.popVictim.2 else p).onInsert key) := by
  have htracked := h.toTracked.put now key chunk (tagOf key)
  obtain ⟨alloc, hm, -⟩ := put_moves h.toRouted now key chunk (tagOf key)
  have htime := hm.timeoutMillisec.trans h.timeoutMillisec
  obtain ⟨g, hg, hu, rfl⟩ := h.group
  obtain ⟨g₀, hg₀, hput⟩ := put_cases h.toRouted now key chunk (tagOf key)
  obtain ⟨hzero, rfl⟩ := h.choose hg hg₀
  have hgroups : (s.groupFor key.fname).2.groups = [g₀] := by
    rw [groupFor_eq]
    exact hg
  have hheap : (s.groupFor key.fname).2.heap = s.heap := by rw [groupFor_eq]
  have hnone : g₀.entries.lookup key = none := by
    rw [Option.eq_none_iff_forall_ne_some]
    exact fun e he => hkey (hu.mem_keys.mpr ⟨e, he⟩)
  have hfull : fullAt capacity size 0 = decide (g₀.capacityBytes < chargedBytes chunk) := by
    rw [fullAt_zero, hu.capacityBytes, hsize]
  rcases hput with ⟨-, hover, hput⟩ | ⟨hcap, hput⟩
  · rw [hfull, decide_eq_true hover, if_pos rfl]
    rw [hput] at htracked htime ⊢
    exact ⟨htracked, htime, g₀, hgroups, hheap ▸ hu, rfl⟩
  · rw [hfull, decide_eq_false (Nat.not_lt.mpr (hcap hu.bounded)), if_neg Bool.false_ne_true]
    have hfits : size ≤ capacity := hu.capacityBytes ▸ hsize ▸ hcap hu.bounded
    obtain ⟨policy, hpolicy, he, hused, hroom⟩ := hu.evictToFit_spec hfits
    have hshape := Group.evictToFit_shape g₀ size
    dsimp only at hput
    rw [hput, hgroups, hzero, hheap, hsize, Group.removeExisting_of_none hnone] at htracked htime ⊢
    rw [← he, ← hpolicy]
    refine ⟨htracked, htime, _, rfl, ?_, rfl⟩
    have hevicted := hu.toTracked.evictToFit size
    have hgone : (g₀.evictToFit size).1.entries.lookup key = none :=
      Option.eq_none_iff_forall_ne_some.mpr fun e he =>
        Option.some_ne_none e ((Group.evictToFit_lookup he).symm.trans hnone)
    have hnotin : key ∉ (g₀.evictToFit size).1.policy.keys := by
      rw [hevicted.tracked.mem_iff, ← AList.mem_keys]
      exact AList.lookup_eq_none.mp hgone
    have hnew : ((g₀.evictToFit size).1.policy.onInsert key).keys.length = policy.keys.length + 1 := by
      rw [← hpolicy, (EvictionPolicy.onInsert_spec hevicted.policy key).2.length_eq, if_neg hnotin,
        List.length_cons]
    have hbytes : u64 ((g₀.evictToFit size).1.usedBytes + size) = u64 (policy.keys.length * size + size) := by
      rw [hused, u64_add]
    refine ⟨htracked.groups _ List.mem_cons_self, ?_, hbytes.trans_le hroom, hshape.bounded.trans hu.bounded,
      hshape.capacityBytes.trans hu.capacityBytes, fun k e he => ?_⟩
    · refine hbytes.trans (congrArg u64 ?_)
      change _ = ((g₀.evictToFit size).1.policy.onInsert key).keys.length * size
      rw [hnew, Nat.succ_mul]
    by_cases hk : k = key
    · subst hk
      cases (AList.lookup_insert _).symm.trans he
      exact ⟨rfl, _, List.getElem?_concat_length, rfl⟩
    · obtain ⟨hbytes, d, hd, htag⟩ :=
        hu.entries k e (Group.evictToFit_lookup ((AList.lookup_insert_ne hk).symm.trans he))
      exact ⟨hbytes, d, (List.getElem?_append_left (List.getElem?_eq_some_iff.mp hd).1).trans hd, htag⟩

/-- **An access is the policy's.** -/
theorem Uniform.access (h : s.Uniform capacity size tagOf p) {a : Access} (hsize : chargedBytes a.chunk = size) :
    (s.access tagOf a).1 = (p.access (fullAt capacity size) a.key).1 ∧
      (s.access tagOf a).2.Uniform capacity size tagOf (p.access (fullAt capacity size) a.key).2 := by
  obtain ⟨hfound, hget⟩ := h.get a.getNow a.key
  unfold PolicyStorage.access EvictionPolicy.access
  cases hr : s.get a.getNow a.key (tagOf a.key) with
  | mk found t =>
  rw [hr] at hfound hget
  by_cases hkey : a.key ∈ p.keys
  · rw [if_pos hkey] at hget ⊢
    rw [decide_eq_true hkey] at hfound
    obtain ⟨q, rfl⟩ := Option.isSome_iff_exists.mp hfound
    exact ⟨rfl, hget⟩
  · rw [if_neg hkey] at hget ⊢
    rw [decide_eq_false hkey] at hfound
    obtain rfl : found = none := by simpa using hfound
    have hput := hget.put a.putNow hkey hsize
    by_cases h0 : fullAt capacity size 0 = true
    · rw [if_pos h0] at hput ⊢
      exact ⟨rfl, hput⟩
    · rw [if_neg h0] at hput ⊢
      exact ⟨rfl, hput⟩

theorem Uniform.new {kind : EvictionPolicyKind} (hpos : 0 < capacity) (hlt : capacity < 2 ^ 64)
    (h : newPolicyStorage capacity 0 kind [] = .ok s) :
    s.Uniform capacity size tagOf (createEvictionPolicy kind) := by
  have htracked := new_tracked h
  have hshare : (if capacity = 0 then 0 else u64Sub capacity 0 / 1) = capacity := by
    rw [if_neg hpos.ne', u64Sub_eq (Nat.zero_le capacity) hlt, Nat.sub_zero, Nat.div_one]
  simp only [newPolicyStorage] at h
  split at h
  · cases h
  · cases h
    refine ⟨htracked, rfl, _, rfl, ?_, rfl⟩
    have hnone : (createEvictionPolicy kind).keys = [] := (EvictionPolicy.create_spec kind).2
    refine ⟨htracked.groups _ List.mem_cons_self, ?_, Nat.zero_le _, decide_eq_true hpos, hshare,
      fun k e he => ?_⟩
    · simp [hnone, u64]
    cases (AList.lookup_empty k).symm.trans he

end PolicyStorage

end ReadCacheFs
