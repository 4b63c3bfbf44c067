/-
What a policy storage with one bounded group does in a run of accesses to
blocks of one size.

LRU and MRU are the list policies of `Lib.Replacement` (`Realizes`). Under
LRU a larger budget never loses a hit. In a cyclic scan of more keys than
there is room for LRU, FIFO and CLOCK never hit, as they keep the keys
accessed last (`Ages`), while MRU hits all but one of the keys there is room
for in every round after the first.
-/
import ReadCacheFs.ClockQueue
import ReadCacheFs.PolicyAccess

namespace ReadCacheFs

open Lib

/-! ## Policies as lists -/

namespace ListPolicy

variable {q : ListPolicy} {key : InMemCacheBlock}

theorem touch_values (h : q.OK) (hk : key ∈ q.order.values) :
    (q.touch key).order.values = Replacement.moveToFront key q.order.values := by
  obtain ⟨n, hn⟩ := h.mem_values.mp hk
  rw [touch, hn]
  exact Indexes.moveToFront_values h hn

theorem lookup_none (h : q.OK) (hk : key ∉ q.order.values) : q.index.lookup key = none :=
  Option.eq_none_iff_forall_ne_some.mpr fun n hn => hk (h.mem_values.mpr ⟨n, hn⟩)

theorem pop_back (q : ListPolicy) : (q.pop q.order.back?).2.order.values = q.order.values.dropLast := by
  rw [NodeList.back?]
  rcases List.eq_nil_or_concat q.order.nodes with hnil | ⟨init, last, hlast⟩
  · simp [pop, NodeList.values, hnil]
  · rw [List.concat_eq_append] at hlast
    obtain ⟨n, k⟩ := last
    have hrest : (q.order.erase n).nodes = init ++ [] := NodeList.erase_of_split hlast
    simp [pop, NodeList.values, hlast, hrest]

theorem pop_front (q : ListPolicy) : (q.pop q.order.front?).2.order.values = q.order.values.tail := by
  rw [NodeList.front?]
  cases hnodes : q.order.nodes with
  | nil => simp [pop, NodeList.values, hnodes]
  | cons first rest =>
    obtain ⟨n, k⟩ := first
    have hsplit : q.order.nodes = [] ++ (n, k) :: rest := hnodes
    have hrest : (q.order.erase n).nodes = [] ++ rest := NodeList.erase_of_split hsplit
    simp [pop, NodeList.values, hnodes, hrest]

end ListPolicy

namespace EvictionPolicy

variable {p : EvictionPolicy} {full : Nat → Bool} {key : InMemCacheBlock}

/-- A class of policies that do to their keys what `r` does to a list. -/
structure Realizes (r : Replacement InMemCacheBlock) (P : EvictionPolicy → Prop) : Prop where
  onHit : ∀ {p} {key}, P p → key ∈ p.keys → P (p.onHit key) ∧ (p.onHit key).keys = r.hit key p.keys
  onInsert : ∀ {p} {key}, P p → key ∉ p.keys → P (p.onInsert key) ∧ (p.onInsert key).keys = key :: p.keys
  popVictim : ∀ {p}, P p → P p.popVictim.2 ∧ p.popVictim.2.keys = r.evict p.keys
  evict_subset : ∀ l : List InMemCacheBlock, r.evict l ⊆ l

theorem lru_realizes : Realizes .lru fun p => ∃ q : ListPolicy, p = .lru q ∧ q.OK where
  onHit := by
    rintro p key ⟨q, rfl, hq⟩ hk
    exact ⟨⟨_, rfl, (ListPolicy.touch_spec hq key).1⟩, ListPolicy.touch_values hq hk⟩
  onInsert := by
    rintro p key ⟨q, rfl, hq⟩ hk
    have hnone := ListPolicy.lookup_none hq hk
    obtain ⟨hok, hvalues⟩ := ListPolicy.pushFront_spec hq hnone
    have hinsert : (EvictionPolicy.lru q).onInsert key = .lru (q.pushFront key) := by
      simp only [onInsert, LruPolicy.onInsert, hnone]
    rw [hinsert]
    exact ⟨⟨_, rfl, hok⟩, hvalues⟩
  popVictim := by
    rintro p ⟨q, rfl, hq⟩
    exact ⟨⟨_, rfl, (popVictim_spec (p := .lru q) hq).1⟩, q.pop_back⟩
  evict_subset := List.dropLast_subset

theorem mru_realizes : Realizes .mru fun p => ∃ q : ListPolicy, p = .mru q ∧ q.OK where
  onHit := by
    rintro p key ⟨q, rfl, hq⟩ hk
    exact ⟨⟨_, rfl, (ListPolicy.touch_spec hq key).1⟩, ListPolicy.touch_values hq hk⟩
  onInsert := by
    rintro p key ⟨q, rfl, hq⟩ hk
    have hnone := ListPolicy.lookup_none hq hk
    obtain ⟨hok, hvalues⟩ := ListPolicy.pushFront_spec hq hnone
    have hinsert : (EvictionPolicy.mru q).onInsert key = .mru (q.pushFront key) := by
      simp only [onInsert, MruPolicy.onInsert, hnone]
    rw [hinsert]
    exact ⟨⟨_, rfl, hok⟩, hvalues⟩
  popVictim := by
    rintro p ⟨q, rfl, hq⟩
    exact ⟨⟨_, rfl, (popVictim_spec (p := .mru q) hq).1⟩, q.pop_front⟩
  evict_subset := List.tail_subset

theorem Realizes.access {r : Replacement InMemCacheBlock} {P : EvictionPolicy → Prop} (h : Realizes r P)
    (hp : P p) (full : Nat → Bool) (key : InMemCacheBlock) :
    (p.access full key).1 = (r.access full p.keys key).1 ∧ P (p.access full key).2 ∧
      (p.access full key).2.keys = (r.access full p.keys key).2 := by
  unfold EvictionPolicy.access
  by_cases hk : key ∈ p.keys
  · rw [if_pos hk, Replacement.access_hit hk]
    exact ⟨rfl, h.onHit hp hk⟩
  rw [if_neg hk]
  cases h0 : full 0 with
  | true =>
    rw [Replacement.access_reject hk h0, if_pos rfl]
    exact ⟨rfl, hp, rfl⟩
  | false =>
    rw [Replacement.access_miss hk h0, if_neg Bool.false_ne_true, Replacement.letIn]
    refine ⟨rfl, ?_⟩
    by_cases hfull : full p.keys.length = true
    · rw [if_pos hfull, if_pos hfull]
      obtain ⟨hpop, hrest⟩ := h.popVictim hp
      obtain ⟨hins, hkeys⟩ := h.onInsert hpop (fun hm => hk (h.evict_subset _ (hrest ▸ hm)))
      exact ⟨hins, hkeys.trans (congrArg _ hrest)⟩
    · rw [if_neg hfull, if_neg hfull]
      exact h.onInsert hp hk

/-- The keys in the order they were let in, the latest first, and none of them marked. -/
def Ages : EvictionPolicy → List InMemCacheBlock → Prop
  | .lru q, l | .fifo q, l => q.OK ∧ q.order.values = l
  | .clock c, l => c.OK ∧ c.queue = l.reverse.map (·, false)
  | .mru _, _ => False

variable {l : List InMemCacheBlock}

theorem Ages.mem_keys (h : p.Ages l) : key ∈ p.keys ↔ key ∈ l := by
  cases p with
  | lru q | fifo q =>
    obtain ⟨-, rfl⟩ := h
    rfl
  | clock c =>
    obtain ⟨-, hqueue⟩ := h
    change key ∈ c.keys ↔ _
    rw [← c.queue_keys_perm.mem_iff, hqueue]
    simp [SecondChance.keys]
  | mru q => exact h.elim

theorem Ages.length (h : p.Ages l) : p.keys.length = l.length := by
  cases p with
  | lru q | fifo q =>
    obtain ⟨-, rfl⟩ := h
    rfl
  | clock c =>
    obtain ⟨-, hqueue⟩ := h
    change c.keys.length = _
    rw [← c.queue_keys_perm.length_eq, hqueue]
    simp [SecondChance.keys]
  | mru q => exact h.elim

theorem Ages.onInsert (h : p.Ages l) (hk : key ∉ l) : (p.onInsert key).Ages (key :: l) := by
  cases p with
  | lru q | fifo q =>
    obtain ⟨hok, rfl⟩ := h
    have hnone := ListPolicy.lookup_none hok hk
    obtain ⟨hok', hvalues⟩ := ListPolicy.pushFront_spec hok hnone
    simp only [EvictionPolicy.onInsert, LruPolicy.onInsert, FifoPolicy.onInsert, hnone]
    exact ⟨hok', hvalues⟩
  | clock c =>
    obtain ⟨hok, hqueue⟩ := h
    refine ⟨(ClockPolicy.onInsert_spec hok key).1, ?_⟩
    have hnot : key ∉ c.queue.keys := by
      rw [hqueue]
      simpa [SecondChance.keys] using hk
    rw [ClockPolicy.queue_onInsert hok, SecondChance.insert, if_neg hnot, hqueue, List.reverse_cons,
      List.map_append]
    rfl
  | mru q => exact h.elim

theorem Ages.popVictim (h : p.Ages l) : p.popVictim.2.Ages l.dropLast := by
  cases p with
  | lru q | fifo q =>
    obtain ⟨hok, rfl⟩ := h
    exact ⟨(popVictim_spec (p := .lru q) hok).1, q.pop_back⟩
  | clock c =>
    obtain ⟨hok, hqueue⟩ := h
    refine ⟨(ClockPolicy.popVictim_spec hok).1, ?_⟩
    have hunset : ∀ e ∈ c.queue, e.2 = false := by
      intro e he
      rw [hqueue] at he
      obtain ⟨k, _, rfl⟩ := List.mem_map.mp he
      rfl
    change c.popVictim.2.queue = _
    rw [(ClockPolicy.queue_popVictim hok).2, SecondChance.pop_of_unset hunset, hqueue, ← List.map_tail,
      List.tail_reverse]
  | mru q => exact h.elim

theorem Ages.access (h : p.Ages l) (hk : key ∉ l) (h0 : full 0 = false) :
    (p.access full key).1 = false ∧
      (p.access full key).2.Ages (key :: if full l.length then l.dropLast else l) := by
  rw [EvictionPolicy.access, if_neg (h.mem_keys.not.mpr hk), h0, if_neg Bool.false_ne_true, h.length]
  refine ⟨rfl, ?_⟩
  by_cases hfull : full l.length = true
  · rw [if_pos hfull, if_pos hfull]
    exact h.popVictim.onInsert fun hm => hk (List.dropLast_subset l hm)
  · rw [if_neg hfull, if_neg hfull]
    exact h.onInsert hk

theorem Ages.create {kind : EvictionPolicyKind} (h : kind ≠ .mru) : (createEvictionPolicy kind).Ages [] := by
  have hok := (create_spec kind).1
  cases kind with
  | lru | fifo | clock => exact ⟨hok, rfl⟩
  | mru => exact absurd rfl h

end EvictionPolicy

/-! ## Two budgets under LRU -/

namespace PolicyStorage

variable {tagOf : InMemCacheBlock → String} {s₁ s₂ : PolicyStorage} {size C₁ C₂ : Nat}

/-- What is resident with the smaller budget are the keys used last of those resident with the larger. -/
structure Included (C₁ C₂ size : Nat) (tagOf : InMemCacheBlock → String) (s₂ s₁ : PolicyStorage) : Prop where
  lists : ∃ q₁ q₂ : ListPolicy, s₁.Uniform C₁ size tagOf (.lru q₁) ∧ s₂.Uniform C₂ size tagOf (.lru q₂) ∧
    q₁.order.values <+: q₂.order.values ∧ (fullAt C₁ size 0 = true → q₁.order.values = [])

theorem Included.access (hle : C₁ ≤ C₂) (h : Included C₁ C₂ size tagOf s₂ s₁) {a : Access}
    (hsize : chargedBytes a.chunk = size) :
    ((s₁.access tagOf a).1 = true → (s₂.access tagOf a).1 = true) ∧
      Included C₁ C₂ size tagOf (s₂.access tagOf a).2 (s₁.access tagOf a).2 := by
  obtain ⟨q₁, q₂, h₁, h₂, hprefix, hnone⟩ := h.lists
  obtain ⟨hhit₁, hnext₁⟩ := h₁.access hsize
  obtain ⟨hhit₂, hnext₂⟩ := h₂.access hsize
  obtain ⟨⟨g₁, -, hg₁, hp₁⟩, ⟨g₂, -, hg₂, hp₂⟩⟩ := And.intro h₁.group h₂.group
  have hq₁ : q₁.OK := by
    have := hg₁.policy
    rwa [hp₁] at this
  have hq₂ : q₂.OK := by
    have := hg₂.policy
    rwa [hp₂] at this
  obtain ⟨hlist₁, ⟨q₁', he₁, -⟩, hkeys₁⟩ :=
    EvictionPolicy.lru_realizes.access ⟨q₁, rfl, hq₁⟩ (fullAt C₁ size) a.key
  obtain ⟨hlist₂, ⟨q₂', he₂, -⟩, hkeys₂⟩ :=
    EvictionPolicy.lru_realizes.access ⟨q₂, rfl, hq₂⟩ (fullAt C₂ size) a.key
  have hfull : ∀ m, fullAt C₂ size m = true → fullAt C₁ size m = true := by
    intro m hm
    simp only [fullAt, decide_eq_true_eq] at hm ⊢
    omega
  obtain ⟨himp, hincluded⟩ := Replacement.lru_access_prefix hfull hnone hprefix a.key
  rw [he₁] at hnext₁ hkeys₁
  rw [he₂] at hnext₂ hkeys₂
  refine ⟨?_, q₁', q₂', hnext₁, hnext₂, ?_, ?_⟩
  · rw [hhit₁, hhit₂, hlist₁, hlist₂]
    exact himp
  · change (EvictionPolicy.lru q₁').keys <+: (EvictionPolicy.lru q₂').keys
    rw [hkeys₁, hkeys₂]
    exact hincluded
  · intro h0
    change (EvictionPolicy.lru q₁').keys = []
    rw [hkeys₁]
    exact Replacement.access_nil hnone a.key h0

end PolicyStorage

/-- **More memory never hurts under LRU.** Whatever is accessed, the blocks all
charged alike: where the smaller budget hits the larger one hits, and what is
resident with the smaller budget is resident with the larger. So it is even
where the counts of the bytes wrap. -/
theorem lru_inclusion (C₁ C₂ size : Nat) (hpos : 0 < C₁) (hle : C₁ ≤ C₂) (hidx : C₂ < 2 ^ 64)
    (s₁ s₂ : PolicyStorage) (h₁ : newPolicyStorage C₁ 0 .lru [] = .ok s₁)
    (h₂ : newPolicyStorage C₂ 0 .lru [] = .ok s₂) (as : List Access)
    (hsize : ∀ a ∈ as, chargedBytes a.chunk = size) :
    let (hits₁, t₁) := answers (PolicyStorage.access fun _ => "") s₁ as
    let (hits₂, t₂) := answers (PolicyStorage.access fun _ => "") s₂ as
    List.Forall₂ (fun hit₁ hit₂ => hit₁ = true → hit₂ = true) hits₁ hits₂ ∧
      ∀ hash hash', t₁.keys hash ⊆ t₂.keys hash' := by
  have hstart : PolicyStorage.Included C₁ C₂ size (fun _ => "") s₂ s₁ :=
    ⟨{}, {}, .new hpos (hle.trans_lt hidx) h₁, .new (hpos.trans_le hle) hidx h₂, List.prefix_rfl, fun _ => rfl⟩
  have hguard : Guarded (fun s a => some (s.access (fun _ => "") a).2)
      (fun _ a => chargedBytes a.chunk = size) s₂ as :=
    .of_forall hsize
  obtain ⟨hhits, q₁, q₂, hu₁, hu₂, hprefix, -⟩ := answers_forall₂
    (P := fun hit₂ hit₁ : Bool => hit₁ = true → hit₂ = true) (fun s t a h hG => h.access hle hG) hguard hstart
  refine ⟨List.Forall₂.flip hhits, fun hash hash' => ?_⟩
  exact List.Subset.trans (hu₁.keys hash).subset (List.Subset.trans hprefix.subset (hu₂.keys hash').symm.subset)

/-- Three blocks of 40 bytes, one after another. -/
def threeBlocks : List Access :=
  [⟨⟨"f", 0, 40⟩, ⟨some [], 40, 40⟩, 0, 1⟩, ⟨⟨"f", 40, 40⟩, ⟨some [], 40, 40⟩, 2, 3⟩, ⟨⟨"f", 80, 40⟩, ⟨some [], 40, 40⟩, 4, 5⟩]

/-- The scan twice over, with room for two blocks and for three. -/
theorem lru_inclusion_three :
    ∃ s₁ s₂, newPolicyStorage 100 0 .lru [] = .ok s₁ ∧ newPolicyStorage 120 0 .lru [] = .ok s₂ ∧
      let (hits₁, t₁) := answers (PolicyStorage.access fun _ => "") s₁ (threeBlocks ++ threeBlocks)
      let (hits₂, t₂) := answers (PolicyStorage.access fun _ => "") s₂ (threeBlocks ++ threeBlocks)
      List.Forall₂ (fun hit₁ hit₂ => hit₁ = true → hit₂ = true) hits₁ hits₂ ∧
        ∀ hash hash', t₁.keys hash ⊆ t₂.keys hash' := by
  obtain ⟨s₁, s₂, h₁, h₂⟩ : ∃ s₁ s₂, newPolicyStorage 100 0 .lru [] = .ok s₁ ∧
      newPolicyStorage 120 0 .lru [] = .ok s₂ :=
    ⟨_, _, rfl, rfl⟩
  exact ⟨s₁, s₂, h₁, h₂, lru_inclusion 100 120 40 (by decide) (by decide) (by decide) s₁ s₂ h₁ h₂
    (threeBlocks ++ threeBlocks)
    (by decide)⟩

/-! ## Cyclic scans -/

/-- Room for `c` blocks, where the bytes of one more can still be counted. -/
theorem fullAt_eq {c size capacity : Nat} (hc : 0 < c) (hlo : c * size ≤ capacity)
    (hhi : capacity < (c + 1) * size) (hmem : (c + 1) * size < 2 ^ 64) :
    ∀ m ≤ c, fullAt capacity size m = decide (c ≤ m) := by
  intro m hm
  have hone : size ≤ capacity := (Nat.le_mul_of_pos_left size hc).trans hlo
  have hnext : m * size + size = (m + 1) * size := (Nat.succ_mul m size).symm
  have hlt : (m + 1) * size < 2 ^ 64 := (Nat.mul_le_mul_right size (Nat.succ_le_succ hm)).trans_lt hmem
  rw [fullAt, hnext, u64_eq hlt, decide_eq_decide]
  constructor
  · intro hfull
    by_contra hless
    have := Nat.mul_le_mul_right size (show m + 1 ≤ c by omega)
    omega
  · intro hle
    obtain rfl : m = c := le_antisymm hm hle
    exact .inr hhi

namespace PolicyStorage

variable {tagOf : InMemCacheBlock → String} {s : PolicyStorage} {p : EvictionPolicy} {q : ListPolicy}
  {c size capacity : Nat} {past l : List InMemCacheBlock} {a : Access}

theorem Uniform.access_room (hu : s.Uniform capacity size tagOf p)
    (hfull : ∀ m ≤ c, fullAt capacity size m = decide (c ≤ m)) (hlen : p.keys.length ≤ c)
    (hsize : chargedBytes a.chunk = size) :
    (s.access tagOf a).1 = (p.access (fun m => decide (c ≤ m)) a.key).1 ∧
      (s.access tagOf a).2.Uniform capacity size tagOf (p.access (fun m => decide (c ≤ m)) a.key).2 := by
  have hsame : p.access (fullAt capacity size) a.key = p.access (fun m => decide (c ≤ m)) a.key :=
    EvictionPolicy.access_congr (hfull 0 (Nat.zero_le c)) (hfull _ hlen) a.key
  rw [← hsame]
  exact hu.access hsize

/-- The keys accessed last are resident, and stay so. -/
theorem Uniform.access_miss (hu : s.Uniform capacity size tagOf p) (hages : p.Ages (past.take c)) (hc : 0 < c)
    (hfull : ∀ m ≤ c, fullAt capacity size m = decide (c ≤ m)) (hsize : chargedBytes a.chunk = size)
    (hkey : a.key ∉ past.take c) :
    (s.access tagOf a).1 = false ∧ ∃ p', (s.access tagOf a).2.Uniform capacity size tagOf p' ∧
      p'.Ages ((a.key :: past).take c) := by
  have hlen : p.keys.length ≤ c := by
    rw [hages.length]
    exact List.length_take_le c past
  obtain ⟨hhit, hnext⟩ := hu.access_room hfull hlen hsize
  obtain ⟨hmiss, hages'⟩ : (p.access (fun m => decide (c ≤ m)) a.key).1 = false ∧ _ :=
    hages.access hkey (decide_eq_false (Nat.not_le_of_lt hc))
  simp only [decide_eq_true_eq, Replacement.take_scan hc] at hages'
  exact ⟨hhit.trans hmiss, _, hnext, hages'⟩

/-- The storage under MRU, with room for `c` keys, is the list. -/
structure Mru (capacity size c : Nat) (tagOf : InMemCacheBlock → String) (s : PolicyStorage)
    (l : List InMemCacheBlock) :
    Prop where
  uniform : ∃ q : ListPolicy, s.Uniform capacity size tagOf (.mru q) ∧ q.order.values = l
  nodup : l.Nodup
  length : l.length ≤ c

theorem Mru.access (h : Mru capacity size c tagOf s l) (hc : 0 < c)
    (hfull : ∀ m ≤ c, fullAt capacity size m = decide (c ≤ m)) (hsize : chargedBytes a.chunk = size) :
    (s.access tagOf a).1 = (Replacement.mru.access (fun m => decide (c ≤ m)) l a.key).1 ∧
      Mru capacity size c tagOf (s.access tagOf a).2
        (Replacement.mru.access (fun m => decide (c ≤ m)) l a.key).2 := by
  obtain ⟨q, hu, rfl⟩ := h.uniform
  obtain ⟨hhit, hnext⟩ := hu.access_room hfull h.length hsize
  have hq : q.OK := by
    obtain ⟨g, -, hg, hp⟩ := hu.group
    have := hg.policy
    rwa [hp] at this
  obtain ⟨hlist, ⟨q', he, -⟩, hkeys⟩ :=
    EvictionPolicy.mru_realizes.access ⟨q, rfl, hq⟩ (fun m => decide (c ≤ m)) a.key
  rw [he] at hnext hkeys
  refine ⟨hhit.trans hlist, ⟨q', hnext, hkeys⟩, Replacement.mru_access_nodup h.nodup a.key, ?_⟩
  rw [Replacement.mru_access_length hc h.length h.nodup a.key]
  split
  · exact h.length
  · exact min_le_left _ _

end PolicyStorage

/-- **The MRU harness check.** More keys than there is room for, scanned in a
cycle: under LRU, FIFO and CLOCK no access ever hits, under MRU every round
after the first has all hits but one that there is room for. -/
theorem mru_harness_check (c size capacity : Nat) (hc : 0 < c) (hlo : c * size ≤ capacity)
    (hhi : capacity < (c + 1) * size) (hmem : (c + 1) * size < 2 ^ 64) (tagOf : InMemCacheBlock → String)
    (keys : List InMemCacheBlock) (hnd : keys.Nodup) (hn : c < keys.length) (rounds : List (List Access))
    (hrounds : ∀ round ∈ rounds, round.map (·.key) = keys ∧ ∀ a ∈ round, chargedBytes a.chunk = size)
    (kind : EvictionPolicyKind) (s : PolicyStorage) (h : newPolicyStorage capacity 0 kind [] = .ok s) :
    let (hits, _) := answers (answers (PolicyStorage.access tagOf)) s rounds
    (kind ≠ .mru → ∀ round ∈ hits, ∀ hit ∈ round, hit = false) ∧
      (kind = .mru → ∀ round ∈ hits.tail, c - 1 ≤ round.count true) := by
  have hfull := fullAt_eq hc hlo hhi hmem
  have hpos : 0 < capacity := by
    refine lt_of_lt_of_le (Nat.mul_pos hc (Nat.pos_of_ne_zero ?_)) hlo
    rintro rfl
    omega
  have hstart : s.Uniform capacity size tagOf (createEvictionPolicy kind) := .new hpos (hhi.trans hmem) h
  constructor
  · intro hkind
    refine Replacement.cyclic_scan_misses (R := fun s past => ∃ p, s.Uniform capacity size tagOf p ∧
      p.Ages (past.take c))
      (fun s past a hsize ⟨p, hu, hages⟩ hkey => hu.access_miss hages hc hfull hsize hkey) hnd hn hrounds
        (.inl rfl) ?_
    refine ⟨_, hstart, ?_⟩
    rw [List.take_nil]
    exact .create hkind
  · rintro rfl
    have hround : ∀ (s : PolicyStorage) (l : List InMemCacheBlock), ∀ round ∈ rounds,
      PolicyStorage.Mru capacity size c tagOf s l →
        (answers (PolicyStorage.access tagOf) s round).1 =
            (answers (Replacement.mru.access fun m => decide (c ≤ m)) l (round.map (·.key))).1 ∧
          PolicyStorage.Mru capacity size c tagOf (answers (PolicyStorage.access tagOf) s round).2
            (answers (Replacement.mru.access fun m => decide (c ≤ m)) l (round.map (·.key))).2 := by
      intro s l round hr hmru
      rw [← answers_map]
      exact answers_simulation round (fun s l a ha hmru => hmru.access hc hfull ((hrounds round hr).2 a ha)) hmru
    have hempty : PolicyStorage.Mru capacity size c tagOf s [] :=
      ⟨⟨{}, hstart, rfl⟩, List.nodup_nil, Nat.zero_le c⟩
    obtain ⟨hhits, -⟩ := answers_simulation rounds hround hempty
    have hmap := answers_map (answers (Replacement.mru.access fun m => decide (c ≤ m)))
      (List.map fun a : Access => a.key) [] rounds
    intro round hr
    rw [hhits, hmap] at hr
    refine Replacement.mru_rounds hc hn.le hnd (fun r hr => ?_) round hr
    obtain ⟨r', hr', rfl⟩ := List.mem_map.mp hr
    exact .of_eq (hrounds r' hr').1

/-- The three blocks twice over, with room for two. -/
theorem mru_harness_check_three :
    ∃ s, newPolicyStorage 100 0 .mru [] = .ok s ∧
      ∀ round ∈ (answers (answers (PolicyStorage.access fun _ => "v")) s [threeBlocks, threeBlocks]).1.tail,
        1 ≤ round.count true :=
  ⟨_, rfl, (mru_harness_check 2 40 100 (by decide) (by decide) (by decide) (by decide) (fun _ => "v")
    (threeBlocks.map (·.key)) (by decide) (by decide) [threeBlocks, threeBlocks] (by decide) .mru _ rfl).2 rfl⟩

/-- Two blocks of half the address space, with room for one. -/
def halfSpaceBlocks : List Access :=
  [⟨⟨"f", 0, 1⟩, ⟨some [1], 1, 2 ^ 63⟩, 0, 1⟩, ⟨⟨"g", 0, 1⟩, ⟨some [2], 1, 2 ^ 63⟩, 2, 3⟩]

/-- The sum of the bytes comes round to 0, both blocks stay, and LRU hits. -/
theorem mru_harness_wraps :
    0 < 1 ∧ 1 * 2 ^ 63 ≤ 2 ^ 63 ∧ 2 ^ 63 < (1 + 1) * 2 ^ 63 ∧ (halfSpaceBlocks.map (·.key)).Nodup ∧
      1 < (halfSpaceBlocks.map (·.key)).length ∧ (∀ a ∈ halfSpaceBlocks, chargedBytes a.chunk = 2 ^ 63) ∧
      ∃ s, newPolicyStorage (2 ^ 63) 0 .lru [] = .ok s ∧
        (answers (answers (PolicyStorage.access fun _ => "")) s [halfSpaceBlocks, halfSpaceBlocks]).1 =
          [[false, false], [true, true]] :=
  ⟨by decide, by decide, by decide, by decide, by decide, by decide, _, rfl, by decide +kernel⟩

end ReadCacheFs
