/-
CLOCK without hits is FIFO, and FIFO is deaf to hits.

FIFO's list from back to front is a second-chance queue in which no bit is
ever set, and so is CLOCK's ring as long as no hit is reported. Two storages
that differ in such policies alone stay in step: the same entries, the same
counters, the same victims in the same order.
-/
import ReadCacheFs.ClockQueue
import ReadCacheFs.PolicyInvariant

namespace ReadCacheFs

open Lib

/-! ## The queue of a FIFO -/

namespace ListPolicy

variable {q : ListPolicy} {key : InMemCacheBlock}

/-- The keys from back to front, none of them marked. -/
def queue (q : ListPolicy) : SecondChance InMemCacheBlock := q.order.values.reverse.map (·, false)

theorem keys_queue (q : ListPolicy) : q.queue.keys = q.order.values.reverse := by
  simp [queue, SecondChance.keys, Function.comp_def]

theorem OK.mem_queue (h : q.OK) : key ∈ q.queue.keys ↔ ∃ n, q.index.lookup key = some n := by
  rw [keys_queue, List.mem_reverse]
  exact h.mem_values

theorem queue_onInsert (h : q.OK) (key : InMemCacheBlock) :
    (FifoPolicy.onInsert q key).queue = q.queue.insert key := by
  unfold FifoPolicy.onInsert
  split
  next n hk => rw [SecondChance.insert, if_pos (h.mem_queue.mpr ⟨n, hk⟩)]
  next hk =>
    have hnot : key ∉ q.queue.keys := fun hm => by
      obtain ⟨n, hn⟩ := h.mem_queue.mp hm
      rw [hk] at hn
      cases hn
    rw [SecondChance.insert, if_neg hnot, queue, (pushFront_spec h hk).2, List.reverse_cons, List.map_append]
    rfl

theorem queue_onErase (h : q.OK) (key : InMemCacheBlock) : (q.onErase key).queue = q.queue.erase key := by
  have hfilter : q.queue.erase key = ((q.order.values.filter (· != key)).reverse).map (·, false) := by
    rw [SecondChance.erase, queue, List.filter_map, List.filter_reverse]
    rfl
  unfold onErase
  split
  next hk =>
    have hnot : ∀ k ∈ q.order.values, (k != key) = true := by
      intro k hm
      rw [bne_iff_ne]
      rintro rfl
      obtain ⟨n, hn⟩ := h.mem_values.mp hm
      rw [hk] at hn
      cases hn
    rw [hfilter, List.filter_eq_self.mpr hnot, queue]
  next n hk => rw [hfilter, queue, Indexes.erase_values h hk]

theorem queue_popVictim (q : ListPolicy) : (FifoPolicy.popVictim q).1 = q.queue.pop.1 ∧
    (FifoPolicy.popVictim q).2.queue = q.queue.pop.2 := by
  have hunset : ∀ e ∈ q.queue, e.2 = false := by
    intro e he
    obtain ⟨k, _, rfl⟩ := List.mem_map.mp he
    rfl
  rw [SecondChance.pop_of_unset hunset, FifoPolicy.popVictim, NodeList.back?]
  rcases List.eq_nil_or_concat q.order.nodes with hnil | ⟨init, last, hlast⟩
  · simp [pop, queue, NodeList.values, hnil]
  · rw [List.concat_eq_append] at hlast
    obtain ⟨n, k⟩ := last
    have hrest : (q.order.erase n).nodes = init ++ [] := NodeList.erase_of_split hlast
    simp [pop, queue, NodeList.values, hlast, hrest]

end ListPolicy

/-! ## Policies that answer alike -/

/-- The relation lasts, and the victims are the same, as long as no hit is reported. -/
structure SameVictims (P : EvictionPolicy → EvictionPolicy → Prop) : Prop where
  onInsert : ∀ {p q}, P p q → ∀ key, P (p.onInsert key) (q.onInsert key)
  onErase : ∀ {p q}, P p q → ∀ key, P (p.onErase key) (q.onErase key)
  popVictim : ∀ {p q}, P p q → p.popVictim.1 = q.popVictim.1 ∧ P p.popVictim.2 q.popVictim.2
  clear : ∀ {p q}, P p q → P p.clear q.clear

/-- The same policy, or a FIFO in the place of a CLOCK with the same queue. -/
def FifoForClock (p q : EvictionPolicy) : Prop :=
  p = q ∨ ∃ (c : ClockPolicy) (f : ListPolicy), p = .clock c ∧ q = .fifo f ∧ c.OK ∧ f.OK ∧ c.queue = f.queue

theorem fifoForClock_sameVictims : SameVictims FifoForClock where
  onInsert := by
    rintro p q (rfl | ⟨c, f, rfl, rfl, hc, hf, hq⟩) key
    · exact .inl rfl
    · refine .inr ⟨_, _, rfl, rfl, (ClockPolicy.onInsert_spec hc key).1,
        (EvictionPolicy.onInsert_spec (p := .fifo f) hf key).1, ?_⟩
      rw [ClockPolicy.queue_onInsert hc, ListPolicy.queue_onInsert hf, hq]
  onErase := by
    rintro p q (rfl | ⟨c, f, rfl, rfl, hc, hf, hq⟩) key
    · exact .inl rfl
    · refine .inr ⟨_, _, rfl, rfl, (ClockPolicy.onErase_spec hc key).1, (ListPolicy.onErase_spec hf key).1, ?_⟩
      rw [ClockPolicy.queue_onErase hc, ListPolicy.queue_onErase hf, hq]
  popVictim := by
    rintro p q (rfl | ⟨c, f, rfl, rfl, hc, hf, hq⟩)
    · exact ⟨rfl, .inl rfl⟩
    · obtain ⟨hvictim, hrest⟩ := ClockPolicy.queue_popVictim hc
      obtain ⟨hvictim', hrest'⟩ := ListPolicy.queue_popVictim f
      rw [hq] at hvictim hrest
      exact ⟨hvictim.trans hvictim'.symm, .inr ⟨_, _, rfl, rfl, (ClockPolicy.popVictim_spec hc).1,
        (EvictionPolicy.popVictim_spec (p := .fifo f) hf).1, hrest.trans hrest'.symm⟩⟩
  clear := by
    rintro p q (rfl | ⟨c, f, rfl, rfl, hc, hf, hq⟩)
    · exact .inl rfl
    · exact .inr ⟨_, _, rfl, rfl, (EvictionPolicy.clear_spec (.clock c)).1,
        (EvictionPolicy.clear_spec (.fifo f)).1, rfl⟩

/-- One FIFO. -/
def SameFifo (p q : EvictionPolicy) : Prop := ∃ f : ListPolicy, p = .fifo f ∧ q = .fifo f

theorem sameFifo_sameVictims : SameVictims SameFifo where
  onInsert := by rintro p q ⟨f, rfl, rfl⟩ key; exact ⟨_, rfl, rfl⟩
  onErase := by rintro p q ⟨f, rfl, rfl⟩ key; exact ⟨_, rfl, rfl⟩
  popVictim := by rintro p q ⟨f, rfl, rfl⟩; exact ⟨rfl, _, rfl, rfl⟩
  clear := by rintro p q ⟨f, rfl, rfl⟩; exact ⟨_, rfl, rfl⟩

/-! ## Groups -/

/-- What a group holds, and what it has evicted. -/
def Group.occupancy (g : Group) : PolicyEntries × Nat × Nat := (g.entries, g.usedBytes, g.evictions)

/-- The groups differ in policies related by `P`, and in counting hits, at most. -/
def Group.Follows (P : EvictionPolicy → EvictionPolicy → Prop) (g g' : Group) : Prop :=
  ∃ policy hits, g' = { g with policy, hits } ∧ P g.policy policy

namespace Group.Follows

variable {P : EvictionPolicy → EvictionPolicy → Prop} {g g' : Group}

theorem removeEntry (hP : SameVictims P) (h : Follows P g g') (key : InMemCacheBlock) (e : PolicyEntry) :
    Follows P (g.removeEntry key e) (g'.removeEntry key e) := by
  obtain ⟨policy, hits, rfl, hp⟩ := h
  exact ⟨_, hits, rfl, hP.onErase hp key⟩

theorem removeExisting (hP : SameVictims P) (h : Follows P g g') (key : InMemCacheBlock) :
    Follows P (g.removeExisting key) (g'.removeExisting key) := by
  obtain ⟨policy, hits, rfl, hp⟩ := h
  unfold Group.removeExisting
  cases hl : g.entries.lookup key with
  | none => exact ⟨policy, hits, rfl, hp⟩
  | some e => exact ⟨_, hits, rfl, hP.onErase hp key⟩

/-- The victims are the same, one by one. -/
theorem evictToFit (hP : SameVictims P) (needed : Nat) (h : Follows P g g') :
    (g.evictToFit needed).2 = (g'.evictToFit needed).2 ∧
      Follows P (g.evictToFit needed).1 (g'.evictToFit needed).1 := by
  induction hn : g.policy.keys.length using Nat.strong_induction_on generalizing g g' with
  | _ n ih =>
    subst hn
    obtain ⟨policy', hits, rfl, hp⟩ := h
    obtain ⟨hvictim, hrest⟩ := hP.popVictim hp
    rw [Group.evictToFit_eq g, Group.evictToFit_eq]
    dsimp only
    split
    · exact ⟨rfl, policy', hits, rfl, hp⟩
    · cases hpop : g.policy.popVictim with
      | mk victim policy =>
        cases hpop' : policy'.popVictim with
        | mk victim' policy' =>
          rw [hpop, hpop'] at hvictim hrest
          dsimp only at hvictim hrest
          subst hvictim
          cases victim with
          | none => exact ⟨rfl, policy', hits, rfl, hrest⟩
          | some victim =>
            have hlt := EvictionPolicy.popVictim_size hpop
            dsimp only
            cases hl : g.entries.lookup victim with
            | none =>
              have hnext : Follows P { g with policy } { g with policy := policy', hits } :=
                ⟨policy', hits, rfl, hrest⟩
              obtain ⟨hreport, hgroup⟩ := ih _ hlt hnext rfl
              exact ⟨by dsimp only; rw [hreport], hgroup⟩
            | some e =>
              have hnext : Follows P (g.evictVictim policy victim e)
                  (({ g with policy := policy', hits } : Group).evictVictim policy' victim e) :=
                ⟨policy', hits, rfl, hrest⟩
              obtain ⟨hreport, hgroup⟩ := ih _ hlt hnext rfl
              exact ⟨by dsimp only; rw [hreport]; rfl, hgroup⟩

theorem insertEntry (hP : SameVictims P) (h : Follows P g g') (key : InMemCacheBlock) (e : PolicyEntry) :
    Follows P (g.insertEntry key e) (g'.insertEntry key e) := by
  obtain ⟨policy, hits, rfl, hp⟩ := h
  exact ⟨_, hits, rfl, hP.onInsert hp key⟩

theorem clear (hP : SameVictims P) (h : Follows P g g') : Follows P g.clear g'.clear := by
  obtain ⟨policy, hits, rfl, hp⟩ := h
  exact ⟨_, hits, rfl, hP.clear hp⟩

theorem clearMatching (hP : SameVictims P) (filter : InMemCacheBlock → Bool)
    (l : List (Σ _ : InMemCacheBlock, PolicyEntry)) (h : Follows P g g') :
    Follows P (g.clearMatching filter l) (g'.clearMatching filter l) := by
  induction l generalizing g g' with
  | nil => exact h
  | cons kv rest ih =>
    rw [Group.clearMatching, Group.clearMatching]
    split
    · exact ih (h.removeEntry hP kv.1 kv.2)
    · exact ih h

theorem miss (h : Follows P g g') :
    Follows P { g with misses := u64 (g.misses + 1) } { g' with misses := u64 (g'.misses + 1) } := by
  obtain ⟨policy, hits, rfl, hp⟩ := h
  exact ⟨policy, hits, rfl, hp⟩

theorem shape (h : Follows P g g') : g'.shape = g.shape := by
  obtain ⟨policy, hits, rfl, _⟩ := h
  rfl

theorem entries (h : Follows P g g') : g'.entries = g.entries := by
  obtain ⟨policy, hits, rfl, _⟩ := h
  rfl

/-- A hit reported to both. -/
theorem hit (hits hits' : Nat) {policy policy' : EvictionPolicy} (h : Follows P g g') (hp : P policy policy') :
    Follows P { g with hits, policy } { g' with hits := hits', policy := policy' } := by
  obtain ⟨_, _, rfl, _⟩ := h
  exact ⟨policy', hits', rfl, hp⟩

theorem policy (h : Follows P g g') : P g.policy g'.policy := by
  obtain ⟨policy, hits, rfl, hp⟩ := h
  exact hp

end Group.Follows

/-! ## Storages -/

namespace PolicyStorage

/-- What `EvictToFit` went through in a `Put`. -/
def putReport (s : PolicyStorage) (key : InMemCacheBlock) (chunk : PageAlignedDataChunk) : EvictReport :=
  match s.groups[(s.groupFor key.fname).1]? with
  | none => {}
  | some g =>
    if !g.policy.admits (chargedBytes chunk) then {}
    else if g.bounded && decide (g.capacityBytes < chargedBytes chunk) then {}
    else ((g.removeExisting key).evictToFit (chargedBytes chunk)).2

/-- The storages hold the same, in groups that follow one another. -/
structure Follows (P : EvictionPolicy → EvictionPolicy → Prop) (s t : PolicyStorage) : Prop where
  routed : s.Routed
  routed' : t.Routed
  groups : List.Forall₂ (Group.Follows P) s.groups t.groups
  heap : t.heap = s.heap
  timeoutMillisec : t.timeoutMillisec = s.timeoutMillisec

namespace Follows

variable {P : EvictionPolicy → EvictionPolicy → Prop} {s s' t t' : PolicyStorage}
    {alloc alloc' : List InMemCacheDataEntry}

theorem shapes (h : Follows P s t) : t.groups.map Group.shape = s.groups.map Group.shape := by
  obtain ⟨_, _, hgroups, _, _⟩ := h
  generalize s.groups = groups at hgroups ⊢
  generalize t.groups = groups' at hgroups ⊢
  induction hgroups with
  | nil => rfl
  | cons hg _ ih => rw [List.map_cons, List.map_cons, hg.shape, ih]

theorem chooseGroup_eq (h : Follows P s t) (fname : String) :
    chooseGroup t.groups fname = chooseGroup s.groups fname :=
  chooseGroup_congr h.shapes fname

/-- The groups of one path. -/
theorem group (h : Follows P s t) {fname : String} {g g' : Group}
    (hg : s.groups[chooseGroup s.groups fname]? = some g)
    (hg' : t.groups[chooseGroup t.groups fname]? = some g') : Group.Follows P g g' := by
  obtain ⟨g₁, hg₁, hfollow⟩ := forall₂_getElem? h.groups hg
  rw [h.chooseGroup_eq, hg₁] at hg'
  cases hg'
  exact hfollow

/-- The paths looked up change the memos alone. -/
theorem routed_only (h : Follows P s t) (hm : Moves s s' []) (hm' : Moves t t' []) (hs : s'.groups = s.groups)
    (ht : t'.groups = t.groups) : Follows P s' t' :=
  ⟨hm.routed h.routed, hm'.routed h.routed', by rw [hs, ht]; exact h.groups,
    by rw [hm'.heap, hm.heap, h.heap],
      hm'.timeoutMillisec.trans (h.timeoutMillisec.trans hm.timeoutMillisec.symm)⟩

theorem set (h : Follows P s t) (hm : Moves s s' alloc) (hm' : Moves t t' alloc) {i : Nat} {g g' : Group}
    (hs : s'.groups = s.groups.set i g) (ht : t'.groups = t.groups.set i g') (hg : Group.Follows P g g') :
    Follows P s' t' :=
  ⟨hm.routed h.routed, hm'.routed h.routed', by rw [hs, ht]; exact forall₂_set h.groups i hg,
    by rw [hm'.heap, hm.heap, h.heap],
      hm'.timeoutMillisec.trans (h.timeoutMillisec.trans hm.timeoutMillisec.symm)⟩

theorem put (hP : SameVictims P) (h : Follows P s t) (now : Nat) (key : InMemCacheBlock)
    (chunk : PageAlignedDataChunk) (tag : String) :
    Follows P (s.put now key chunk tag) (t.put now key chunk tag) := by
  obtain ⟨alloc, hm, _⟩ := put_moves h.routed now key chunk tag
  obtain ⟨alloc', hm', _⟩ := put_moves h.routed' now key chunk tag
  obtain ⟨g, hg, hcase⟩ := put_cases h.routed now key chunk tag
  obtain ⟨g', hg', hcase'⟩ := put_cases h.routed' now key chunk tag
  have hfollow := h.group hg hg'
  have hshape := hfollow.shape
  simp only [Group.shape, Prod.mk.injEq] at hshape
  obtain ⟨_, hbounded, hcapacity⟩ := hshape
  rcases hcase with ⟨hb, hover, he⟩ | ⟨hfits, he⟩
  · rcases hcase' with ⟨_, _, he'⟩ | ⟨hfits', _⟩
    · rw [he, he']
      refine h.routed_only (groupFor_moves s key.fname) (groupFor_moves t key.fname) ?_ ?_
      · rw [groupFor_eq]
      · rw [groupFor_eq]
    · have := hfits' (hbounded.trans hb)
      omega
  · rcases hcase' with ⟨hb', hover', _⟩ | ⟨_, he'⟩
    · have := hfits (hbounded.symm.trans hb')
      omega
    · have hmade := (((hfollow.removeExisting hP key).evictToFit hP (chargedBytes chunk)).2).insertEntry hP key
        { data := s.heap.length, bytes := chargedBytes chunk, insertedAt := now }
      have halloc : alloc = [{ data := chunk, versionTag := tag }] := by
        have := hm.heap
        rw [he, groupFor_eq] at this
        simpa using this.symm
      have halloc' : alloc' = [{ data := chunk, versionTag := tag }] := by
        have := hm'.heap
        rw [he', groupFor_eq] at this
        simpa using this.symm
      subst halloc halloc'
      refine h.set hm hm' (i := chooseGroup s.groups key.fname) (by rw [he, groupFor_eq]) ?_ hmade
      rw [he', groupFor_eq, h.chooseGroup_eq]
      dsimp only
      rw [h.heap]

theorem putReport_eq (hP : SameVictims P) (h : Follows P s t) (key : InMemCacheBlock)
    (chunk : PageAlignedDataChunk) :
    s.putReport key chunk = t.putReport key chunk := by
  obtain ⟨g, hg⟩ := exists_group h.routed key.fname
  obtain ⟨g', hg'⟩ := exists_group h.routed' key.fname
  have hfollow := h.group hg hg'
  have hreport := ((hfollow.removeExisting hP key).evictToFit hP (chargedBytes chunk)).1
  have hshape := hfollow.shape
  simp only [Group.shape, Prod.mk.injEq] at hshape
  rw [putReport, putReport, groupFor_fst h.routed, groupFor_fst h.routed', hg, hg']
  simp only [hshape, hreport, EvictionPolicy.admits]

theorem delete (hP : SameVictims P) (h : Follows P s t) (key : InMemCacheBlock) :
    Follows P (s.delete key).2 (t.delete key).2 := by
  obtain ⟨g, hg, hcase⟩ := delete_cases h.routed key
  obtain ⟨g', hg', hcase'⟩ := delete_cases h.routed' key
  have hfollow := h.group hg hg'
  rw [hfollow.entries] at hcase'
  rcases hcase with ⟨hl, he⟩ | ⟨e, hl, he⟩
  · rcases hcase' with ⟨_, he'⟩ | ⟨e', hl', _⟩
    · rw [he, he']
      refine h.routed_only (groupFor_moves s key.fname) (groupFor_moves t key.fname) ?_ ?_
      · rw [groupFor_eq]
      · rw [groupFor_eq]
    · rw [hl] at hl'
      cases hl'
  · rcases hcase' with ⟨hl', _⟩ | ⟨e', hl', he'⟩
    · rw [hl] at hl'
      cases hl'
    · rw [hl] at hl'
      cases hl'
      refine h.set (delete_moves h.routed key) (delete_moves h.routed' key) (i := chooseGroup s.groups key.fname)
        (by rw [he, groupFor_eq]) ?_ (hfollow.removeEntry hP key e)
      rw [he', groupFor_eq, h.chooseGroup_eq]

theorem expired_eq (h : Follows P s t) (now : Nat) (e : PolicyEntry) : t.expired now e = s.expired now e := by
  rw [expired, expired, h.timeoutMillisec]

/-- A `Get` that does not hit hits in neither storage. -/
theorem get (hP : SameVictims P) (h : Follows P s t) (now : Nat) (key : InMemCacheBlock) (tag : String)
    (hmiss : (s.get now key tag).1 = none) : Follows P (s.get now key tag).2 (t.get now key tag).2 := by
  have hm := get_moves h.routed now key tag
  have hm' := get_moves h.routed' now key tag
  obtain ⟨g, hg, hcase⟩ := get_cases h.routed now key tag
  obtain ⟨g', hg', hcase'⟩ := get_cases h.routed' now key tag
  have hfollow := h.group hg hg'
  have hlookup : g'.entries.lookup key = g.entries.lookup key := by rw [hfollow.entries]
  simp only [hlookup, h.expired_eq, h.heap] at hcase'
  rcases hcase with ⟨hl, he⟩ | ⟨e, d, hl, hd, ⟨hstale, he⟩ | ⟨_, _, he⟩⟩
  · rcases hcase' with ⟨_, he'⟩ | ⟨_, _, hl', _⟩
    · refine h.set hm hm' (i := chooseGroup s.groups key.fname) (by rw [he, groupFor_eq]) ?_ hfollow.miss
      rw [he', groupFor_eq, h.chooseGroup_eq]
    · rw [hl] at hl'
      cases hl'
  · rcases hcase' with ⟨hl', _⟩ | ⟨e', d', hl', hd', ⟨_, he'⟩ | ⟨hfresh, hvalid, _⟩⟩
    · rw [hl] at hl'
      cases hl'
    · rw [hl] at hl'
      cases hl'
      have hgone := (hfollow.removeEntry hP key e).miss
      refine h.set hm hm' (i := chooseGroup s.groups key.fname) (by rw [he, groupFor_eq]; rfl) ?_ hgone
      rw [he', groupFor_eq, h.chooseGroup_eq]
      rfl
    · rw [hl] at hl'
      cases hl'
      rw [hd] at hd'
      cases hd'
      rw [hfresh, hvalid] at hstale
      simp at hstale
  · rw [he] at hmiss
    cases hmiss

/-- A `Get` that hits, taken on the one side only, by policies that are deaf to it. -/
theorem get_dropped (h : Follows P s t) (now : Nat) (key : InMemCacheBlock) (tag : String)
    (hdeaf : ∀ {p q}, P p q → P (p.onHit key) q) (hhit : (s.get now key tag).1.isSome) :
    Follows P (s.get now key tag).2 t := by
  have hm := get_moves h.routed now key tag
  obtain ⟨g, hg, hcase⟩ := get_cases h.routed now key tag
  obtain ⟨g', hg', hfollow⟩ := forall₂_getElem? h.groups hg
  rcases hcase with ⟨_, he⟩ | ⟨e, d, _, _, ⟨_, he⟩ | ⟨_, _, he⟩⟩
  · rw [he] at hhit
    cases hhit
  · rw [he] at hhit
    cases hhit
  · refine h.set hm (Moves.refl t) (i := chooseGroup s.groups key.fname) (by rw [he, groupFor_eq]) ?_
      (hfollow.hit (u64 (g.hits + 1)) g'.hits (hdeaf hfollow.policy))
    obtain ⟨hlt, rfl⟩ := List.getElem?_eq_some_iff.mp hg'
    exact (List.set_getElem_self hlt).symm

theorem clear (hP : SameVictims P) (h : Follows P s t) : Follows P s.clear t.clear :=
  ⟨(clear_moves s).routed h.routed, (clear_moves t).routed h.routed',
    List.forall₂_map_left_iff.mpr (List.forall₂_map_right_iff.mpr
      (h.groups.imp fun _ _ hg => hg.clear hP)), h.heap,
    h.timeoutMillisec⟩

theorem clearFrom (hP : SameVictims P) (h : Follows P s t) (hash : HashOrder (Σ _ : InMemCacheBlock, PolicyEntry))
    (startKey : InMemCacheBlock) (filter : InMemCacheBlock → Bool) :
    Follows P (s.clearFrom hash startKey filter) (t.clearFrom hash startKey filter) := by
  refine ⟨(clearFrom_moves s hash startKey filter).routed h.routed,
    (clearFrom_moves t hash startKey filter).routed h.routed', ?_, h.heap, h.timeoutMillisec⟩
  refine List.forall₂_map_left_iff.mpr (List.forall₂_map_right_iff.mpr (h.groups.imp fun g g' hg => ?_))
  rw [hg.entries]
  exact hg.clearMatching hP filter _

theorem occupancy (h : Follows P s t) : t.groups.map Group.occupancy = s.groups.map Group.occupancy := by
  obtain ⟨_, _, hgroups, _, _⟩ := h
  generalize s.groups = groups at hgroups ⊢
  generalize t.groups = groups' at hgroups ⊢
  induction hgroups with
  | nil => rfl
  | cons hg _ ih =>
    obtain ⟨policy, hits, rfl, _⟩ := hg
    rw [List.map_cons, List.map_cons, ih]
    rfl

end Follows

theorem new_follows {P : EvictionPolicy → EvictionPolicy → Prop} {maxBytes timeoutMillisec : Nat}
    {defaultPolicy defaultPolicy' : EvictionPolicyKind} {spec spec' : List SpecEntry} {s t : PolicyStorage}
    (hd : P (createEvictionPolicy defaultPolicy) (createEvictionPolicy defaultPolicy'))
    (hspec : List.Forall₂ (fun e e' => e'.pattern = e.pattern ∧ e'.bytes = e.bytes ∧
      P (createEvictionPolicy e.policy) (createEvictionPolicy e'.policy)) spec spec')
    (h : newPolicyStorage maxBytes timeoutMillisec defaultPolicy spec = .ok s)
    (h' : newPolicyStorage maxBytes timeoutMillisec defaultPolicy' spec' = .ok t) : Follows P s t := by
  have hr := (new_routed h).1
  have hr' := (new_routed h').1
  have hbytes : ∀ f : Nat → Nat → Nat, ∀ n, spec'.foldl (fun n e => f n e.bytes) n =
      spec.foldl (fun n e => f n e.bytes) n := by
    intro f
    clear h h'
    induction hspec with
    | nil => exact fun n => rfl
    | cons he _ ih =>
      intro n
      rw [List.foldl_cons, List.foldl_cons, he.2.1, ih]
  have hexplicit := hbytes (fun n b => if 0 < b then u64 (n + b) else n) 0
  have hunsized := hbytes (fun n b => if 0 < b then n else u64 (n + 1)) 1
  have hempty : spec'.isEmpty = spec.isEmpty := by
    cases hspec with
    | nil => rfl
    | cons _ _ => rfl
  simp only [newPolicyStorage] at h h'
  rw [hexplicit, hunsized, hempty] at h'
  split at h
  · cases h
  · rw [if_neg (by assumption)] at h'
    cases h
    cases h'
    refine ⟨hr, hr', ?_, rfl, rfl⟩
    refine List.rel_append ?_ (.cons ⟨_, 0, rfl, hd⟩ .nil)
    refine List.forall₂_map_left_iff.mpr (List.forall₂_map_right_iff.mpr (hspec.imp fun e e' he => ?_))
    obtain ⟨hpattern, hb, hp⟩ := he
    refine ⟨_, 0, ?_, hp⟩
    simp only [hpattern, hb]

end PolicyStorage

/-! ## Runs -/

/-- The operation is a `Get` that hits. -/
def PolicyAct.hits (s : PolicyStorage) : PolicyAct → Bool
  | .get now key tag => (s.get now key tag).1.isSome
  | _ => false

def PolicyAct.evicted (s : PolicyStorage) : PolicyAct → List InMemCacheBlock
  | .put _ key chunk _ => (s.putReport key chunk).victims
  | _ => []

def evictedKeys : PolicyStorage → List PolicyAct → List InMemCacheBlock
  | _, [] => []
  | s, a :: as => a.evicted s ++ (policyStep s a).elim [] fun s' => evictedKeys s' as

/-- What is left of a run without the `Get`s that hit. -/
def withoutHits : PolicyStorage → List PolicyAct → List PolicyAct
  | _, [] => []
  | s, a :: as => (if a.hits s then [] else [a]) ++ (policyStep s a).elim [] fun s' => withoutHits s' as

theorem withoutHits_of_guarded {as : List PolicyAct} {s : PolicyStorage}
    (h : Guarded policyStep (fun s a => a.hits s = false) s as) : withoutHits s as = as := by
  induction as generalizing s with
  | nil => rfl
  | cons a as ih =>
    obtain ⟨u, hu⟩ := PolicyStorage.policyStep_total s a
    simp [withoutHits, h.1, hu, ih (h.2 u hu)]

namespace PolicyStorage.Follows

variable {P : EvictionPolicy → EvictionPolicy → Prop} {s s' t t' : PolicyStorage} {a : PolicyAct}

theorem evicted_eq (hP : SameVictims P) (h : Follows P s t) (a : PolicyAct) : a.evicted s = a.evicted t := by
  cases a with
  | put now key chunk tag => rw [PolicyAct.evicted, PolicyAct.evicted, h.putReport_eq hP]
  | get now key tag | delete key | clear | clearFrom hash startKey filter | take hash => rfl

theorem step (hP : SameVictims P) (h : Follows P s t) (hmiss : a.hits s = false) (hs : policyStep s a = some s')
    (ht : policyStep t a = some t') : Follows P s' t' := by
  cases a with
  | put now key chunk tag => cases hs; cases ht; exact h.put hP now key chunk tag
  | get now key tag =>
    cases hs
    cases ht
    exact h.get hP now key tag (by simpa [PolicyAct.hits] using hmiss)
  | delete key => cases hs; cases ht; exact h.delete hP key
  | clear => cases hs; cases ht; exact h.clear hP
  | clearFrom hash startKey filter => cases hs; cases ht; exact h.clearFrom hP hash startKey filter
  | take hash => cases hs; cases ht; exact h.clear hP

/-- A step of the one side only, a hit its policies are deaf to. -/
theorem step_dropped (h : Follows P s t) (hdeaf : ∀ {p q}, P p q → ∀ key, P (p.onHit key) q)
    (hhit : a.hits s = true) (hs : policyStep s a = some s') : Follows P s' t := by
  cases a with
  | get now key tag =>
    cases hs
    exact h.get_dropped now key tag (fun hp => hdeaf hp key) hhit
  | put now key chunk tag | delete key | clear | clearFrom hash startKey filter | take hash => cases hhit

theorem run (hP : SameVictims P) {as : List PolicyAct} (h : Follows P s t)
    (hmiss : Guarded policyStep (fun s a => a.hits s = false) s as) (hs : exec policyStep s as = some s')
    (ht : exec policyStep t as = some t') : Follows P s' t' ∧ evictedKeys s as = evictedKeys t as := by
  induction as generalizing s t with
  | nil =>
    cases hs
    cases ht
    exact ⟨h, rfl⟩
  | cons a as ih =>
    obtain ⟨u, hu, hs⟩ := exec_cons.mp hs
    obtain ⟨v, hv, ht⟩ := exec_cons.mp ht
    obtain ⟨hend, hkeys⟩ := ih (h.step hP hmiss.1 hu hv) (hmiss.2 u hu) hs ht
    refine ⟨hend, ?_⟩
    simp only [evictedKeys, hu, hv, Option.elim_some, h.evicted_eq hP a, hkeys]

theorem run_dropped (hP : SameVictims P) (hdeaf : ∀ {p q}, P p q → ∀ key, P (p.onHit key) q) (as : List PolicyAct)
    (h : Follows P s t) : evictedKeys s as = evictedKeys t (withoutHits s as) := by
  induction as generalizing s t with
  | nil => rfl
  | cons a as ih =>
    obtain ⟨u, hu⟩ := policyStep_total s a
    obtain ⟨v, hv⟩ := policyStep_total t a
    cases hhit : a.hits s with
    | true =>
      have hnone : a.evicted s = [] := by
        cases a with
        | get now key tag => rfl
        | put now key chunk tag | delete key | clear | clearFrom hash startKey filter | take hash => cases hhit
      have hrest := ih (h.step_dropped hdeaf hhit hu)
      simp only [evictedKeys, withoutHits, hhit, hu, hnone, hrest, Option.elim_some, if_true, List.nil_append]
    | false =>
      have hrest := ih (h.step hP hhit hu hv)
      simp only [withoutHits, hhit, hu, Option.elim_some, Bool.false_eq_true, if_false, List.singleton_append]
      simp only [evictedKeys, hu, hv, Option.elim_some, h.evicted_eq hP a, hrest]

end PolicyStorage.Follows

/-- The kinds are the same, or "fifo" is in the place of "clock". -/
def FifoForClockKind (k k' : EvictionPolicyKind) : Prop := k = k' ∨ (k = .clock ∧ k' = .fifo)

theorem fifoForClock_new {k k' : EvictionPolicyKind} (h : FifoForClockKind k k') :
    FifoForClock (createEvictionPolicy k) (createEvictionPolicy k') := by
  rcases h with rfl | ⟨rfl, rfl⟩
  · exact .inl rfl
  · exact .inr ⟨_, _, rfl, rfl, ClockPolicy.new_ok, (EvictionPolicy.create_spec .fifo).1, rfl⟩

/-- **CLOCK is FIFO where nothing is re-referenced.** Any budget, any spec
and any run without a hit, and so any prefix of it: with "fifo" in the place
of "clock" the entries, the bytes used, the evictions and the victims in
their order are the same. And with "fifo" two runs that differ in hits alone
have the same victims, whichever `Get`s hit in them. -/
theorem clock_without_hits_is_fifo (maxBytes timeoutMillisec : Nat) :
    (∀ (defaultPolicy defaultPolicy' : EvictionPolicyKind) (spec spec' : List SpecEntry) (s₀ t₀ : PolicyStorage),
      FifoForClockKind defaultPolicy defaultPolicy' →
      List.Forall₂ (fun e e' => e'.pattern = e.pattern ∧ e'.bytes = e.bytes ∧ FifoForClockKind e.policy e'.policy)
        spec spec' →
      newPolicyStorage maxBytes timeoutMillisec defaultPolicy spec = .ok s₀ →
      newPolicyStorage maxBytes timeoutMillisec defaultPolicy' spec' = .ok t₀ →
      ∀ (as : List PolicyAct) (s t : PolicyStorage), Guarded policyStep (fun s a => a.hits s = false) s₀ as →
        exec policyStep s₀ as = some s → exec policyStep t₀ as = some t →
        t.groups.map Group.occupancy = s.groups.map Group.occupancy ∧ t.heap = s.heap ∧
          evictedKeys t₀ as = evictedKeys s₀ as) ∧
    ∀ (spec : List SpecEntry) (s₀ : PolicyStorage), (∀ e ∈ spec, e.policy = .fifo) →
      newPolicyStorage maxBytes timeoutMillisec .fifo spec = .ok s₀ →
      ∀ as as' : List PolicyAct, withoutHits s₀ as = withoutHits s₀ as' →
        evictedKeys s₀ as = evictedKeys s₀ as' := by
  constructor
  · intro defaultPolicy defaultPolicy' spec spec' s₀ t₀ hd hspec hs₀ ht₀ as s t hmiss hs ht
    have hstart := PolicyStorage.new_follows (fifoForClock_new hd)
      (hspec.imp fun e e' he => ⟨he.1, he.2.1, fifoForClock_new he.2.2⟩) hs₀ ht₀
    obtain ⟨hend, hkeys⟩ := hstart.run fifoForClock_sameVictims hmiss hs ht
    exact ⟨hend.occupancy, hend.heap, hkeys.symm⟩
  · intro spec s₀ hfifo hs₀ as as' hsame
    have hstart : PolicyStorage.Follows SameFifo s₀ s₀ := by
      refine PolicyStorage.new_follows ⟨_, rfl, rfl⟩ (List.forall₂_same.mpr fun e he => ⟨rfl, rfl, ?_⟩) hs₀ hs₀
      rw [hfifo e he]
      exact ⟨_, rfl, rfl⟩
    have hdeaf : ∀ {p q}, SameFifo p q → ∀ key, SameFifo (p.onHit key) q := by
      rintro p q ⟨f, rfl, rfl⟩ key
      exact ⟨f, rfl, rfl⟩
    rw [hstart.run_dropped sameFifo_sameVictims hdeaf as,
      hstart.run_dropped sameFifo_sameVictims hdeaf as', hsame]

/-- Blocks of 40 bytes in and out of a budget of 100, a `Get` that misses among them. -/
def scanActs : List PolicyAct :=
  [.put 0 ⟨"f", 0, 40⟩ ⟨some [], 40, 40⟩ "v", .put 1 ⟨"f", 40, 40⟩ ⟨some [], 40, 40⟩ "v", .get 2 ⟨"f", 80, 40⟩ "v",
    .put 3 ⟨"f", 80, 40⟩ ⟨some [], 40, 40⟩ "v", .delete ⟨"f", 40, 40⟩, .put 4 ⟨"f", 120, 40⟩ ⟨some [], 40, 40⟩ "v",
    .put 5 ⟨"f", 160, 80⟩ ⟨some [], 80, 80⟩ "v"]

/-- The same, the first block read again before the rest. -/
def rereadActs : List PolicyAct :=
  .put 0 ⟨"f", 0, 40⟩ ⟨some [], 40, 40⟩ "v" :: .get 1 ⟨"f", 0, 40⟩ "v" :: scanActs.tail

theorem clock_without_hits_is_fifo_scan :
    ∃ s₀ t₀ s t, newPolicyStorage 100 0 .clock [] = .ok s₀ ∧ newPolicyStorage 100 0 .fifo [] = .ok t₀ ∧
      exec policyStep s₀ scanActs = some s ∧ exec policyStep t₀ scanActs = some t ∧
      evictedKeys s₀ scanActs = [⟨"f", 0, 40⟩, ⟨"f", 80, 40⟩, ⟨"f", 120, 40⟩] ∧
      (t.groups.map Group.occupancy = s.groups.map Group.occupancy ∧ t.heap = s.heap ∧
        evictedKeys t₀ scanActs = evictedKeys s₀ scanActs) ∧
      evictedKeys t₀ scanActs = evictedKeys t₀ rereadActs := by
  obtain ⟨s₀, t₀, h₀, h₀', hkeys, hmiss, hmiss', hget, hrest⟩ : ∃ s₀ t₀, newPolicyStorage 100 0 .clock [] = .ok s₀ ∧
      newPolicyStorage 100 0 .fifo [] = .ok t₀ ∧
      evictedKeys s₀ scanActs = [⟨"f", 0, 40⟩, ⟨"f", 80, 40⟩, ⟨"f", 120, 40⟩] ∧
      Guarded policyStep (fun s a => a.hits s = false) s₀ scanActs ∧
      Guarded policyStep (fun s a => a.hits s = false) t₀ scanActs ∧
      (PolicyAct.get 1 ⟨"f", 0, 40⟩ "v").hits (t₀.put 0 ⟨"f", 0, 40⟩ ⟨some [], 40, 40⟩ "v") = true ∧
      Guarded policyStep (fun s a => a.hits s = false)
        ((t₀.put 0 ⟨"f", 0, 40⟩ ⟨some [], 40, 40⟩ "v").get 1 ⟨"f", 0, 40⟩ "v").2 scanActs.tail :=
    ⟨_, _, rfl, rfl, by decide +kernel, by decide +kernel, by decide +kernel, by decide +kernel, by decide +kernel⟩
  obtain ⟨s, hs⟩ := PolicyStorage.exec_total s₀ scanActs
  obtain ⟨t, ht⟩ := PolicyStorage.exec_total t₀ scanActs
  have hreread : withoutHits t₀ rereadActs = scanActs := by
    simp only [rereadActs, withoutHits, policyStep, hget, Option.elim_some, withoutHits_of_guarded hrest]
    rfl
  exact ⟨s₀, t₀, s, t, h₀, h₀', hs, ht, hkeys,
    (clock_without_hits_is_fifo 100 0).1 .clock .fifo [] [] s₀ t₀
      (.inr ⟨rfl, rfl⟩) .nil h₀ h₀' scanActs s t hmiss hs ht,
    (clock_without_hits_is_fifo 100 0).2 [] t₀ (by decide) h₀' scanActs rereadActs
      ((withoutHits_of_guarded hmiss').trans hreread.symm)⟩

end ReadCacheFs
