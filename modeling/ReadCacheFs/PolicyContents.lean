/-
What a `PolicyDataCacheStorage` holds, whatever its accounting.

Each operation moves the storage the same way (`Moves`): entries go, at
most one comes, in the group its path is assigned, pointing at the one
block the operation allocates. Where an entry is found, and which block it
stands for, follows from that alone.
-/
import ReadCacheFs.PolicyStorage

namespace ReadCacheFs

open Lib

namespace Group

/-- What no operation changes of a group. -/
def shape (g : Group) : String × Bool × Nat := (g.pattern, g.bounded, g.capacityBytes)

structure SameShape (g g' : Group) : Prop where
  pattern : g'.pattern = g.pattern
  bounded : g'.bounded = g.bounded
  capacityBytes : g'.capacityBytes = g.capacityBytes

theorem SameShape.shape_eq {g g' : Group} (h : SameShape g g') : g'.shape = g.shape := by
  rw [shape, shape, h.pattern, h.bounded, h.capacityBytes]

theorem SameShape.refl (g : Group) : SameShape g g := ⟨rfl, rfl, rfl⟩

theorem SameShape.trans {g g' g'' : Group} (h : SameShape g g') (h' : SameShape g' g'') : SameShape g g'' :=
  ⟨h'.pattern.trans h.pattern, h'.bounded.trans h.bounded, h'.capacityBytes.trans h.capacityBytes⟩

variable {g : Group} {key k : InMemCacheBlock} {e : PolicyEntry}

theorem lookup_erase_iff {entries : PolicyEntries} :
    (entries.erase key).lookup k = some e ↔ k ≠ key ∧ entries.lookup k = some e := by
  by_cases hk : k = key
  · subst hk
    rw [AList.lookup_erase]
    simp
  · rw [AList.lookup_erase_ne hk]
    simp [hk]

theorem removeExisting_lookup (h : (g.removeExisting key).entries.lookup k = some e) :
    k ≠ key ∧ g.entries.lookup k = some e := by
  unfold removeExisting at h
  split at h
  next => exact lookup_erase_iff.mp h
  next hn =>
    refine ⟨fun hk => ?_, h⟩
    rw [hk, hn] at h
    cases h

theorem removeExisting_shape (g : Group) (key : InMemCacheBlock) : SameShape g (g.removeExisting key) := by
  unfold removeExisting
  split
  · exact ⟨rfl, rfl, rfl⟩
  · exact .refl g

/-- One round of `EvictToFit`. -/
theorem evictToFit_eq (g : Group) (needed : Nat) :
    g.evictToFit needed =
      if !g.bounded || decide (u64 (g.usedBytes + needed) ≤ g.capacityBytes) then (g, {})
      else match g.policy.popVictim with
        | (none, policy) => ({ g with policy }, { policyEmpty := true })
        | (some victim, policy) =>
          match g.entries.lookup victim with
          | none =>
            let (g', r) := ({ g with policy } : Group).evictToFit needed
            (g', { r with victimNotFound := true })
          | some e =>
            let (g', r) := (g.evictVictim policy victim e).evictToFit needed
            (g', { r with victims := victim :: r.victims, underflow := r.underflow || decide (g.usedBytes < e.bytes) }) := by
  rw [evictToFit]
  split
  next hb => simp [hb]
  split
  next hb hfit => simp [hfit]
  next hb hfit =>
    rw [if_neg (by simp [hb, hfit])]
    split
    next hp => rw [hp]
    next victim policy hp =>
      cases hl : g.entries.lookup victim with
      | none => simp only [hp, hl]
      | some e => simp only [hp, hl]

/-- What one round does to the group. -/
theorem evictToFit_fst (g : Group) (needed : Nat) :
    (g.evictToFit needed).1 =
      if !g.bounded || decide (u64 (g.usedBytes + needed) ≤ g.capacityBytes) then g
      else match g.policy.popVictim with
        | (none, policy) => { g with policy }
        | (some victim, policy) =>
          match g.entries.lookup victim with
          | none => (({ g with policy } : Group).evictToFit needed).1
          | some e => ((g.evictVictim policy victim e).evictToFit needed).1 := by
  rw [evictToFit_eq, apply_ite Prod.fst]
  split
  next => rfl
  next =>
    split
    next => rfl
    next => cases g.entries.lookup _ <;> rfl

/-- Evicting only takes entries away. -/
theorem evictToFit_lookup {needed : Nat} (h : (g.evictToFit needed).1.entries.lookup k = some e) :
    g.entries.lookup k = some e := by
  fun_induction evictToFit g needed with
  | case1 => exact h
  | case2 => exact h
  | case3 => exact h
  | case4 _ _ _ _ _ _ _ _ _ hg ih => rw [hg] at ih; exact ih h
  | case5 _ _ _ _ _ _ _ _ _ _ hg ih => rw [hg] at ih; exact (lookup_erase_iff.mp (ih h)).2

theorem evictToFit_shape (g : Group) (needed : Nat) : SameShape g (g.evictToFit needed).1 := by
  fun_induction evictToFit g needed with
  | case1 => exact .refl _
  | case2 => exact .refl _
  | case3 => exact ⟨rfl, rfl, rfl⟩
  | case4 _ _ _ _ _ _ _ _ _ hg ih => rw [hg] at ih; exact ⟨ih.pattern, ih.bounded, ih.capacityBytes⟩
  | case5 _ _ _ _ _ _ _ _ _ _ hg ih => rw [hg] at ih; exact ⟨ih.pattern, ih.bounded, ih.capacityBytes⟩

/-- The loop of `Clear(start_key, filter)` takes away what it is given and matches. -/
theorem clearMatching_lookup (filter : InMemCacheBlock → Bool) :
    ∀ (l : List (Σ _ : InMemCacheBlock, PolicyEntry)) (g : Group),
      (clearMatching filter l g).entries.lookup k = some e ↔
        g.entries.lookup k = some e ∧ (filter k = true → ∀ kv ∈ l, kv.1 ≠ k)
  | [], g => by simp [clearMatching]
  | ⟨key, e'⟩ :: rest, g => by
    rw [clearMatching, List.forall_mem_cons]
    split
    next hf =>
      rw [clearMatching_lookup filter rest, lookup_erase_iff]
      refine ⟨fun h => ⟨h.1.2, fun hk => ⟨Ne.symm h.1.1, h.2 hk⟩⟩,
        fun h => ⟨⟨fun hk => ?_, h.1⟩, fun hk => (h.2 hk).2⟩⟩
      exact (h.2 (hk ▸ hf)).1 hk.symm
    next hf =>
      rw [clearMatching_lookup filter rest]
      exact ⟨fun h => ⟨h.1, fun hk => ⟨fun he => hf (by rw [show key = k from he]; exact hk), h.2 hk⟩⟩,
        fun h => ⟨h.1, fun hk => (h.2 hk).2⟩⟩

theorem clearMatching_shape (filter : InMemCacheBlock → Bool) :
    ∀ (l : List (Σ _ : InMemCacheBlock, PolicyEntry)) (g : Group), SameShape g (clearMatching filter l g)
  | [], g => .refl g
  | ⟨key, e⟩ :: rest, g => by
    rw [clearMatching]
    split
    · have h := clearMatching_shape filter rest (g.removeEntry key e)
      exact ⟨h.pattern, h.bounded, h.capacityBytes⟩
    · exact clearMatching_shape filter rest g

end Group

namespace PolicyStorage

/-! ## Which group a path is assigned -/

theorem chooseGroup_congr {groups groups' : List Group} (h : groups'.map Group.shape = groups.map Group.shape)
    (fname : String) : chooseGroup groups' fname = chooseGroup groups fname := by
  replace h : groups'.map (·.pattern) = groups.map (·.pattern) := by
    simpa only [List.map_map, Function.comp_def, Group.shape] using congrArg (List.map (·.1)) h
  have hlen : groups'.length = groups.length := by simpa using congrArg List.length h
  have hidx : ∀ gs : List Group,
    gs.findIdx? (fun g => decide (g.pattern ≠ "") && decide (g.pattern.toList <:+: fname.toList)) =
      (gs.map (·.pattern)).findIdx? fun p => decide (p ≠ "") && decide (p.toList <:+: fname.toList) := by
    intro gs
    rw [List.findIdx?_map]
    rfl
  rw [chooseGroup, chooseGroup, hidx, hidx, h, hlen]

theorem chooseGroup_lt {groups : List Group} (h : groups ≠ []) (fname : String) :
    chooseGroup groups fname < groups.length := by
  have hpos := List.length_pos_iff.mpr h
  unfold chooseGroup
  cases hi : groups.findIdx? fun g => decide (g.pattern ≠ "") && decide (g.pattern.toList <:+: fname.toList) with
  | none => exact Nat.sub_lt hpos Nat.one_pos
  | some i => exact (List.findIdx?_eq_some_iff_getElem.mp hi).1

/-- The entry a group has under a key. -/
def lookupIn (s : PolicyStorage) (i : Nat) (k : InMemCacheBlock) : Option PolicyEntry :=
  (s.groups[i]?).bind (·.entries.lookup k)

/-- An entry is in the group its path is assigned, which the memo
remembers, and points at a block that exists. -/
structure Routed (s : PolicyStorage) : Prop where
  placed : ∀ (i : Nat) k e, s.lookupIn i k = some e → chooseGroup s.groups k.fname = i
  memo : ∀ fname i, s.groupByFile.lookup fname = some i → i = chooseGroup s.groups fname
  nonempty : s.groups ≠ []
  pointed : ∀ (i : Nat) k e, s.lookupIn i k = some e → e.data < s.heap.length

/-- What an operation that allocates the blocks `alloc` does to a storage. -/
structure Moves (s s' : PolicyStorage) (alloc : List InMemCacheDataEntry) : Prop where
  shapes : s'.groups.map Group.shape = s.groups.map Group.shape
  memo : ∀ fname i, s'.groupByFile.lookup fname = some i →
    s.groupByFile.lookup fname = some i ∨ i = chooseGroup s.groups fname
  heap : s'.heap = s.heap ++ alloc
  kept : ∀ (i : Nat) k e, s'.lookupIn i k = some e →
    s.lookupIn i k = some e ∨ (chooseGroup s.groups k.fname = i ∧ e.data = s.heap.length ∧ alloc ≠ [])
  timeoutMillisec : s'.timeoutMillisec = s.timeoutMillisec

variable {s s' s'' : PolicyStorage} {alloc : List InMemCacheDataEntry}

theorem Moves.refl (s : PolicyStorage) : Moves s s [] :=
  ⟨rfl, fun _ _ h => .inl h, (List.append_nil _).symm, fun _ _ _ h => .inl h, rfl⟩

/-- First something that allocates nothing. -/
theorem Moves.trans (h : Moves s s' []) (h' : Moves s' s'' alloc) : Moves s s'' alloc := by
  have hheap : s'.heap = s.heap := by rw [h.heap, List.append_nil]
  refine ⟨h'.shapes.trans h.shapes, fun f i hi => ?_, by rw [h'.heap, hheap], fun i k e he => ?_,
    h'.timeoutMillisec.trans h.timeoutMillisec⟩
  · rcases h'.memo f i hi with hi | hi
    · exact h.memo f i hi
    · exact .inr (by rw [hi, chooseGroup_congr h.shapes])
  · rcases h'.kept i k e he with he | ⟨hi, hd, ha⟩
    · rcases h.kept i k e he with he | ⟨_, _, ha⟩
      · exact .inl he
      · exact absurd rfl ha
    · exact .inr ⟨by rw [← chooseGroup_congr h.shapes]; exact hi, by rw [hd, hheap], ha⟩

theorem Moves.routed (h : Moves s s' alloc) (hs : s.Routed) : s'.Routed := by
  have hch := chooseGroup_congr h.shapes
  refine ⟨fun i k e he => ?_, fun f i hi => ?_, fun hn => ?_, fun i k e he => ?_⟩
  · rw [hch]
    rcases h.kept i k e he with he | ⟨hi, _⟩
    · exact hs.placed i k e he
    · exact hi
  · rw [hch]
    rcases h.memo f i hi with hi | hi
    · exact hs.memo f i hi
    · exact hi
  · have hm := h.shapes
    rw [hn, List.map_nil, eq_comm, List.map_eq_nil_iff] at hm
    exact hs.nonempty hm
  · rw [h.heap, List.length_append]
    rcases h.kept i k e he with he | ⟨_, hd, ha⟩
    · have := hs.pointed i k e he
      omega
    · have := List.length_pos_iff.mpr ha
      omega

theorem lookupIn_set {i j : Nat} {g' : Group} {k : InMemCacheBlock} {e : PolicyEntry}
    (hs : s'.groups = s.groups.set i g') (h : s'.lookupIn j k = some e) :
    (j ≠ i ∧ s.lookupIn j k = some e) ∨ (j = i ∧ g'.entries.lookup k = some e) := by
  simp only [lookupIn, hs, List.getElem?_set] at h
  split at h
  next hij =>
    subst hij
    split at h
    · exact .inr ⟨rfl, h⟩
    · cases h
  next hij => exact .inl ⟨Ne.symm hij, h⟩

/-- One group changed. -/
theorem Moves.set {i : Nat} {g g' : Group} (hg : s.groups[i]? = some g) (hp : g'.shape = g.shape)
    (hkept : ∀ k e, g'.entries.lookup k = some e →
      g.entries.lookup k = some e ∨ (chooseGroup s.groups k.fname = i ∧ e.data = s.heap.length ∧ alloc ≠ [])) :
    Moves s { s with groups := s.groups.set i g', heap := s.heap ++ alloc } alloc := by
  refine ⟨?_, fun _ _ h => .inl h, rfl, fun j k e he => ?_, rfl⟩
  · rw [List.map_set, hp]
    refine List.ext_getElem? fun j => ?_
    rw [List.getElem?_set]
    split
    next hij =>
      subst hij
      obtain ⟨hlt, he⟩ := List.getElem?_eq_some_iff.mp hg
      simp [hlt, he]
    next => rfl
  · rcases lookupIn_set rfl he with ⟨_, hold⟩ | ⟨rfl, hnew⟩
    · exact .inl hold
    · rcases hkept k e hnew with hold | hnew
      · exact .inl (by rw [lookupIn, hg]; exact hold)
      · exact .inr hnew

/-- One group changed and nothing allocated. -/
theorem Moves.setOnly {i : Nat} {g g' : Group} (hg : s.groups[i]? = some g) (hp : g'.shape = g.shape)
    (hkept : ∀ k e, g'.entries.lookup k = some e → g.entries.lookup k = some e) :
    Moves s { s with groups := s.groups.set i g' } [] := by
  have h : Moves s { s with groups := s.groups.set i g', heap := s.heap ++ [] } [] :=
    Moves.set hg hp fun k e he => .inl (hkept k e he)
  rwa [List.append_nil] at h

/-- Every group changed in the same way. -/
theorem Moves.map {f : Group → Group}
    (hf : ∀ g, (f g).shape = g.shape ∧ ∀ k e, (f g).entries.lookup k = some e → g.entries.lookup k = some e) :
    Moves s { s with groups := s.groups.map f } [] := by
  refine ⟨?_, fun _ _ h => .inl h, (List.append_nil _).symm, fun i k e he => .inl ?_, rfl⟩
  · rw [List.map_map]
    exact List.map_congr_left fun g _ => (hf g).1
  · simp only [lookupIn, List.getElem?_map] at he ⊢
    cases hg : s.groups[i]? with
    | none => simp [hg] at he
    | some g =>
      simp only [hg, Option.map_some, Option.bind_some] at he
      exact (hf g).2 k e he

/-! ## The operations -/

theorem groupFor_fst (h : s.Routed) (fname : String) : (s.groupFor fname).1 = chooseGroup s.groups fname := by
  unfold groupFor
  split
  next i hi => exact h.memo fname i hi
  next => rfl

theorem groupFor_eq (s : PolicyStorage) (fname : String) :
    (s.groupFor fname).2 = { s with groupByFile := (s.groupFor fname).2.groupByFile } := by
  unfold groupFor
  split <;> rfl

theorem groupFor_moves (s : PolicyStorage) (fname : String) : Moves s (s.groupFor fname).2 [] := by
  refine ⟨by rw [groupFor_eq], fun f i hi => ?_, by rw [groupFor_eq, List.append_nil], fun i k e he => ?_,
    by rw [groupFor_eq]⟩
  · unfold groupFor at hi
    split at hi
    next => exact .inl hi
    next =>
      by_cases hf : f = fname
      · subst hf
        rw [AList.lookup_insert] at hi
        exact .inr (Option.some.inj hi).symm
      · rw [AList.lookup_insert_ne hf] at hi
        exact .inl hi
  · rw [groupFor_eq] at he
    exact .inl he

variable {key k : InMemCacheBlock}

/-- The group of a key exists. -/
theorem exists_group (h : s.Routed) (fname : String) : ∃ g, s.groups[chooseGroup s.groups fname]? = some g :=
  ⟨_, List.getElem?_eq_getElem (chooseGroup_lt h.nonempty fname)⟩

/-- `Put` refuses a block over its group's budget, else it makes room and inserts it. -/
theorem put_cases (h : s.Routed) (now : Nat) (key : InMemCacheBlock) (chunk : PageAlignedDataChunk)
    (versionTag : String) :
    ∃ g, s.groups[chooseGroup s.groups key.fname]? = some g ∧
      ((g.bounded = true ∧ g.capacityBytes < chargedBytes chunk ∧
          s.put now key chunk versionTag = (s.groupFor key.fname).2) ∨
        ((g.bounded = true → chargedBytes chunk ≤ g.capacityBytes) ∧
          s.put now key chunk versionTag =
            let t := (s.groupFor key.fname).2
            { t with
              groups := t.groups.set (chooseGroup s.groups key.fname)
                (((g.removeExisting key).evictToFit (chargedBytes chunk)).1.insertEntry key
                  { data := t.heap.length, bytes := chargedBytes chunk, insertedAt := now })
              heap := t.heap ++ [{ data := chunk, versionTag }] })) := by
  obtain ⟨g, hg⟩ := exists_group h key.fname
  have hg' : (s.groupFor key.fname).2.groups[(s.groupFor key.fname).1]? = some g := by
    rw [groupFor_fst h, groupFor_eq]
    exact hg
  refine ⟨g, hg, ?_⟩
  simp only [put, hg', EvictionPolicy.admits, Bool.not_true, Bool.false_eq_true, ite_false]
  split
  next hrej =>
    simp only [Bool.and_eq_true, decide_eq_true_eq] at hrej
    exact .inl ⟨hrej.1, hrej.2, rfl⟩
  next hrej =>
    refine .inr ⟨fun hb => ?_, by rw [groupFor_fst h]⟩
    simpa [hb] using hrej

theorem put_moves (h : s.Routed) (now : Nat) (key : InMemCacheBlock) (chunk : PageAlignedDataChunk)
    (versionTag : String) : ∃ alloc, Moves s (s.put now key chunk versionTag) alloc ∧
      (alloc = [] ∨ alloc = [{ data := chunk, versionTag }]) := by
  obtain ⟨g, hg, ⟨_, _, he⟩ | ⟨_, he⟩⟩ := put_cases h now key chunk versionTag
  · exact ⟨[], by rw [he]; exact groupFor_moves s key.fname, .inl rfl⟩
  · refine ⟨_, ?_, .inr rfl⟩
    rw [he]
    have hgs : (s.groupFor key.fname).2.groups = s.groups := by rw [groupFor_eq]
    refine (groupFor_moves s key.fname).trans (Moves.set (g := g) (by rw [hgs]; exact hg) ?_ fun k e hk => ?_)
    · exact ((Group.removeExisting_shape g key).trans (Group.evictToFit_shape _ _)).shape_eq
    · by_cases hkey : k = key
      · subst hkey
        rw [Group.insertEntry, AList.lookup_insert] at hk
        cases hk
        exact .inr ⟨by rw [hgs], rfl, by simp⟩
      · rw [Group.insertEntry, AList.lookup_insert_ne hkey] at hk
        exact .inl (Group.removeExisting_lookup (Group.evictToFit_lookup hk)).2

/-- What `Get` can do: a miss; a stale entry, which goes; a hit. -/
theorem get_cases (h : s.Routed) (now : Nat) (key : InMemCacheBlock) (tag : String) :
    let i := chooseGroup s.groups key.fname
    let t := (s.groupFor key.fname).2
    ∃ g, s.groups[i]? = some g ∧
      ((g.entries.lookup key = none ∧
          s.get now key tag =
            (none, { t with groups := t.groups.set i { g with misses := u64 (g.misses + 1) } })) ∨
        ∃ e d, g.entries.lookup key = some e ∧ s.heap[e.data]? = some d ∧
          (((s.expired now e = true ∨ validateVersionTag d.versionTag tag = false) ∧ s.get now key tag =
              (none, { t with groups := t.groups.set i { g.removeEntry key e with misses := u64 (g.misses + 1) } })) ∨
            (s.expired now e = false ∧ validateVersionTag d.versionTag tag = true ∧ s.get now key tag =
              (some e.data, { t with
                groups := t.groups.set i { g with hits := u64 (g.hits + 1), policy := g.policy.onHit key } })))) := by
  intro i t
  obtain ⟨g, hg⟩ := exists_group h key.fname
  have hi : (s.groupFor key.fname).1 = i := groupFor_fst h key.fname
  have hg' : t.groups[i]? = some g := by
    rw [show t.groups = s.groups by rw [show t = _ from groupFor_eq s key.fname]]
    exact hg
  have hheap : t.heap = s.heap := by rw [show t = _ from groupFor_eq s key.fname]
  have hexp : ∀ e, t.expired now e = s.expired now e :=
    fun e => by rw [show t = _ from groupFor_eq s key.fname]; rfl
  refine ⟨g, hg, ?_⟩
  unfold get
  dsimp only
  rw [hi]
  simp only [show (s.groupFor key.fname).2 = t from rfl, hg', hheap, hexp]
  cases he : g.entries.lookup key with
  | none => exact .inl ⟨rfl, rfl⟩
  | some e =>
    have hlt : e.data < s.heap.length := h.pointed i key e (by rw [lookupIn, hg]; exact he)
    obtain ⟨d, hd⟩ : ∃ d, s.heap[e.data]? = some d := ⟨_, List.getElem?_eq_getElem hlt⟩
    refine .inr ⟨e, d, rfl, hd, ?_⟩
    simp only [hd]
    split
    next hst =>
      refine .inl ⟨?_, rfl⟩
      simpa using hst
    next hst =>
      refine .inr ?_
      simp only [Bool.or_eq_true, not_or, Bool.not_eq_true, Bool.not_eq_false'] at hst
      exact ⟨hst.1, hst.2, rfl⟩

theorem get_moves (h : s.Routed) (now : Nat) (key : InMemCacheBlock) (tag : String) :
    Moves s (s.get now key tag).2 [] := by
  have hgs : (s.groupFor key.fname).2.groups = s.groups := by rw [groupFor_eq]
  obtain ⟨g, hg, ⟨_, he⟩ | ⟨e, d, _, _, ⟨_, he⟩ | ⟨_, _, he⟩⟩⟩ := get_cases h now key tag
  all_goals
    rw [he]
    refine (groupFor_moves s key.fname).trans
      (Moves.setOnly (g := g) (by rw [hgs]; exact hg) rfl fun k e hk => ?_)
  · exact hk
  · exact (Group.lookup_erase_iff.mp hk).2
  · exact hk

theorem delete_cases (h : s.Routed) (key : InMemCacheBlock) :
    let t := (s.groupFor key.fname).2
    ∃ g, s.groups[chooseGroup s.groups key.fname]? = some g ∧
      ((g.entries.lookup key = none ∧ s.delete key = (false, t)) ∨
        ∃ e, g.entries.lookup key = some e ∧ s.delete key =
          (true, { t with groups := t.groups.set (chooseGroup s.groups key.fname) (g.removeEntry key e) })) := by
  intro t
  obtain ⟨g, hg⟩ := exists_group h key.fname
  have hg' : t.groups[(s.groupFor key.fname).1]? = some g := by
    rw [groupFor_fst h, show t = _ from groupFor_eq s key.fname]
    exact hg
  refine ⟨g, hg, ?_⟩
  unfold delete
  simp only [show (s.groupFor key.fname).2 = t from rfl, hg']
  cases he : g.entries.lookup key with
  | none => exact .inl ⟨rfl, rfl⟩
  | some e => exact .inr ⟨e, rfl, by rw [groupFor_fst h]⟩

theorem delete_moves (h : s.Routed) (key : InMemCacheBlock) : Moves s (s.delete key).2 [] := by
  have hgs : (s.groupFor key.fname).2.groups = s.groups := by rw [groupFor_eq]
  obtain ⟨g, hg, ⟨_, he⟩ | ⟨e, _, he⟩⟩ := delete_cases h key
  · rw [he]
    exact groupFor_moves s key.fname
  · rw [he]
    refine (groupFor_moves s key.fname).trans
      (Moves.setOnly (g := g) (by rw [hgs]; exact hg) rfl fun k e hk => ?_)
    exact (Group.lookup_erase_iff.mp hk).2

theorem clear_moves (s : PolicyStorage) : Moves s s.clear [] :=
  Moves.map fun g => ⟨rfl, fun k e hk => by rw [Group.clear, AList.lookup_empty] at hk; cases hk⟩

theorem clearFrom_moves (s : PolicyStorage) (hash : HashOrder (Σ _ : InMemCacheBlock, PolicyEntry))
    (startKey : InMemCacheBlock) (filter : InMemCacheBlock → Bool) :
    Moves s (s.clearFrom hash startKey filter) [] :=
  Moves.map fun g => ⟨(Group.clearMatching_shape filter _ g).shape_eq,
    fun _ _ hk => ((Group.clearMatching_lookup filter _ g).mp hk).1⟩

/-! ## The block held under a key -/

def resident (s : PolicyStorage) (k : InMemCacheBlock) : Option HeldBlock :=
  (s.lookupIn (chooseGroup s.groups k.fname) k).bind fun e =>
    (s.heap[e.data]?).map fun d => ⟨d.data, d.versionTag, steadyMillis e.insertedAt⟩

/-- `Put` refuses a block of this many bytes for this path. -/
def Refuses (s : PolicyStorage) (fname : String) (bytes : Nat) : Prop :=
  ∃ g, s.groups[chooseGroup s.groups fname]? = some g ∧ g.bounded = true ∧ g.capacityBytes < bytes

variable {b : HeldBlock}

theorem resident_iff : s.resident k = some b ↔ ∃ e d, s.lookupIn (chooseGroup s.groups k.fname) k = some e ∧
    s.heap[e.data]? = some d ∧ b = ⟨d.data, d.versionTag, steadyMillis e.insertedAt⟩ := by
  simp only [resident, Option.bind_eq_some_iff, Option.map_eq_some_iff]
  exact ⟨fun ⟨e, he, d, hd, hb⟩ => ⟨e, d, he, hd, hb.symm⟩, fun ⟨e, d, he, hd, hb⟩ => ⟨e, he, d, hd, hb.symm⟩⟩

theorem resident_none (h : s.lookupIn (chooseGroup s.groups k.fname) k = none) : s.resident k = none := by
  rw [resident, h]
  rfl

theorem Moves.refuses (h : Moves s s' alloc) {fname : String} {bytes : Nat} :
    s'.Refuses fname bytes → s.Refuses fname bytes := by
  intro ⟨g', hg', hb, hc⟩
  rw [chooseGroup_congr h.shapes] at hg'
  have hsh := congrArg (·[chooseGroup s.groups fname]?) h.shapes
  simp only [List.getElem?_map, hg', Option.map_some] at hsh
  obtain ⟨g, hg, he⟩ := Option.map_eq_some_iff.mp hsh.symm
  simp only [Group.shape, Prod.mk.injEq] at he
  exact ⟨g, hg, he.2.1.trans hb, by rw [he.2.2]; exact hc⟩

/-- An operation that allocates nothing only takes blocks away. -/
theorem Moves.resident (h : Moves s s' []) (hr : s'.resident k = some b) : s.resident k = some b := by
  obtain ⟨e, d, he, hd, hb⟩ := resident_iff.mp hr
  rw [chooseGroup_congr h.shapes] at he
  rw [h.heap, List.append_nil] at hd
  rcases h.kept _ k e he with he | ⟨_, _, ha⟩
  · exact resident_iff.mpr ⟨e, d, he, hd, hb⟩
  · exact absurd rfl ha

/-- After a `Put` a key holds what was put, or what it held: the key put
only if the block was refused. -/
theorem put_resident (h : s.Routed) {now : Nat} {chunk : PageAlignedDataChunk} {versionTag : String}
    (hr : (s.put now key chunk versionTag).resident k = some b) :
    (k = key ∧ b = ⟨chunk, versionTag, steadyMillis now⟩ ∧ ¬ s.Refuses key.fname (chargedBytes chunk)) ∨
      (s.resident k = some b ∧ (k = key → s.Refuses key.fname (chargedBytes chunk))) := by
  obtain ⟨g, hg, ⟨hb, hc, he⟩ | ⟨hcap, he⟩⟩ := put_cases h now key chunk versionTag
  · rw [he] at hr
    exact .inr ⟨(groupFor_moves s key.fname).resident hr, fun _ => ⟨g, hg, hb, hc⟩⟩
  · have hm := put_moves h now key chunk versionTag
    have hsh : chooseGroup (s.put now key chunk versionTag).groups k.fname = chooseGroup s.groups k.fname := by
      obtain ⟨_, hm, _⟩ := hm
      exact chooseGroup_congr hm.shapes _
    obtain ⟨e, d, hl, hd, hb⟩ := resident_iff.mp hr
    rw [hsh, he, groupFor_eq] at hl
    rw [he, groupFor_eq] at hd
    dsimp only at hl hd
    rcases lookupIn_set (s := s) rfl hl with ⟨hi, hold⟩ | ⟨hi, hnew⟩
    · refine .inr ⟨resident_iff.mpr ⟨e, d, hold, ?_, hb⟩, fun hk => absurd (by rw [hk]) hi⟩
      rwa [List.getElem?_append_left (h.pointed _ k e hold)] at hd
    · by_cases hk : k = key
      · subst hk
        rw [Group.insertEntry, AList.lookup_insert] at hnew
        cases hnew
        rw [List.getElem?_concat_length] at hd
        cases hd
        refine .inl ⟨rfl, hb, fun ⟨g', hg', hbd, hlt⟩ => ?_⟩
        rw [hg] at hg'
        cases hg'
        exact absurd (hcap hbd) (Nat.not_le.mpr hlt)
      · rw [Group.insertEntry, AList.lookup_insert_ne hk] at hnew
        have hold := (Group.removeExisting_lookup (Group.evictToFit_lookup hnew)).2
        have hl' : s.lookupIn (chooseGroup s.groups k.fname) k = some e := by
          rw [lookupIn, hi, hg]
          exact hold
        refine .inr ⟨resident_iff.mpr ⟨e, d, hl', ?_, hb⟩, fun he => absurd he hk⟩
        rwa [List.getElem?_append_left (h.pointed _ k e hl')] at hd

/-- An age in milliseconds below the timeout, in terms of the two readings. -/
theorem le_of_ageMillis_lt {now insertedAt timeout : Nat} (h : ageMillis now insertedAt < timeout)
    (hle : steadyMillis insertedAt ≤ steadyMillis now) (hnow : now < clockLimit) :
    steadyMillis now ≤ steadyMillis insertedAt + timeout := by
  unfold steadyMillis at *
  rcases Nat.le_total insertedAt now with hi | hi
  · have hage : ageMillis now insertedAt = (now - insertedAt) / 1000000 := by
      have hcast : ((now : Int) - insertedAt).tdiv 1000000 = ((now - insertedAt) / 1000000 : Nat) := by
        rw [← Int.natCast_sub hi]
        rfl
      have : now < 2 ^ 63 := hnow
      rw [ageMillis, hcast]
      omega
    omega
  · have := Nat.div_le_div_right (c := 1000000) hi
    omega

/-- A hit returns the block held, which serves the lookup; after a miss
nothing is held. -/
theorem get_spec (h : s.Routed) (now : Nat) (key : InMemCacheBlock) (tag : String) :
    match (s.get now key tag).1 with
    | some p => ∃ b, s.resident key = some b ∧ s.heap[p]? = some ⟨b.data, b.versionTag⟩ ∧
        (now < clockLimit → b.putMillis ≤ steadyMillis now → b.Serves s.timeoutMillisec now tag)
    | none => (s.get now key tag).2.resident key = none := by
  have hmove := get_moves h now key tag
  have hgs : (s.groupFor key.fname).2.groups = s.groups := by rw [groupFor_eq]
  obtain ⟨g, hg, ⟨hn, he⟩ | ⟨e, d, hl, hd, ⟨_, he⟩ | ⟨hexp, htag, he⟩⟩⟩ := get_cases h now key tag
  · rw [he] at hmove ⊢
    refine resident_none ?_
    rw [chooseGroup_congr hmove.shapes, lookupIn, hgs, List.getElem?_set_self' , hg]
    exact hn
  · rw [he] at hmove ⊢
    refine resident_none ?_
    rw [chooseGroup_congr hmove.shapes, lookupIn, hgs, List.getElem?_set_self', hg]
    exact AList.lookup_erase _ _
  · rw [he]
    have hres : s.resident key = some ⟨d.data, d.versionTag, steadyMillis e.insertedAt⟩ :=
      resident_iff.mpr ⟨e, d, by rw [lookupIn, hg]; exact hl, hd, rfl⟩
    refine ⟨_, hres, hd, fun hnow hpast => ⟨validateVersionTag_iff.mp htag, fun ht => ?_⟩⟩
    refine le_of_ageMillis_lt ?_ hpast hnow
    simpa [expired, ht] using hexp

theorem delete_resident (h : s.Routed) (key : InMemCacheBlock) : (s.delete key).2.resident key = none := by
  have hmove := delete_moves h key
  have hgs : (s.groupFor key.fname).2.groups = s.groups := by rw [groupFor_eq]
  refine resident_none ?_
  rw [chooseGroup_congr hmove.shapes]
  obtain ⟨g, hg, ⟨hn, he⟩ | ⟨e, _, he⟩⟩ := delete_cases h key
  · rw [he, lookupIn, hgs, hg]
    exact hn
  · rw [he, lookupIn, hgs, List.getElem?_set_self', hg]
    exact AList.lookup_erase _ _

theorem clear_resident (s : PolicyStorage) (k : InMemCacheBlock) : s.clear.resident k = none := by
  refine resident_none ?_
  rw [lookupIn, clear, List.getElem?_map]
  cases s.groups[chooseGroup (s.groups.map Group.clear) k.fname]? with
  | none => rfl
  | some g => exact AList.lookup_empty _

theorem clearFrom_resident (s : PolicyStorage) (hash : HashOrder (Σ _ : InMemCacheBlock, PolicyEntry))
    (startKey : InMemCacheBlock) {filter : InMemCacheBlock → Bool} (hk : filter k = true) :
    (s.clearFrom hash startKey filter).resident k = none := by
  refine resident_none (Option.eq_none_iff_forall_ne_some.mpr fun e he => ?_)
  rw [lookupIn, clearFrom, List.getElem?_map, Option.bind_eq_some_iff] at he
  obtain ⟨g', hg', he⟩ := he
  obtain ⟨g, _, rfl⟩ := Option.map_eq_some_iff.mp hg'
  obtain ⟨hold, hgone⟩ := (Group.clearMatching_lookup filter _ g).mp he
  have hmem : (⟨k, e⟩ : Σ _ : InMemCacheBlock, PolicyEntry) ∈ hash.order g.entries.entries :=
    (hash.perm _).mem_iff.mpr (AList.mem_lookup_iff.mp hold)
  exact hgone hk _ hmem rfl

/-- A clear leaves alone what its filter does not match. -/
theorem clearFrom_keeps (s : PolicyStorage) (hash : HashOrder (Σ _ : InMemCacheBlock, PolicyEntry))
    (startKey : InMemCacheBlock) {filter : InMemCacheBlock → Bool} (hk : filter k = false) :
    (s.clearFrom hash startKey filter).resident k = s.resident k := by
  have hlook : ∀ g : Group, (g.clearMatching filter (hash.order g.entries.entries)).entries.lookup k =
      g.entries.lookup k := by
    intro g
    refine Option.ext fun e => ?_
    rw [Group.clearMatching_lookup, hk]
    simp
  have hidx := chooseGroup_congr (s.clearFrom_moves hash startKey filter).shapes k.fname
  rw [resident, hidx]
  simp only [resident, lookupIn, clearFrom, List.getElem?_map, Option.bind_map, Function.comp_def, hlook]

/-- `Take` returns only blocks that were held. -/
theorem take_mem (h : s.Routed) (hash : HashOrder (Σ _ : InMemCacheBlock, PolicyEntry)) {p : Nat}
    (hp : (k, p) ∈ (s.take hash).1) : ∃ b, s.resident k = some b ∧ s.heap[p]? = some ⟨b.data, b.versionTag⟩ := by
  simp only [take, List.mem_flatMap, List.mem_map] at hp
  obtain ⟨g, hg, ⟨k', e⟩, hkv, hkp⟩ := hp
  obtain ⟨rfl, rfl⟩ := Prod.mk.inj hkp
  have hl : g.entries.lookup k' = some e := AList.mem_lookup_iff.mpr ((hash.perm _).mem_iff.mp hkv)
  obtain ⟨i, hi, hgi⟩ := List.getElem_of_mem hg
  have hli : s.lookupIn i k' = some e := by
    rw [lookupIn, List.getElem?_eq_getElem hi, hgi]
    exact hl
  have hlt := h.pointed i k' e hli
  rw [← h.placed i k' e hli] at hli
  exact ⟨_, resident_iff.mpr ⟨e, _, hli, List.getElem?_eq_getElem hlt, rfl⟩, List.getElem?_eq_getElem hlt⟩

theorem new_routed {maxBytes timeoutMillisec : Nat} {defaultPolicy : EvictionPolicyKind} {spec : List SpecEntry}
    (h : newPolicyStorage maxBytes timeoutMillisec defaultPolicy spec = .ok s) :
    s.Routed ∧ s.timeoutMillisec = timeoutMillisec ∧ ∀ i k, s.lookupIn i k = none := by
  have hnone : ∀ i k, s.lookupIn i k = none := by
    intro i k
    rw [lookupIn, Option.bind_eq_none_iff]
    intro g hg
    simp only [newPolicyStorage] at h
    split at h
    · cases h
    · cases h
      rcases List.mem_append.mp (List.mem_of_getElem? hg) with hg | hg
      · obtain ⟨e, _, rfl⟩ := List.mem_map.mp hg
        exact AList.lookup_empty _
      · obtain rfl := List.mem_singleton.mp hg
        exact AList.lookup_empty _
  refine ⟨⟨fun i k e he => ?_, fun f i hi => ?_, ?_, fun i k e he => ?_⟩, ?_, hnone⟩
  · rw [hnone] at he
    cases he
  all_goals simp only [newPolicyStorage] at h; split at h <;> cases h
  · simp at hi
  · simp
  · rw [hnone] at he
    cases he
  · rfl

end PolicyStorage

end ReadCacheFs
