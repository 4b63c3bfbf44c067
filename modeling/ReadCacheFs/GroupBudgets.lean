/-
The budgets of the groups a spec makes.

The constructor adds up the sizes in 64 bits, so a total of `2^64` or more
passes the check against the budget. And it takes a group for bounded when
there is a total budget, whether or not the group has a size of its own.
-/
import ReadCacheFs.FilePolicySpec
import ReadCacheFs.GroupIsolation

namespace ReadCacheFs

open Lib

/-- The constructor of `PolicyDataCacheStorage`. -/
def newPolicyDataCacheStorage (split : StringSplit) (percentOf : PercentOf) (maxBytes timeoutMillisec : Nat)
    (defaultPolicy filePolicySpec : String) (perFileScope : Bool) : Except Fault PolicyStorage :=
  match EvictionPolicyKind.ofName defaultPolicy with
  | none => .error (.invalidInput s!"Unknown eviction policy '{defaultPolicy}'")
  | some kind =>
    match if perFileScope then parseFilePolicySpec split percentOf maxBytes filePolicySpec else .ok [] with
    | .error f => .error f
    | .ok spec => newPolicyStorage maxBytes timeoutMillisec kind spec

/-- What a group without a size gets. -/
def leftoverShare (maxBytes : Nat) (spec : List SpecEntry) : Nat :=
  if maxBytes = 0 then 0
  else u64Sub maxBytes (u64 (spec.map (·.bytes)).sum) / u64 (1 + spec.countP fun e => e.bytes = 0)

variable {split : StringSplit} {percentOf : PercentOf} {maxBytes timeoutMillisec : Nat}
  {defaultPolicy filePolicySpec : String} {kind : EvictionPolicyKind} {spec : List SpecEntry} {s : PolicyStorage}

/-! ## What the constructor makes -/

theorem foldl_explicitBytes (spec : List SpecEntry) (n : Nat) :
    spec.foldl (fun n e => if 0 < e.bytes then u64 (n + e.bytes) else n) (u64 n) =
      u64 (n + (spec.map (·.bytes)).sum) := by
  induction spec generalizing n with
  | nil => rfl
  | cons e spec ih =>
    rw [List.foldl_cons, List.map_cons, List.sum_cons]
    split
    · have hu := u64_add n e.bytes
      rw [hu, ih, Nat.add_assoc]
    · have hz : e.bytes = 0 := by omega
      rw [ih, hz, Nat.zero_add]

theorem foldl_unsizedGroups (spec : List SpecEntry) (n : Nat) :
    spec.foldl (fun n e => if 0 < e.bytes then n else u64 (n + 1)) (u64 n) =
      u64 (n + spec.countP fun e => e.bytes = 0) := by
  induction spec generalizing n with
  | nil => rfl
  | cons e spec ih =>
    rw [List.foldl_cons, List.countP_cons]
    split
    · have hz : e.bytes ≠ 0 := by omega
      simp [ih, hz]
    · have hz : e.bytes = 0 := by omega
      have hu := u64_add n 1
      rw [hu, ih]
      simp [hz, Nat.add_assoc, Nat.add_comm]

/-- The pattern, the flag and the capacity of each group, the catch-all last. -/
def specShapes (maxBytes : Nat) (spec : List SpecEntry) : List (String × Bool × Nat) :=
  (spec.map fun e => (e.pattern, decide (0 < maxBytes), if 0 < e.bytes then e.bytes else leftoverShare maxBytes spec)) ++
    [("", decide (0 < maxBytes), leftoverShare maxBytes spec)]

/-- The groups, when the constructor does not throw. -/
structure Built (maxBytes : Nat) (spec : List SpecEntry) (s : PolicyStorage) : Prop where
  within : 0 < maxBytes → u64 (spec.map (·.bytes)).sum ≤ maxBytes
  shapes : s.groups.map Group.shape = specShapes maxBytes spec
  unused : ∀ g ∈ s.groups, g.usedBytes = 0 ∧ g.entries = ∅

theorem newPolicyStorage_built (h : newPolicyStorage maxBytes timeoutMillisec kind spec = .ok s) :
    Built maxBytes spec s := by
  have hexplicit := foldl_explicitBytes spec 0
  have hunsized := foldl_unsizedGroups spec 1
  rw [show u64 0 = 0 from rfl, Nat.zero_add] at hexplicit
  rw [show u64 1 = 1 from rfl] at hunsized
  simp only [newPolicyStorage, hexplicit, hunsized] at h
  split at h
  · cases h
  next hw =>
  cases h
  refine ⟨fun hpos => ?_, ?_, fun g hg => ?_⟩
  · by_contra hgt
    exact hw ⟨hpos, by omega⟩
  · simp only [List.map_append, List.map_map, List.map_cons, List.map_nil, Function.comp_def, Group.shape,
      specShapes,
      leftoverShare]
  · rcases List.mem_append.mp hg with hg | hg
    · obtain ⟨e, _, rfl⟩ := List.mem_map.mp hg
      exact ⟨rfl, rfl⟩
    · obtain rfl := List.mem_singleton.mp hg
      exact ⟨rfl, rfl⟩

theorem newPolicyDataCacheStorage_ok
    (h : newPolicyDataCacheStorage split percentOf maxBytes timeoutMillisec defaultPolicy filePolicySpec true = .ok s) :
    ∃ kind spec, parseFilePolicySpec split percentOf maxBytes filePolicySpec = .ok spec ∧
      newPolicyStorage maxBytes timeoutMillisec kind spec = .ok s := by
  simp only [newPolicyDataCacheStorage, if_true] at h
  split at h
  · cases h
  next kind _ =>
  split at h
  · cases h
  next spec hspec => exact ⟨kind, spec, hspec, h⟩

/-! ## The sum of the budgets -/

theorem sum_capacities (spec : List SpecEntry) (share : Nat) :
    (spec.map fun e => if 0 < e.bytes then e.bytes else share).sum =
      (spec.map (·.bytes)).sum + (spec.countP fun e => e.bytes = 0) * share := by
  induction spec with
  | nil => simp
  | cons e spec ih =>
    simp only [List.map_cons, List.sum_cons, List.countP_cons, ih]
    split
    · have hz : e.bytes ≠ 0 := by omega
      simp [hz, Nat.add_assoc]
    · have hz : e.bytes = 0 := by omega
      simp only [hz, decide_true, if_true, Nat.add_mul]
      omega

theorem Built.sum_eq (h : Built maxBytes spec s) :
    (s.groups.map (·.capacityBytes)).sum =
      (spec.map (·.bytes)).sum + (1 + spec.countP fun e => e.bytes = 0) * leftoverShare maxBytes spec := by
  have hcap := congrArg (List.map (·.2.2)) h.shapes
  simp only [List.map_map, Function.comp_def, Group.shape, specShapes, List.map_append, List.map_cons,
    List.map_nil] at hcap
  rw [hcap, List.sum_append, sum_capacities, List.sum_singleton, Nat.add_mul]
  omega

theorem length_le_of_parseFilePolicySpec
    (h : parseFilePolicySpec split percentOf maxBytes filePolicySpec = .ok spec) :
    spec.length ≤ filePolicySpec.length + 1 := by
  rw [parseFilePolicySpec_eq, parseParts_ok, split_parts] at h
  rw [← h.length_eq, specParts]
  refine (List.length_filter_le _ _).trans ?_
  rw [List.length_map, ← String.length_toList]
  exact length_splitOn_le _ _

/-- **The budgets sum to at most the total** exactly when the sizes of the
spec do not sum to more than 64 bits hold. A `std::string` has fewer than
`2^63` characters, so the groups can be counted. -/
theorem sum_capacities_le_iff (split : StringSplit) (percentOf : PercentOf) (maxBytes timeoutMillisec : Nat)
    (defaultPolicy filePolicySpec : String) (s : PolicyStorage) (hpos : 0 < maxBytes)
    (hmax : maxBytes < 2 ^ 64) (hlen : filePolicySpec.length < 2 ^ 63)
    (h : newPolicyDataCacheStorage split percentOf maxBytes timeoutMillisec defaultPolicy filePolicySpec true = .ok s) :
    ∃ spec, parseFilePolicySpec split percentOf maxBytes filePolicySpec = .ok spec ∧
      ((s.groups.map (·.capacityBytes)).sum ≤ maxBytes ↔ (spec.map (·.bytes)).sum < 2 ^ 64) := by
  obtain ⟨kind, spec, hspec, hnew⟩ := newPolicyDataCacheStorage_ok h
  have hb := newPolicyStorage_built hnew
  have hcount : 1 + spec.countP (fun e => e.bytes = 0) < 2 ^ 64 := by
    have h1 := length_le_of_parseFilePolicySpec hspec
    have h2 := List.countP_le_length (p := fun e : SpecEntry => decide (e.bytes = 0)) (l := spec)
    omega
  refine ⟨spec, hspec, ?_⟩
  rw [hb.sum_eq]
  constructor
  · intro hle
    omega
  · intro hfit
    have hw := hb.within hpos
    rw [u64_eq hfit] at hw
    rw [leftoverShare, if_neg (by omega), u64_eq hfit, u64_eq hcount, u64Sub_eq hw hmax]
    have hdiv := Nat.mul_div_le (maxBytes - (spec.map (·.bytes)).sum) (1 + spec.countP fun e => e.bytes = 0)
    omega

theorem sum_capacities_le_iff_shares :
    ∃ s, newPolicyDataCacheStorage .keepEmpty (fun _ _ => .malformed) 100 0 "lru" "a=lru:40;b=mru" true = .ok s ∧
      (s.groups.map (·.capacityBytes)).sum ≤ 100 := by
  have hparse : parseFilePolicySpec .keepEmpty (fun _ _ => .malformed) 100 "a=lru:40;b=mru" =
      .ok [⟨"a", .lru, 40⟩, ⟨"b", .mru, 0⟩] := rfl
  obtain ⟨s, hs⟩ : ∃ s,
    newPolicyDataCacheStorage .keepEmpty (fun _ _ => .malformed) 100 0 "lru" "a=lru:40;b=mru" true =
    .ok s := ⟨_, rfl⟩
  obtain ⟨spec, hspec, hiff⟩ :=
    sum_capacities_le_iff .keepEmpty (fun _ _ => .malformed) 100 0 "lru" "a=lru:40;b=mru" s
    (by decide) (by decide) (by decide) hs
  cases hparse.symm.trans hspec
  exact ⟨s, hs, hiff.mpr (by decide)⟩

/-- Two halves of `2^64` add up to nothing. -/
theorem sum_capacities_wraps :
    ∃ s, newPolicyDataCacheStorage .keepEmpty (fun _ _ => .malformed) 1 0 "lru"
        "a=lru:9223372036854775808;b=lru:9223372036854775808" true = .ok s ∧
      ¬ (s.groups.map (·.capacityBytes)).sum ≤ 1 :=
  ⟨_, rfl, by decide +kernel⟩

/-! ## The size of one group -/

/-- The pattern of an earlier entry occurs in that of entry `i`, so no path
is ever assigned to `i`. -/
def Shadowed (spec : List SpecEntry) (i : Nat) (e : SpecEntry) : Prop :=
  ∃ j e', j < i ∧ spec[j]? = some e' ∧ e'.pattern.toList <:+: e.pattern.toList

theorem checkEntry_pattern {pattern policy entry : List Char} {bytes : Nat} {e : SpecEntry}
    (h : checkEntry pattern policy bytes entry = .ok e) : e.pattern ≠ "" := by
  obtain ⟨hne, kind, -, rfl⟩ := checkEntry_ok.mp h
  intro he
  exact hne (by simpa using congrArg String.toList he)

theorem parseFilePolicySpec_pattern (h : parseFilePolicySpec split percentOf maxBytes filePolicySpec = .ok spec) :
    ∀ e ∈ spec, e.pattern ≠ "" := by
  rw [parseFilePolicySpec_eq, parseParts_ok] at h
  intro e he
  obtain ⟨part, hpart⟩ := forall₂_mem h.flip he
  simp only [parseEntry] at hpart
  split at hpart
  · cases hpart
  split at hpart
  · exact checkEntry_pattern hpart
  split at hpart
  · cases hpart
  · exact checkEntry_pattern hpart

theorem groupOf_eq_iff (hne : ∀ e ∈ spec, e.pattern ≠ "") {i : Nat} {e : SpecEntry} (hi : spec[i]? = some e)
    (fname : String) : groupOf spec fname = i ↔ e.pattern.toList <:+: fname.toList ∧
      ∀ j e', j < i → spec[j]? = some e' → ¬ e'.pattern.toList <:+: fname.toList := by
  obtain ⟨hlt, hget⟩ := List.getElem?_eq_some_iff.mp hi
  have hmatch : ∀ {j : Nat} (hj : j < spec.length),
      (decide (spec[j].pattern ≠ "") && decide (spec[j].pattern.toList <:+: fname.toList)) = true ↔
        spec[j].pattern.toList <:+: fname.toList := by
    intro j hj
    simp [hne _ (List.getElem_mem hj)]
  unfold groupOf
  cases hf : spec.findIdx? fun e => decide (e.pattern ≠ "") && decide (e.pattern.toList <:+: fname.toList) with
  | none =>
    have hnone := List.findIdx?_eq_none_iff.mp hf e (List.mem_of_getElem? hi)
    have hnot : ¬ e.pattern.toList <:+: fname.toList := by simpa [hne e (List.mem_of_getElem? hi)] using hnone
    rw [Option.getD_none]
    exact ⟨fun he => by omega, fun h => absurd h.1 hnot⟩
  | some m =>
    obtain ⟨hm, hpm, hbefore⟩ := List.findIdx?_eq_some_iff_getElem.mp hf
    rw [Option.getD_some]
    constructor
    · intro he
      subst he
      refine ⟨hget ▸ (hmatch hm).mp hpm, fun j e' hj he' hin => ?_⟩
      obtain ⟨hj', rfl⟩ := List.getElem?_eq_some_iff.mp he'
      exact hbefore j hj ((hmatch hj').mpr hin)
    · intro h
      rcases Nat.lt_trichotomy m i with hmi | hmi | hmi
      · exact absurd ((hmatch hm).mp hpm) (h.2 m _ hmi (List.getElem?_eq_getElem hm))
      · exact hmi
      · exact absurd ((hmatch hlt).mpr (hget ▸ h.1)) (hbefore i hmi)

theorem Shadowed.groupOf_ne (hne : ∀ e ∈ spec, e.pattern ≠ "") {i : Nat} {e : SpecEntry} (hi : spec[i]? = some e)
    (h : Shadowed spec i e) (fname : String) : groupOf spec fname ≠ i := by
  intro he
  obtain ⟨j, e', hj, he', hin⟩ := h
  obtain ⟨hocc, hbefore⟩ := (groupOf_eq_iff hne hi fname).mp he
  exact hbefore j e' hj he' (hin.trans hocc)

/-- The pattern itself is a path assigned to an entry that is not shadowed. -/
theorem groupOf_pattern (hne : ∀ e ∈ spec, e.pattern ≠ "") {i : Nat} {e : SpecEntry} (hi : spec[i]? = some e)
    (h : ¬ Shadowed spec i e) : groupOf spec e.pattern = i :=
  (groupOf_eq_iff hne hi e.pattern).mpr ⟨List.infix_refl _, fun j e' hj he' hin => h ⟨j, e', hj, he', hin⟩⟩

/-- What holds of the storage in every run: the accounting, where entries
are, and the shapes the groups were built with. -/
structure BudgetInv (maxBytes : Nat) (spec : List SpecEntry) (s : PolicyStorage) : Prop where
  ok : s.OK
  grouped : PolicyStorage.Grouped spec s
  shapes : s.groups.map Group.shape = specShapes maxBytes spec

theorem budgetInv_new (h : newPolicyStorage maxBytes timeoutMillisec kind spec = .ok s) :
    BudgetInv maxBytes spec s :=
  ⟨(PolicyStorage.new_ok h).1, ⟨(PolicyStorage.new_routed h).1, PolicyStorage.chooseGroup_new h⟩,
    (newPolicyStorage_built h).shapes⟩

theorem BudgetInv.step {s s' : PolicyStorage} {a : PolicyAct} (h : BudgetInv maxBytes spec s)
    (hfit : FitsMemory s a) (hs : policyStep s a = some s') : BudgetInv maxBytes spec s' := by
  obtain ⟨alloc, hm⟩ := PolicyStorage.policyStep_moves h.grouped.routed hs
  exact ⟨policyStep_ok h.ok hfit hs, h.grouped.step hs, hm.shapes.trans h.shapes⟩

theorem BudgetInv.shape_eq (h : BudgetInv maxBytes spec s) {i : Nat} {e : SpecEntry}
    (hi : spec[i]? = some e) (hpos : 0 < e.bytes) {g : Group} (hg : s.groups[i]? = some g) :
    g.shape = (e.pattern, decide (0 < maxBytes), e.bytes) := by
  have hget := congrArg (·[i]?) h.shapes
  simp only [List.getElem?_map, hg, Option.map_some] at hget
  rw [specShapes, List.getElem?_append_left (by simpa using (List.getElem?_eq_some_iff.mp hi).1),
    List.getElem?_map, hi,
    Option.map_some, if_pos hpos] at hget
  exact Option.some.inj hget

theorem BudgetInv.shadowed (h : BudgetInv maxBytes spec s) (hne : ∀ e ∈ spec, e.pattern ≠ "") {i : Nat}
    {e : SpecEntry} (hi : spec[i]? = some e) (hsh : Shadowed spec i e) {g : Group} (hg : s.groups[i]? = some g) :
    g.usedBytes = 0 := by
  have hnone : ∀ k, g.entries.lookup k = none := by
    intro k
    rw [Option.eq_none_iff_forall_ne_some]
    intro x hx
    have hplaced := h.ok.placed i k x (by rw [PolicyStorage.lookupIn, hg]; exact hx)
    rw [h.grouped.chosen] at hplaced
    exact hsh.groupOf_ne hne hi k.fname hplaced
  have hkeys : g.entries.keys = [] := by
    rw [List.eq_nil_iff_forall_not_mem]
    intro k hk
    exact AList.lookup_eq_none.mp (hnone k) (AList.mem_keys.mpr hk)
  rw [(h.ok.groups g (List.mem_of_getElem? hg)).used, Group.residentBytes, List.map_eq_nil_iff.mp hkeys]
  rfl

theorem Built.residentBytes (h : Built maxBytes spec s) : s.residentBytes = 0 := by
  rw [PolicyStorage.residentBytes, List.sum_eq_zero_iff_forall_eq_nat]
  intro n hn
  obtain ⟨g, hg, rfl⟩ := List.mem_map.mp hn
  rw [Group.residentBytes, (h.unused g hg).2]
  rfl

def chunkOf (n : Nat) : PageAlignedDataChunk := { chunk := some [], length := n, capacity := n }

/-- Without a total budget the group of an entry takes a block of any size. -/
theorem put_unbounded (h : newPolicyStorage 0 timeoutMillisec kind spec = .ok s)
    (hne : ∀ e ∈ spec, e.pattern ≠ "") {i : Nat} {e : SpecEntry} (hi : spec[i]? = some e)
    (hopen : ¬ Shadowed spec i e) {n : Nat} (hpos : 0 < n) (hn : n < 2 ^ 64) :
    FitsMemory s (.put 0 ⟨e.pattern, 0, n⟩ (chunkOf n) "") ∧
      ∃ g, (s.put 0 ⟨e.pattern, 0, n⟩ (chunkOf n) "").groups[i]? = some g ∧ g.usedBytes = n := by
  have hb := newPolicyStorage_built h
  have hinv := budgetInv_new h
  have hcharged : chargedBytes (chunkOf n) = n := if_pos hpos
  have hfit : s.residentBytes + chargedBytes (chunkOf n) < 2 ^ 64 := by
    rw [hb.residentBytes, hcharged, Nat.zero_add]
    exact hn
  refine ⟨hfit, ?_⟩
  have hgroup : PolicyStorage.chooseGroup s.groups e.pattern = i :=
    (hinv.grouped.chosen e.pattern).trans (groupOf_pattern hne hi hopen)
  obtain ⟨g, hg, ⟨hbounded, _, _⟩ | ⟨hcap, he⟩⟩ :=
    PolicyStorage.put_cases hinv.ok.toRouted 0 ⟨e.pattern, 0, n⟩ (chunkOf n) ""
  · have := hinv.ok.bounded g (List.mem_of_getElem? hg)
    rw [hbounded, (PolicyStorage.new_ok h).2] at this
    cases this
  · have hgs : (s.groupFor e.pattern).2.groups = s.groups := by rw [PolicyStorage.groupFor_eq]
    have hev := (PolicyStorage.put_evicted hinv.ok ⟨e.pattern, 0, n⟩ hg hcap hfit).1
    have hle := (Group.removeExisting_ok (hinv.ok.groups g (List.mem_of_getElem? hg)) ⟨e.pattern, 0, n⟩).2.1
    have hzero := (hb.unused g (List.mem_of_getElem? hg)).1
    have hused := hev.used_le
    rw [he]
    dsimp only at hg ⊢
    rw [hgroup] at hg ⊢
    rw [hgs, List.getElem?_set_self (List.getElem?_eq_some_iff.mp hg).1]
    refine ⟨_, rfl, ?_⟩
    simp only [Group.insertEntry, hcharged] at hused ⊢
    rw [u64_eq (by omega)]
    omega

/-- **A group stays within its own size** in every run exactly when there is
a total budget, or no path is assigned to any group with a size that a
counter could exceed. -/
theorem sizedGroup_within_iff (split : StringSplit) (percentOf : PercentOf) (maxBytes timeoutMillisec : Nat)
    (defaultPolicy filePolicySpec : String) (spec : List SpecEntry) (s₀ : PolicyStorage)
    (hspec : parseFilePolicySpec split percentOf maxBytes filePolicySpec = .ok spec)
    (hnew : newPolicyDataCacheStorage split percentOf maxBytes timeoutMillisec defaultPolicy filePolicySpec true = .ok s₀) :
    (∀ as s, exec policyStep s₀ as = some s → Guarded policyStep FitsMemory s₀ as →
      ∀ (i : Nat) e g, spec[i]? = some e → 0 < e.bytes → s.groups[i]? = some g → g.usedBytes ≤ e.bytes) ↔
    (0 < maxBytes ∨ ∀ (i : Nat) e, spec[i]? = some e → 0 < e.bytes → Shadowed spec i e ∨
      2 ^ 64 - 1 ≤ e.bytes) := by
  obtain ⟨kind, spec', hspec', hbuild⟩ := newPolicyDataCacheStorage_ok hnew
  cases hspec.symm.trans hspec'
  have hne := parseFilePolicySpec_pattern hspec
  have hstart := budgetInv_new hbuild
  constructor
  · intro hall
    by_contra hcond
    rw [not_or, Nat.not_lt, Nat.le_zero] at hcond
    obtain ⟨rfl, hcond⟩ := hcond
    apply hcond
    intro i e hi hpos
    by_contra hbad
    rw [not_or, Nat.not_le] at hbad
    obtain ⟨hopen, hlt⟩ := hbad
    obtain ⟨hfit, g, hg, hused⟩ := put_unbounded hbuild hne hi hopen (Nat.succ_pos e.bytes) (by omega)
    have hrun := hall [.put 0 ⟨e.pattern, 0, e.bytes + 1⟩ (chunkOf (e.bytes + 1)) ""] _ rfl
      ⟨hfit, fun _ _ => trivial⟩
    have hle := hrun i e g hi hpos hg
    omega
  · intro hcond as s hs hfit i e g hi hpos hg
    have h : BudgetInv maxBytes spec s :=
      exec_guarded_invariant (I := BudgetInv maxBytes spec) (fun _ _ _ hi hf hx => hi.step hf hx) hfit hs hstart
    have hok := h.ok.groups g (List.mem_of_getElem? hg)
    have hshape := h.shape_eq hi hpos hg
    simp only [Group.shape, Prod.mk.injEq] at hshape
    rcases hcond with hmax | hcond
    · rw [← hshape.2.2]
      exact hok.room (by simpa [hmax] using hshape.2.1)
    · rcases hcond i e hi hpos with hsh | hbig
      · rw [h.shadowed hne hi hsh hg]
        exact Nat.zero_le _
      · have := hok.lt
        omega

theorem sizedGroup_within_iff_budget :
    ∃ s₀, newPolicyDataCacheStorage .keepEmpty (fun _ _ => .malformed) 100 0 "lru" "a=lru:40" true = .ok s₀ ∧
      ∀ as s, exec policyStep s₀ as = some s → Guarded policyStep FitsMemory s₀ as →
        ∀ (i : Nat) e g, [(⟨"a", .lru, 40⟩ : SpecEntry)][i]? = some e → 0 < e.bytes → s.groups[i]? = some g →
          g.usedBytes ≤ e.bytes := by
  obtain ⟨s₀, hs⟩ : ∃ s₀,
    newPolicyDataCacheStorage .keepEmpty (fun _ _ => .malformed) 100 0 "lru" "a=lru:40" true =
    .ok s₀ := ⟨_, rfl⟩
  exact ⟨s₀, hs, (sizedGroup_within_iff .keepEmpty (fun _ _ => .malformed) 100 0 "lru" "a=lru:40"
    [⟨"a", .lru, 40⟩] s₀
    rfl hs).mpr (.inl (by decide))⟩

/-- Two bytes in a group of one, when there is no total budget. -/
theorem sizedGroup_unbounded :
    ∃ s₀ s, parseFilePolicySpec .keepEmpty (fun _ _ => .malformed) 0 "a=lru:1" = .ok [⟨"a", .lru, 1⟩] ∧
      newPolicyDataCacheStorage .keepEmpty (fun _ _ => .malformed) 0 0 "lru" "a=lru:1" true = .ok s₀ ∧
      exec policyStep s₀ [.put 0 ⟨"a", 0, 2⟩ (chunkOf 2) ""] = some s ∧ s.groups.map (·.usedBytes) = [2, 0] :=
  ⟨_, _, rfl, rfl, rfl, by decide +kernel⟩

end ReadCacheFs
