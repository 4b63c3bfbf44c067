/-
Caches of keys of one size, as lists: what an access does to the keys
resident.

A policy is what a hit does to the list and what is left of it when a victim
has gone. `full m` says that there is no room for one more with `m` keys
resident; where there is no room for a single one, none is ever let in.
-/
import Mathlib.Data.List.Infix
import Mathlib.Data.List.Nodup
import Mathlib.Data.List.Perm.Subperm
import ReadCacheFs.Lib.Runs

namespace Lib

variable {κ : Type*} [DecidableEq κ]

structure Replacement (κ : Type*) where
  hit : κ → List κ → List κ
  evict : List κ → List κ

namespace Replacement

def moveToFront (k : κ) (l : List κ) : List κ := k :: l.filter (· != k)

/-- The key at the back goes. -/
def lru : Replacement κ := { hit := moveToFront, evict := List.dropLast }

/-- The key at the front goes. -/
def mru : Replacement κ := { hit := moveToFront, evict := List.tail }

/-- The keys after a miss, in a cache that lets keys in. -/
def letIn (p : Replacement κ) (full : Nat → Bool) (l : List κ) (k : κ) : List κ :=
  k :: if full l.length then p.evict l else l

/-- The answer is whether the key was there. -/
def access (p : Replacement κ) (full : Nat → Bool) (l : List κ) (k : κ) : Bool × List κ :=
  if k ∈ l then (true, p.hit k l)
  else if full 0 then (false, l)
  else (false, p.letIn full l k)

variable {p : Replacement κ} {full full₁ full₂ : Nat → Bool} {l l₁ l₂ past ks : List κ} {k : κ} {c : Nat}

theorem access_hit (hk : k ∈ l) : p.access full l k = (true, p.hit k l) := if_pos hk

theorem access_reject (hk : k ∉ l) (h0 : full 0 = true) : p.access full l k = (false, l) := by
  rw [access, if_neg hk, if_pos h0]

theorem access_miss (hk : k ∉ l) (h0 : full 0 = false) : p.access full l k = (false, p.letIn full l k) := by
  rw [access, if_neg hk, if_neg (by simp [h0])]

/-! ## Two caches under LRU -/

omit [DecidableEq κ] in
theorem dropLast_prefix (h : l₁ <+: l₂) (hlt : l₁.length < l₂.length) : l₁ <+: l₂.dropLast := by
  refine List.prefix_of_prefix_length_le h (List.dropLast_prefix l₂) ?_
  rw [List.length_dropLast]
  omega

omit [DecidableEq κ] in
theorem dropLast_prefix_dropLast (h : l₁ <+: l₂) : l₁.dropLast <+: l₂.dropLast := by
  refine List.prefix_of_prefix_length_le ((List.dropLast_prefix l₁).trans h) (List.dropLast_prefix l₂) ?_
  have := h.length_le
  rw [List.length_dropLast, List.length_dropLast]
  omega

/-- What the smaller cache lets in the larger one lets in, and what it keeps the larger one keeps. -/
theorem lru_letIn_prefix (hle : ∀ m, full₂ m = true → full₁ m = true) (h : l₁ <+: l₂) :
    lru.letIn full₁ l₁ k <+: lru.letIn full₂ l₂ k := by
  refine (List.prefix_cons_inj k).mpr ?_
  cases hfull₂ : full₂ l₂.length with
  | false =>
    cases full₁ l₁.length with
    | false => exact h
    | true => exact (List.dropLast_prefix l₁).trans h
  | true =>
    cases hfull₁ : full₁ l₁.length with
    | true => exact dropLast_prefix_dropLast h
    | false =>
      have hne : l₁.length ≠ l₂.length := by
        intro he
        rw [he, hle _ hfull₂] at hfull₁
        cases hfull₁
      exact dropLast_prefix h (lt_of_le_of_ne h.length_le hne)

theorem lru_letIn_prefix_hit (h : l₁ <+: l₂) (hk : k ∉ l₁) : lru.letIn full₁ l₁ k <+: moveToFront k l₂ := by
  have hmoved : l₁ <+: l₂.filter (· != k) := by
    have hsame : l₁.filter (· != k) = l₁ := by
      refine List.filter_eq_self.mpr fun x hx => bne_iff_ne.mpr ?_
      rintro rfl
      exact hk hx
    exact hsame ▸ h.filter (· != k)
  refine (List.prefix_cons_inj k).mpr ?_
  split
  · exact (List.dropLast_prefix l₁).trans hmoved
  · exact hmoved

/-- **Inclusion.** The smaller cache has the first keys of the larger one, and hits where it hits only. -/
theorem lru_access_prefix (hle : ∀ m, full₂ m = true → full₁ m = true) (hnone : full₁ 0 = true → l₁ = [])
    (h : l₁ <+: l₂) (k : κ) :
    ((lru.access full₁ l₁ k).1 = true → (lru.access full₂ l₂ k).1 = true) ∧
      (lru.access full₁ l₁ k).2 <+: (lru.access full₂ l₂ k).2 := by
  by_cases hk₁ : k ∈ l₁
  · rw [access_hit hk₁, access_hit (h.subset hk₁)]
    exact ⟨id, (List.prefix_cons_inj k).mpr (h.filter _)⟩
  by_cases h0 : full₁ 0 = true
  · rw [access_reject hk₁ h0, hnone h0]
    exact ⟨nofun, List.nil_prefix⟩
  have h0 : full₁ 0 = false := Bool.eq_false_iff.mpr h0
  rw [access_miss hk₁ h0]
  refine ⟨nofun, ?_⟩
  by_cases hk₂ : k ∈ l₂
  · rw [access_hit hk₂]
    exact lru_letIn_prefix_hit h hk₁
  · have h0₂ : full₂ 0 = false := by
      by_contra hne
      rw [hle 0 (by simpa using hne)] at h0
      cases h0
    rw [access_miss hk₂ h0₂]
    exact lru_letIn_prefix hle h

/-- A cache that lets nothing in stays empty. -/
theorem access_nil (hnone : full 0 = true → l = []) (k : κ) : full 0 = true → (p.access full l k).2 = [] := by
  intro h0
  have hnil := hnone h0
  rw [access_reject (by simp [hnil]) h0, hnil]

/-! ## A cache that never hits -/

omit [DecidableEq κ] in
/-- With room for `c` keys, the last `c` accessed are resident. -/
theorem take_scan (hc : 0 < c) (past : List κ) (k : κ) :
    (k :: if c ≤ (past.take c).length then (past.take c).dropLast else past.take c) = (k :: past).take c := by
  obtain ⟨c, rfl⟩ := Nat.exists_eq_succ_of_ne_zero hc.ne'
  rw [List.take_succ_cons, List.cons_inj_right, List.length_take]
  split
  next hfull =>
    have hlen : (past.take (c + 1)).length - 1 = c := by
      rw [List.length_take]
      omega
    rw [List.dropLast_eq_take, hlen, List.take_take, min_eq_left (Nat.le_succ c)]
  next hroom => rw [List.take_of_length_le (by omega), List.take_of_length_le (by omega)]

section Cyclic

variable {σ α : Type*} {respond : σ → α → Bool × σ} {key : α → κ} {R : σ → List κ → Prop} {G : α → Prop}

omit [DecidableEq κ] in
/-- In a cyclic scan a key comes again after all the others. -/
theorem notMem_take_cyclic {scanned rest : List κ} (hnd : (scanned ++ k :: rest).Nodup)
    (hc : c < (scanned ++ k :: rest).length)
    (hpast : past = [] ∨ ∃ older, past = (scanned ++ k :: rest).reverse ++ older) :
    k ∉ (scanned.reverse ++ past).take c := by
  obtain ⟨-, hrest, hapart⟩ := List.nodup_append.mp hnd
  have hk : k ∉ rest := (List.nodup_cons.mp hrest).1
  have hscanned : k ∉ scanned := fun hm => hapart k hm k List.mem_cons_self rfl
  rw [List.length_append, List.length_cons] at hc
  rw [List.take_append, List.mem_append, List.length_reverse]
  rintro (hm | hm)
  · exact hscanned (List.mem_reverse.mp (List.mem_of_mem_take hm))
  · rcases hpast with rfl | ⟨older, rfl⟩
    · simp at hm
    · rw [List.reverse_append, List.reverse_cons, List.append_assoc, List.append_assoc,
        List.take_append_of_le_length (by rw [List.length_reverse]; omega)] at hm
      exact hk (List.mem_reverse.mp (List.mem_of_mem_take hm))

omit [DecidableEq κ] in
/-- The rest of a round. -/
theorem scan_misses
    (hR : ∀ s past a, G a → R s past → key a ∉ past.take c → (respond s a).1 = false ∧
      R (respond s a).2 (key a :: past))
    {keys : List κ} (hnd : keys.Nodup) (hc : c < keys.length)
    (hpast : past = [] ∨ ∃ older, past = keys.reverse ++ older) {round : List α} (hG : ∀ a ∈ round, G a)
    (scanned : List κ) (hkeys : scanned ++ round.map key = keys) {s : σ} (h : R s (scanned.reverse ++ past)) :
    (∀ hit ∈ (answers respond s round).1, hit = false) ∧
      R (answers respond s round).2 (keys.reverse ++ past) := by
  induction round generalizing scanned s with
  | nil =>
    rw [List.map_nil, List.append_nil] at hkeys
    exact ⟨nofun, hkeys ▸ h⟩
  | cons a round ih =>
    obtain ⟨ha, hG⟩ := List.forall_mem_cons.mp hG
    rw [List.map_cons] at hkeys
    have hout : key a ∉ (scanned.reverse ++ past).take c :=
      notMem_take_cyclic (hkeys ▸ hnd) (hkeys ▸ hc) (hkeys ▸ hpast)
    obtain ⟨hmiss, hnext⟩ := hR s _ a ha h hout
    have hscanned : (scanned ++ [key a]).reverse ++ past = key a :: (scanned.reverse ++ past) := by simp
    obtain ⟨hrest, hend⟩ := ih hG (scanned ++ [key a]) (by rw [← hkeys]; simp) (hscanned ▸ hnext)
    exact ⟨List.forall_mem_cons.mpr ⟨hmiss, hrest⟩, hend⟩

omit [DecidableEq κ] in
/-- **A cyclic scan of more keys than there is room for never hits**, where
what is resident are the last keys accessed. -/
theorem cyclic_scan_misses
    (hR : ∀ s past a, G a → R s past → key a ∉ past.take c → (respond s a).1 = false ∧
      R (respond s a).2 (key a :: past))
    {keys : List κ} (hnd : keys.Nodup) (hc : c < keys.length) {rounds : List (List α)}
    (hrounds : ∀ round ∈ rounds, round.map key = keys ∧ ∀ a ∈ round, G a) {s : σ}
    (hpast : past = [] ∨ ∃ older, past = keys.reverse ++ older) (h : R s past) :
    ∀ hits ∈ (answers (answers respond) s rounds).1, ∀ hit ∈ hits, hit = false := by
  induction rounds generalizing s past with
  | nil => exact nofun
  | cons round rounds ih =>
    obtain ⟨⟨hkeys, hG⟩, hrounds⟩ := List.forall_mem_cons.mp hrounds
    obtain ⟨hmiss, hend⟩ := scan_misses hR hnd hc hpast hG [] hkeys h
    exact List.forall_mem_cons.mpr ⟨hmiss, ih hrounds (.inr ⟨past, rfl⟩) hend⟩

end Cyclic

/-! ## Scans under MRU

The key at the front is the last one accessed, and the only one a miss takes
away: the others stay until they are accessed. -/

theorem mru_access_nodup (h : l.Nodup) (k : κ) : (mru.access full l k).2.Nodup := by
  by_cases hk : k ∈ l
  · rw [access_hit hk]
    exact List.nodup_cons.mpr ⟨by simp, h.filter _⟩
  cases h0 : full 0 with
  | true =>
    rw [access_reject hk h0]
    exact h
  | false =>
    rw [access_miss hk h0]
    refine List.nodup_cons.mpr ?_
    split
    · exact ⟨fun hm => hk (List.mem_of_mem_tail hm), h.tail⟩
    · exact ⟨hk, h⟩

theorem mru_access_subset (k : κ) : (mru.access full l k).2 ⊆ k :: l := by
  by_cases hk : k ∈ l
  · rw [access_hit hk]
    exact List.cons_subset_cons k (List.filter_subset_self l)
  cases h0 : full 0 with
  | true =>
    rw [access_reject hk h0]
    exact List.subset_cons_self k l
  | false =>
    rw [access_miss hk h0]
    refine List.cons_subset_cons k ?_
    split
    · exact List.tail_subset l
    · exact List.Subset.refl l

theorem mru_access_length (hc : 0 < c) (hl : l.length ≤ c) (hnd : l.Nodup) (k : κ) :
    (mru.access (fun m => decide (c ≤ m)) l k).2.length = if k ∈ l then l.length else min c (l.length + 1) := by
  split
  next hk =>
    rw [access_hit hk]
    change (l.filter (· != k)).length + 1 = _
    rw [← hnd.erase_eq_filter, List.length_erase_of_mem hk]
    have := List.length_pos_of_mem hk
    omega
  next hk =>
    rw [access_miss hk (decide_eq_false (Nat.not_le_of_lt hc))]
    change (if decide (c ≤ l.length) = true then l.tail else l).length + 1 = _
    split
    next hfull =>
      have := of_decide_eq_true hfull
      rw [List.length_tail]
      omega
    next hroom =>
      have : ¬c ≤ l.length := fun hle => hroom (decide_eq_true hle)
      omega

/-- Keys none of which is resident fill the cache. -/
theorem mru_fill (hc : 0 < c) (hl : l.length ≤ c) (hnd : l.Nodup) (hks : ks.Nodup) (hnew : ∀ x ∈ l, x ∉ ks) :
    (answers (mru.access fun m => decide (c ≤ m)) l ks).2.length = min c (l.length + ks.length) := by
  induction ks generalizing l with
  | nil => exact (min_eq_right hl).symm
  | cons k ks ih =>
    obtain ⟨hk, hks⟩ := List.nodup_cons.mp hks
    have hmiss : k ∉ l := fun hm => hnew k hm List.mem_cons_self
    have hlen := mru_access_length hc hl hnd k
    rw [if_neg hmiss] at hlen
    rw [answers, ih (by omega) (mru_access_nodup hnd k) hks fun x hx => ?_, hlen, List.length_cons]
    · omega
    · rcases List.mem_cons.mp (mru_access_subset k hx) with rfl | hx
      · exact hk
      · exact fun hm => hnew x hx (List.mem_cons_of_mem k hm)

/-- In a full cache the keys behind the front hit when their turn comes. -/
theorem mru_hits (hc : 0 < c) (hl : l.length = c) (hnd : l.Nodup) (hks : ks.Nodup) :
    (l.tail.filter (· ∈ ks)).length ≤ (answers (mru.access fun m => decide (c ≤ m)) l ks).1.count true := by
  induction ks generalizing l with
  | nil => simp
  | cons k ks ih =>
    obtain ⟨hk, hks⟩ := List.nodup_cons.mp hks
    have hlen := mru_access_length hc hl.le hnd k
    have hrest := ih (l := (mru.access (fun m => decide (c ≤ m)) l k).2) (by rw [hlen]; split <;> omega)
      (mru_access_nodup hnd k) hks
    rw [answers, List.count_cons]
    by_cases hmem : k ∈ l
    · rw [access_hit hmem] at hrest ⊢
      have hsub : l.tail.filter (· ∈ k :: ks) ⊆ k :: (l.filter (· != k)).filter (· ∈ ks) := by
        intro x hx
        simp only [List.mem_filter, List.mem_cons, decide_eq_true_eq, bne_iff_ne] at hx ⊢
        by_cases hxk : x = k
        · exact .inl hxk
        · exact .inr ⟨⟨List.mem_of_mem_tail hx.1, hxk⟩, hx.2.resolve_left hxk⟩
      have hle := (List.Nodup.subperm (hnd.tail.filter _) hsub).length_le
      rw [List.length_cons] at hle
      exact hle.trans (Nat.succ_le_succ hrest)
    · rw [access_miss hmem (decide_eq_false (Nat.not_le_of_lt hc))] at hrest ⊢
      have htail : (mru.letIn (fun m => decide (c ≤ m)) l k).tail = l.tail := by
        simp [letIn, mru, hl]
      rw [htail] at hrest
      have hsame : l.tail.filter (· ∈ k :: ks) = l.tail.filter (· ∈ ks) := by
        refine List.filter_congr fun x hx => ?_
        have hxk : x ≠ k := fun he => hmem (he ▸ List.mem_of_mem_tail hx)
        simp [hxk]
      rw [hsame]
      exact hrest.trans (Nat.le_add_right _ _)

variable {keys round : List κ} {rounds : List (List κ)}

/-- The cache is full of keys that are scanned. -/
structure FullOf (c : Nat) (keys l : List κ) : Prop where
  nodup : l.Nodup
  subset : l ⊆ keys
  length : l.length = c

theorem mru_round_subset (hround : round ⊆ keys) (hsub : l ⊆ keys) :
    (answers (mru.access full) l round).2 ⊆ keys :=
  answers_invariant (I := (· ⊆ keys))
    (fun _ k hk hI => List.Subset.trans (mru_access_subset k) (List.cons_subset.mpr ⟨hround hk, hI⟩)) hsub

theorem mru_round_nodup (hnd : l.Nodup) : (answers (mru.access full) l round).2.Nodup :=
  answers_invariant (I := List.Nodup) (fun _ k _ hI => mru_access_nodup hI k) hnd

theorem FullOf.access (hc : 0 < c) (h : FullOf c keys l) {k : κ} (hk : k ∈ keys) :
    FullOf c keys (mru.access (fun m => decide (c ≤ m)) l k).2 := by
  refine ⟨mru_access_nodup h.nodup k,
    List.Subset.trans (mru_access_subset k) (List.cons_subset.mpr ⟨hk, h.subset⟩), ?_⟩
  have := h.length
  rw [mru_access_length hc h.length.le h.nodup]
  split <;> omega

/-- A round of a full cache. -/
theorem FullOf.scan (hc : 0 < c) (h : FullOf c keys l) (hnd : keys.Nodup) (hperm : round.Perm keys) :
    c - 1 ≤ (answers (mru.access fun m => decide (c ≤ m)) l round).1.count true ∧
      FullOf c keys (answers (mru.access fun m => decide (c ≤ m)) l round).2 := by
  refine ⟨?_, answers_invariant (I := FullOf c keys) (fun l k hk hI => hI.access hc (hperm.subset hk)) h⟩
  have hall : l.tail.filter (· ∈ round) = l.tail :=
    List.filter_eq_self.mpr fun x hx => decide_eq_true (hperm.symm.subset (h.subset (List.mem_of_mem_tail hx)))
  have hhits := mru_hits hc h.length h.nodup (hperm.nodup_iff.mpr hnd)
  rw [hall, List.length_tail, h.length] at hhits
  exact hhits

theorem FullOf.scans (hc : 0 < c) (h : FullOf c keys l) (hnd : keys.Nodup)
    (hrounds : ∀ round ∈ rounds, round.Perm keys) :
    ∀ hits ∈ (answers (answers (mru.access fun m => decide (c ≤ m))) l rounds).1, c - 1 ≤ hits.count true := by
  induction rounds generalizing l with
  | nil => exact nofun
  | cons round rounds ih =>
    obtain ⟨hround, hrounds⟩ := List.forall_mem_cons.mp hrounds
    obtain ⟨hcount, hfull⟩ := h.scan hc hnd hround
    exact List.forall_mem_cons.mpr ⟨hcount, ih hfull hrounds⟩

/-- **Every round after the first hits all but one of the keys the cache has
room for**, however each round is ordered. -/
theorem mru_rounds (hc : 0 < c) (hn : c ≤ keys.length) (hnd : keys.Nodup)
    (hrounds : ∀ round ∈ rounds, round.Perm keys) :
    ∀ hits ∈ (answers (answers (mru.access fun m => decide (c ≤ m))) [] rounds).1.tail,
      c - 1 ≤ hits.count true := by
  cases rounds with
  | nil => exact nofun
  | cons round rounds =>
    obtain ⟨hperm, hrounds⟩ := List.forall_mem_cons.mp hrounds
    -- The first round fills the cache.
    have hlen := mru_fill (l := []) hc (Nat.zero_le c) List.nodup_nil (hperm.nodup_iff.mpr hnd)
      (fun x hx => nomatch hx)
    have hfirst : FullOf c keys (answers (mru.access fun m => decide (c ≤ m)) [] round).2 := by
      refine ⟨mru_round_nodup List.nodup_nil, mru_round_subset hperm.subset (List.nil_subset keys), ?_⟩
      rw [hlen, hperm.length_eq, List.length_nil, Nat.zero_add, min_eq_left hn]
    exact hfirst.scans hc hnd hrounds

end Replacement

end Lib
