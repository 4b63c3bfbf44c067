/-
Doubly linked lists with stable iterators (`std::list`): a node keeps its
identity while the list around it changes, and a new node is never one that
was there before.

An index maps the keys of the elements to their nodes, as LRU structures
keep beside the list. `Indexes`: the index points each key of the list at
its node and has no other key, so no two nodes have one key.
-/
import Mathlib.Data.List.Nodup
import Mathlib.Data.List.Perm.Basic
import Mathlib.Data.List.TakeWhile

namespace Lib

structure NodeList (α : Type*) where
  /-- From front to back, each with its node. -/
  nodes : List (Nat × α)
  /-- The node the next insertion makes. -/
  fresh : Nat
  nodup : (nodes.map Prod.fst).Nodup
  lt_fresh : ∀ p ∈ nodes, p.1 < fresh

namespace NodeList

variable {α κ : Type*}

def empty : NodeList α := ⟨[], 0, by simp, by simp⟩

instance : EmptyCollection (NodeList α) := ⟨empty⟩

def clear (l : NodeList α) : NodeList α := ⟨[], l.fresh, by simp, by simp⟩

/-- The elements from front to back. -/
def values (l : NodeList α) : List α := l.nodes.map Prod.snd

def size (l : NodeList α) : Nat := l.nodes.length

def isEmpty (l : NodeList α) : Bool := l.nodes.isEmpty

def front? (l : NodeList α) : Option (Nat × α) := l.nodes.head?

def back? (l : NodeList α) : Option (Nat × α) := l.nodes.getLast?

/-- The element of a node. -/
def get? (l : NodeList α) (n : Nat) : Option α := (l.nodes.find? (·.1 == n)).map Prod.snd

/-- The node after `n`, none at the end. -/
def after? (l : NodeList α) (n : Nat) : Option Nat :=
  ((l.nodes.dropWhile (·.1 != n)).drop 1).head?.map Prod.fst

/-- `insert`: before the node `pos`, or at the end. -/
def insertBefore (l : NodeList α) (pos : Option Nat) (a : α) : NodeList α where
  nodes := match pos with
    | none => l.nodes ++ [(l.fresh, a)]
    | some n => l.nodes.takeWhile (·.1 != n) ++ (l.fresh, a) :: l.nodes.dropWhile (·.1 != n)
  fresh := l.fresh + 1
  nodup := by
    have hp : ∀ ns : List (Nat × α), ns.Perm ((l.fresh, a) :: l.nodes) → (ns.map Prod.fst).Nodup := by
      intro ns hns
      refine ((hns.map Prod.fst).nodup_iff).mpr (List.nodup_cons.mpr ⟨fun hm => ?_, l.nodup⟩)
      obtain ⟨q, hq, he⟩ := List.mem_map.mp hm
      have := l.lt_fresh q hq
      omega
    cases pos with
    | none => exact hp _ (List.perm_append_comm.trans (by simp))
    | some n => exact hp _ (List.perm_middle.trans (by rw [List.takeWhile_append_dropWhile]))
  lt_fresh := by
    have hp : ∀ ns : List (Nat × α), ns.Perm ((l.fresh, a) :: l.nodes) → ∀ q ∈ ns, q.1 < l.fresh + 1 := by
      intro ns hns q hq
      rcases List.mem_cons.mp (hns.mem_iff.mp hq) with rfl | hq
      · exact Nat.lt_succ_self _
      · exact Nat.lt_succ_of_lt (l.lt_fresh q hq)
    cases pos with
    | none => exact hp _ (List.perm_append_comm.trans (by simp))
    | some n => exact hp _ (List.perm_middle.trans (by rw [List.takeWhile_append_dropWhile]))

def pushFront (l : NodeList α) (a : α) : NodeList α where
  nodes := (l.fresh, a) :: l.nodes
  fresh := l.fresh + 1
  nodup := by
    refine List.nodup_cons.mpr ⟨fun hm => ?_, l.nodup⟩
    obtain ⟨q, hq, he⟩ := List.mem_map.mp hm
    have := l.lt_fresh q hq
    omega
  lt_fresh := by
    intro q hq
    rcases List.mem_cons.mp hq with rfl | hq
    · exact Nat.lt_succ_self _
    · exact Nat.lt_succ_of_lt (l.lt_fresh q hq)

def erase (l : NodeList α) (n : Nat) : NodeList α where
  nodes := l.nodes.filter (·.1 != n)
  fresh := l.fresh
  nodup := l.nodup.sublist (List.filter_sublist.map _)
  lt_fresh := fun q hq => l.lt_fresh q (List.mem_of_mem_filter hq)

/-- The node's element changed in place. -/
def modify (l : NodeList α) (n : Nat) (f : α → α) : NodeList α where
  nodes := l.nodes.map fun q => if q.1 = n then (q.1, f q.2) else q
  fresh := l.fresh
  nodup := by
    have : Prod.fst ∘ (fun q : Nat × α => if q.1 = n then (q.1, f q.2) else q) = Prod.fst := by
      funext q; dsimp only [Function.comp_apply]; split <;> rfl
    rw [List.map_map, this]
    exact l.nodup
  lt_fresh := by
    intro q hq
    obtain ⟨q', hq', rfl⟩ := List.mem_map.mp hq
    have := l.lt_fresh q' hq'
    split <;> exact this

theorem perm_erase {l : NodeList α} {n : Nat} {a : α} (h : (n, a) ∈ l.nodes) :
    l.nodes.Perm ((n, a) :: (l.erase n).nodes) := by
  obtain ⟨s, t, hst⟩ := List.append_of_mem h
  have hn := l.nodup
  rw [hst, List.map_append, List.map_cons, List.nodup_middle, List.nodup_cons] at hn
  have hs : ∀ q ∈ s ++ t, (q.1 != n) = true := by
    intro q hq
    simp only [bne_iff_ne, ne_eq]
    intro he
    exact hn.1 (by rw [← List.map_append]; exact List.mem_map.mpr ⟨q, hq, he⟩)
  have he : (l.erase n).nodes = s ++ t := by
    simp only [erase, hst, List.filter_append, List.filter_cons, bne_self_eq_false, Bool.false_eq_true, if_false]
    rw [← List.filter_append]
    exact List.filter_eq_self.mpr hs
  rw [he, hst]
  exact List.perm_middle

/-- `splice` of one node to the front. -/
def moveToFront (l : NodeList α) (n : Nat) : NodeList α :=
  match h : l.get? n with
  | none => l
  | some a =>
    have hp : l.nodes.Perm ((n, a) :: (l.erase n).nodes) := by
      obtain ⟨q, hq, rfl⟩ := Option.map_eq_some_iff.mp h
      have hn : q.1 = n := by simpa using List.find?_some hq
      subst hn
      exact perm_erase (List.mem_of_find?_eq_some hq)
    { nodes := (n, a) :: (l.erase n).nodes
      fresh := l.fresh
      nodup := ((hp.map Prod.fst).nodup_iff).mp l.nodup
      lt_fresh := fun q hq => l.lt_fresh q (hp.mem_iff.mpr hq) }

theorem eq_of_mem {l : NodeList α} {n : Nat} {a b : α} (ha : (n, a) ∈ l.nodes) (hb : (n, b) ∈ l.nodes) :
    a = b := by
  have := List.inj_on_of_nodup_map l.nodup ha hb rfl
  exact (Prod.mk.inj this).2

theorem get?_eq_some {l : NodeList α} {n : Nat} {a : α} : l.get? n = some a ↔ (n, a) ∈ l.nodes := by
  constructor
  · intro h
    obtain ⟨q, hq, rfl⟩ := Option.map_eq_some_iff.mp h
    have hn : q.1 = n := by simpa using List.find?_some hq
    subst hn
    exact List.mem_of_find?_eq_some hq
  · intro h
    cases hf : l.nodes.find? (·.1 == n) with
    | none => exact absurd (List.find?_eq_none.mp hf (n, a) h) (by simp)
    | some q =>
      have hn : q.1 = n := by simpa using List.find?_some hf
      have hq := List.mem_of_find?_eq_some hf
      rw [get?, hf, Option.map_some]
      exact congrArg some (l.eq_of_mem (show (n, q.2) ∈ l.nodes by rw [← hn]; exact hq) h)

theorem mem_erase {l : NodeList α} {n : Nat} {q : Nat × α} : q ∈ (l.erase n).nodes ↔ q ∈ l.nodes ∧ q.1 ≠ n := by
  simp [erase]

@[simp] theorem pushFront_nodes (l : NodeList α) (a : α) : (l.pushFront a).nodes = (l.fresh, a) :: l.nodes := rfl

theorem insertBefore_perm (l : NodeList α) (pos : Option Nat) (a : α) :
    (l.insertBefore pos a).nodes.Perm ((l.fresh, a) :: l.nodes) := by
  cases pos with
  | none => exact List.perm_append_comm.trans (by simp)
  | some n => exact List.perm_middle.trans (by rw [List.takeWhile_append_dropWhile])

theorem moveToFront_perm (l : NodeList α) (n : Nat) : (l.moveToFront n).nodes.Perm l.nodes := by
  unfold moveToFront
  split
  next => exact .refl _
  next a h => exact (perm_erase (get?_eq_some.mp h)).symm

theorem size_erase_lt {l : NodeList α} {n : Nat} {a : α} (h : (n, a) ∈ l.nodes) : (l.erase n).size < l.size := by
  have := (perm_erase h).length_eq
  simp only [List.length_cons] at this
  simp only [size]
  omega

/-- The nodes left when some are erased one after another. -/
theorem eraseAll_perm {l : NodeList α} {ns rest : List (Nat × α)} (h : l.nodes.Perm (ns ++ rest)) :
    (ns.foldl (fun l n => l.erase n.1) l).nodes.Perm rest := by
  induction ns generalizing l with
  | nil => exact h
  | cons n ns ih =>
    have hn : (n.1, n.2) ∈ l.nodes := h.mem_iff.mpr (by simp)
    exact ih ((perm_erase hn).symm.trans h).cons_inv

theorem eraseAll_nodes (l : NodeList α) (ns : List (Nat × α)) :
    (ns.foldl (fun l n => l.erase n.1) l).nodes = l.nodes.filter fun p => decide (p.1 ∉ ns.map Prod.fst) := by
  induction ns generalizing l with
  | nil => simp
  | cons n ns ih =>
    rw [List.foldl_cons, ih, erase, List.filter_filter]
    refine List.filter_congr fun p _ => ?_
    rw [Bool.eq_iff_iff]
    simp [and_comm]

theorem eraseAll_fresh (l : NodeList α) (ns : List (Nat × α)) :
    (ns.foldl (fun l n => l.erase n.1) l).fresh = l.fresh := by
  induction ns generalizing l with
  | nil => rfl
  | cons n ns ih => exact ih (l.erase n.1)

@[simp] theorem size_modify (l : NodeList α) (n : Nat) (f : α → α) : (l.modify n f).size = l.size := by
  simp [modify, size]

theorem modify_perm {l : NodeList α} {n : Nat} {a : α} (f : α → α) (h : (n, a) ∈ l.nodes) :
    (l.modify n f).nodes.Perm ((n, f a) :: (l.erase n).nodes) := by
  have hp := (perm_erase h).map fun q : Nat × α => if q.1 = n then (q.1, f q.2) else q
  refine hp.trans ?_
  have hrest : (l.erase n).nodes.map (fun q : Nat × α => if q.1 = n then (q.1, f q.2) else q) =
      (l.erase n).nodes :=
    List.map_congr_left (fun q hq => if_neg (mem_erase.mp hq).2) |>.trans (List.map_id _)
  rw [List.map_cons, if_pos rfl, hrest]

/-- What is read off an element and not changed by `f`. -/
theorem modify_map {β : Type*} (l : NodeList α) (n : Nat) {f : α → α} {g : α → β} (h : ∀ a, g (f a) = g a) :
    (l.modify n f).nodes.map (fun q => (q.1, g q.2)) = l.nodes.map fun q => (q.1, g q.2) := by
  simp only [modify, List.map_map]
  refine List.map_congr_left fun q _ => ?_
  dsimp only [Function.comp_apply]
  split
  · rw [h]
  · rfl

/-- The node after another one is a node of the list, and a different one. -/
theorem after?_spec {l : NodeList α} {n m : Nat} (h : l.after? n = some m) : (∃ a, (m, a) ∈ l.nodes) ∧ m ≠ n := by
  obtain ⟨q, hq, rfl⟩ := Option.map_eq_some_iff.mp h
  have hsub : (l.nodes.dropWhile (·.1 != n)).Sublist l.nodes := (List.dropWhile_suffix _).sublist
  cases hd : l.nodes.dropWhile (·.1 != n) with
  | nil => simp [hd] at hq
  | cons r rest =>
    have hr : r.1 = n := by
      have := List.head_dropWhile_not (p := fun q : Nat × α => q.1 != n) (w := by rw [hd]; simp)
      simpa [hd] using this
    rw [hd] at hq hsub
    have hmem : q ∈ rest := List.mem_of_head? hq
    have hnd : ((r :: rest).map Prod.fst).Nodup := l.nodup.sublist (hsub.map _)
    refine ⟨⟨q.2, hsub.subset (by simp [hmem])⟩, fun he => ?_⟩
    rw [List.map_cons, List.nodup_cons] at hnd
    exact hnd.1 (List.mem_map.mpr ⟨q, hmem, he.trans hr.symm⟩)

theorem front?_mem {l : NodeList α} {q : Nat × α} (h : l.front? = some q) : q ∈ l.nodes := List.mem_of_head? h

/-- The first node, with nothing after it, is the whole list. -/
theorem erase_eq_nil_of_front {l : NodeList α} {n : Nat} {a : α} (hf : l.front? = some (n, a))
    (ha : l.after? n = none) : (l.erase n).nodes = [] := by
  obtain ⟨nodes, fresh, nd, lt⟩ := l
  cases nodes with
  | nil => simp [front?] at hf
  | cons q rest =>
    simp only [front?, List.head?_cons, Option.some.injEq] at hf
    subst hf
    cases rest with
    | nil => simp [erase]
    | cons r rest => simp [after?] at ha

theorem erase_comm (l : NodeList α) (n m : Nat) : (l.erase n).erase m = (l.erase m).erase n := by
  simp [erase, Bool.and_comm]

end NodeList

/-! ## Rings -/

section Rings

variable {β : Type*} [DecidableEq β]

/-- The element after `n` in a ring, of one not in it the first. -/
def cyclicNext (ring : List β) (n : β) : Option β := ((ring.dropWhile (· != n)).drop 1 ++ ring).head?

theorem filter_ne_of_not_mem {as : List β} {m : β} (h : m ∉ as) : as.filter (· != m) = as :=
  List.filter_eq_self.mpr fun a ha => by simpa using fun he : a = m => h (he ▸ ha)

theorem cyclicNext_of_split {as bs : List β} {n : β} (h : n ∉ as) :
    cyclicNext (as ++ n :: bs) n = (bs ++ as ++ [n]).head? := by
  have hdrop : (as ++ n :: bs).dropWhile (· != n) = n :: bs := by
    rw [List.dropWhile_append_of_pos fun a ha => by simpa using fun he : a = n => h (he ▸ ha)]
    simp
  rw [cyclicNext, hdrop]
  cases bs <;> cases as <;> simp

theorem cyclicNext_of_not_mem {ring : List β} {n : β} (h : n ∉ ring) : cyclicNext ring n = ring.head? := by
  have hdrop : ring.dropWhile (· != n) = [] := by
    rw [List.dropWhile_eq_nil_iff]
    intro a ha
    simpa using fun he : a = n => h (he ▸ ha)
  rw [cyclicNext, hdrop]
  rfl

/-- Wherever the ring is cut open, the element after its first is its second. -/
theorem cyclicNext_of_rotated {as bs cs : List β} {n : β} (h : bs ++ as = n :: cs) (hnd : (n :: cs).Nodup) :
    cyclicNext (as ++ bs) n = (cs ++ [n]).head? := by
  cases bs with
  | nil =>
    rw [List.nil_append] at h
    rw [h, List.append_nil, show n :: cs = [] ++ n :: cs from rfl, cyclicNext_of_split (by simp), List.append_nil]
  | cons b bs =>
    rw [List.cons_append, List.cons.injEq] at h
    obtain ⟨rfl, rfl⟩ := h
    have hn : b ∉ as := fun hb => (List.nodup_cons.mp hnd).1 (List.mem_append_right _ hb)
    rw [cyclicNext_of_split hn]

/-- With another element out, the element after `n` is the one it was, or
the one after that if that is the one out. -/
theorem cyclicNext_filter {ring : List β} (hnd : ring.Nodup) {n m : β} (hne : n ≠ m)
    (hrest : (ring.filter (· != n)).filter (· != m) ≠ []) :
    cyclicNext (ring.filter (· != m)) n =
      if cyclicNext ring n = some m then cyclicNext (ring.filter (· != n)) m else cyclicNext ring n := by
  -- `rest` is the ring without `n`, from the element after `n` on.
  obtain ⟨as, bs, hout, hnext, hnext'⟩ : ∃ as bs : List β, ring.filter (· != n) = as ++ bs ∧
      cyclicNext ring n = (bs ++ as ++ [n]).head? ∧
      cyclicNext (ring.filter (· != m)) n = ((bs ++ as).filter (· != m) ++ [n]).head? := by
    by_cases hn : n ∈ ring
    · obtain ⟨as, bs, rfl⟩ := List.append_of_mem hn
      have hnot := (List.nodup_cons.mp ((List.nodup_middle).mp hnd)).1
      have has : n ∉ as := fun h => hnot (List.mem_append_left _ h)
      refine ⟨as, bs, ?_, cyclicNext_of_split has, ?_⟩
      · rw [List.filter_append, List.filter_cons_of_neg (by simp), ← List.filter_append,
          filter_ne_of_not_mem hnot]
      · rw [List.filter_append, List.filter_cons_of_pos (by simpa using hne), cyclicNext_of_split (by simp [has]),
          List.filter_append]
    · rw [filter_ne_of_not_mem hn] at hrest
      have hne' : ring ≠ [] := fun h => hrest (by rw [h]; rfl)
      refine ⟨[], ring, filter_ne_of_not_mem hn, ?_, ?_⟩
      · rw [cyclicNext_of_not_mem hn, List.append_nil, List.head?_append_of_ne_nil _ hne']
      · rw [cyclicNext_of_not_mem (by simp [hn]), List.append_nil, List.head?_append_of_ne_nil _ hrest]
  have hnd' : (bs ++ as).Nodup := List.nodup_append_comm.mp (hout ▸ hnd.filter _)
  rw [hout] at hrest ⊢
  rw [hnext, hnext']
  cases hrest' : bs ++ as with
  | nil =>
    obtain ⟨rfl, rfl⟩ := List.append_eq_nil_iff.mp hrest'
    exact absurd rfl hrest
  | cons x cs =>
    rw [hrest'] at hnd'
    by_cases hx : x = m
    · subst hx
      have hcs := filter_ne_of_not_mem (List.nodup_cons.mp hnd').1
      have hcs' : cs ≠ [] := by
        rintro rfl
        have hperm : ((as ++ bs).filter (· != x)).Perm ((bs ++ as).filter (· != x)) :=
          List.perm_append_comm.filter _
        rw [hrest', List.filter_cons_of_neg (by simp), hcs] at hperm
        exact hrest hperm.eq_nil
      rw [List.filter_cons_of_neg (by simp), hcs, cyclicNext_of_rotated hrest' hnd']
      simp [List.head?_append_of_ne_nil _ hcs']
    · simp [hx]

/-- Where a hand on the ring is once an element has gone: past it, if it was
on it, and nowhere once the ring is empty. -/
def handWithout (ring : List β) (hand : Option β) (n : β) : Option β :=
  if ring.filter (· != n) = [] then none else if hand = some n then cyclicNext ring n else hand

theorem handWithout_comm {ring : List β} (hnd : ring.Nodup) (hand : Option β) {n m : β} (hne : n ≠ m) :
    handWithout (ring.filter (· != n)) (handWithout ring hand n) m =
      handWithout (ring.filter (· != m)) (handWithout ring hand m) n := by
  have hcomm : (ring.filter (· != n)).filter (· != m) = (ring.filter (· != m)).filter (· != n) := by
    simp [Bool.and_comm]
  by_cases hrest : (ring.filter (· != n)).filter (· != m) = []
  · simp [handWithout, hrest, ← hcomm]
  · have hn : ring.filter (· != n) ≠ [] := fun h => hrest (by rw [h]; rfl)
    have hm : ring.filter (· != m) ≠ [] := fun h => hrest (by rw [hcomm, h]; rfl)
    have hnext := cyclicNext_filter hnd hne hrest
    have hnext' := cyclicNext_filter hnd hne.symm (hcomm ▸ hrest)
    simp only [handWithout, if_neg hrest, if_neg (hcomm ▸ hrest), if_neg hn, if_neg hm]
    by_cases hhn : hand = some n
    · simp [hhn, hne, hnext]
    · by_cases hhm : hand = some m
      · simp [hhm, hne.symm, hnext']
      · simp [hhn, hhm]

end Rings

/-- A list taken as a ring: after the last node comes the first. -/
theorem NodeList.after?_or_front {α : Type*} (l : NodeList α) (n : Nat) :
    (l.after? n).or (l.front?.map Prod.fst) = cyclicNext (l.nodes.map Prod.fst) n := by
  rw [cyclicNext, List.dropWhile_map, ← List.map_drop, List.head?_append, List.head?_map, List.head?_map]
  rfl

/-! ## A list read round from one of its nodes -/

namespace NodeList

variable {α : Type*} {l : NodeList α} {n : Nat} {a : α} {as bs rest : List (Nat × α)}

/-- From the node `pos` on, and round to it; from the front when `pos` is the end. -/
def readFrom (l : NodeList α) : Option Nat → List (Nat × α)
  | none => l.nodes
  | some n => l.nodes.dropWhile (·.1 != n) ++ l.nodes.takeWhile (·.1 != n)

theorem readFrom_perm (l : NodeList α) (pos : Option Nat) : (l.readFrom pos).Perm l.nodes := by
  cases pos with
  | none => exact .refl _
  | some n => exact List.perm_append_comm.trans (by rw [List.takeWhile_append_dropWhile])

theorem ne_of_split (h : l.nodes = as ++ (n, a) :: bs) : ∀ q ∈ as ++ bs, q.1 ≠ n := by
  intro q hq he
  have hn := l.nodup
  rw [h, List.map_append, List.map_cons, List.nodup_middle, List.nodup_cons, ← List.map_append] at hn
  exact hn.1 (List.mem_map.mpr ⟨q, hq, he⟩)

theorem erase_of_split (h : l.nodes = as ++ (n, a) :: bs) : (l.erase n).nodes = as ++ bs := by
  have hne : ∀ q ∈ as ++ bs, (q.1 != n) = true := fun q hq => bne_iff_ne.mpr (ne_of_split h q hq)
  have hfilter : (l.erase n).nodes = (as ++ bs).filter (·.1 != n) := by
    simp [erase, h]
  rw [hfilter, List.filter_eq_self.mpr hne]

theorem takeWhile_of_split (h : l.nodes = as ++ (n, a) :: bs) :
    l.nodes.takeWhile (·.1 != n) = as ∧ l.nodes.dropWhile (·.1 != n) = (n, a) :: bs := by
  have has : ∀ q ∈ as, (q.1 != n) = true := fun q hq => by simpa using ne_of_split h q (List.mem_append_left _ hq)
  rw [h, List.takeWhile_append_of_pos has, List.dropWhile_append_of_pos has]
  simp

theorem readFrom_of_split (h : l.nodes = as ++ (n, a) :: bs) : l.readFrom (some n) = (n, a) :: (bs ++ as) := by
  obtain ⟨ht, hd⟩ := takeWhile_of_split h
  rw [readFrom, ht, hd, List.cons_append]

theorem readFrom_eq_cons (h : (n, a) ∈ l.nodes) : ∃ rest, l.readFrom (some n) = (n, a) :: rest := by
  obtain ⟨as, bs, hs⟩ := List.append_of_mem h
  exact ⟨_, readFrom_of_split hs⟩

/-- What is inserted before the node is read last. -/
theorem readFrom_insertBefore {pos : Option Nat} (hpos : ∀ n, pos = some n → ∃ a, (n, a) ∈ l.nodes) (b : α) :
    (l.insertBefore pos b).readFrom pos = l.readFrom pos ++ [(l.fresh, b)] := by
  cases pos with
  | none => rfl
  | some n =>
    obtain ⟨a, ha⟩ := hpos n rfl
    obtain ⟨as, bs, hs⟩ := List.append_of_mem ha
    have hs' : (l.insertBefore (some n) b).nodes = (as ++ [(l.fresh, b)]) ++ (n, a) :: bs := by
      obtain ⟨ht, hd⟩ := takeWhile_of_split hs
      simp [insertBefore, ht, hd]
    rw [readFrom_of_split hs', readFrom_of_split hs, List.cons_append, List.append_assoc]

theorem readFrom_modify (l : NodeList α) (n : Nat) (f : α → α) (pos : Option Nat) :
    (l.modify n f).readFrom pos = (l.readFrom pos).map fun q => if q.1 = n then (q.1, f q.2) else q := by
  cases pos with
  | none => rfl
  | some m =>
    have hfst : ((fun q : Nat × α => q.1 != m) ∘ fun q => if q.1 = n then (q.1, f q.2) else q) =
        fun q => q.1 != m := by
      funext q
      dsimp only [Function.comp_apply]
      split <;> rfl
    simp only [readFrom, modify, List.dropWhile_map, List.takeWhile_map, List.map_append, hfst]

/-- Another node erased. -/
theorem readFrom_erase {pos : Option Nat} (hpos : ∀ m, pos = some m → ∃ a, (m, a) ∈ l.nodes)
    (hne : pos ≠ some n) :
    (l.erase n).readFrom pos = (l.readFrom pos).filter (·.1 != n) := by
  cases pos with
  | none => rfl
  | some m =>
    obtain ⟨a, ha⟩ := hpos m rfl
    obtain ⟨as, bs, hs⟩ := List.append_of_mem ha
    have hmn : (m != n) = true := bne_iff_ne.mpr fun he => hne (he ▸ rfl)
    have hs' : (l.erase n).nodes = as.filter (·.1 != n) ++ (m, a) :: bs.filter (·.1 != n) := by
      simp [erase, hs, hmn]
    rw [readFrom_of_split hs', readFrom_of_split hs]
    simp [hmn]

/-- The list cut at the node it is read from. -/
theorem exists_split_of_readFrom (h : l.readFrom (some n) = (n, a) :: rest) :
    ∃ as bs, l.nodes = as ++ (n, a) :: bs ∧ bs ++ as = rest := by
  have hmem : (n, a) ∈ l.nodes := (l.readFrom_perm (some n)).mem_iff.mp (by rw [h]; simp)
  obtain ⟨as, bs, hs⟩ := List.append_of_mem hmem
  exact ⟨as, bs, hs, by simpa using (readFrom_of_split hs).symm.trans h⟩

/-- The next node is the second one read, or the first again when there is no other. -/
theorem cyclicNext_of_readFrom (h : l.readFrom (some n) = (n, a) :: rest) :
    cyclicNext (l.nodes.map Prod.fst) n = ((rest ++ [(n, a)]).map Prod.fst).head? := by
  obtain ⟨as, bs, hs, hrest⟩ := exists_split_of_readFrom h
  have hnot : n ∉ as.map Prod.fst := by
    intro hm
    obtain ⟨q, hq, he⟩ := List.mem_map.mp hm
    exact ne_of_split hs q (List.mem_append_left _ hq) he
  rw [hs, List.map_append, List.map_cons, cyclicNext_of_split hnot, ← hrest]
  simp

/-- Read from the next node round, the first becomes the last. -/
theorem readFrom_next (h : l.readFrom (some n) = (n, a) :: rest) :
    l.readFrom (cyclicNext (l.nodes.map Prod.fst) n) = rest ++ [(n, a)] := by
  obtain ⟨as, bs, hs, hrest⟩ := exists_split_of_readFrom h
  rw [cyclicNext_of_readFrom h, ← hrest]
  cases bs with
  | cons q bs =>
    have hs' : l.nodes = (as ++ [(n, a)]) ++ (q.1, q.2) :: bs := by rw [hs]; simp
    simpa using readFrom_of_split hs'
  | nil =>
    cases as with
    | cons q as =>
      have hs' : l.nodes = [] ++ (q.1, q.2) :: (as ++ [(n, a)]) := by rw [hs]; simp
      simpa using readFrom_of_split hs'
    | nil => simpa using readFrom_of_split hs

/-- The nodes read after the first are those of the list without it. -/
theorem perm_erase_of_readFrom (h : l.readFrom (some n) = (n, a) :: rest) : (l.erase n).nodes.Perm rest := by
  have hperm := (l.readFrom_perm (some n)).symm
  rw [h] at hperm
  exact ((perm_erase (hperm.mem_iff.mpr (by simp))).symm.trans hperm).cons_inv

theorem erase_ids (l : NodeList α) (n : Nat) :
    (l.nodes.map Prod.fst).filter (· != n) = (l.erase n).nodes.map Prod.fst := by
  simp [erase, List.filter_map, Function.comp_def]

/-- The first node erased, with the hand gone on to the next one. -/
theorem readFrom_erase_first (h : l.readFrom (some n) = (n, a) :: rest) :
    (l.erase n).readFrom (handWithout (l.nodes.map Prod.fst) (some n) n) = rest := by
  have herase := perm_erase_of_readFrom h
  have hrest : ∀ q ∈ rest, q ∈ l.nodes ∧ q.1 ≠ n := fun q hq => mem_erase.mp (herase.mem_iff.mpr hq)
  have hnext := cyclicNext_of_readFrom h
  have hread := readFrom_next h
  rw [handWithout, erase_ids, if_pos rfl]
  cases rest with
  | nil =>
    have hnil := List.perm_nil.mp herase
    rw [if_pos (by simp [hnil]), readFrom, hnil]
  | cons q rest =>
    have hq := hrest q (by simp)
    rw [hnext] at hread ⊢
    rw [if_neg fun hnil => by rw [List.map_eq_nil_iff.mp hnil] at herase; cases herase.nil_eq]
    have hmem' : ∀ m, ((q :: rest ++ [(n, a)]).map Prod.fst).head? = some m → ∃ b, (m, b) ∈ l.nodes := by
      intro m hm
      cases hm
      exact ⟨q.2, hq.1⟩
    rw [readFrom_erase hmem' (by simpa using hq.2), hread, List.filter_append,
      List.filter_eq_self.mpr fun q hq => by simpa using (hrest q hq).2]
    simp

/-- The node after the one erased, or the first of what is left: where the hand goes. -/
theorem after?_or_front_erase (l : NodeList α) (n : Nat) :
    (if (l.after? n).isNone then (l.erase n).front?.map Prod.fst else l.after? n) =
      handWithout (l.nodes.map Prod.fst) (some n) n := by
  have hor := l.after?_or_front n
  rw [handWithout, erase_ids, if_pos rfl]
  cases ha : l.after? n with
  | some m =>
    obtain ⟨⟨b, hb⟩, hmn⟩ := after?_spec ha
    have hm : (m, b) ∈ (l.erase n).nodes := mem_erase.mpr ⟨hb, hmn⟩
    have hne : (l.erase n).nodes ≠ [] := List.ne_nil_of_mem hm
    simp [hne, ← hor, ha]
  | none =>
    rw [ha, Option.none_or] at hor
    rw [Option.isNone_none, if_pos rfl, ← hor]
    split
    next hnil => rw [front?, List.map_eq_nil_iff.mp hnil]; rfl
    next hne =>
      cases hf : l.front? with
      | none => exact absurd (by simp [erase, List.head?_eq_none_iff.mp hf]) hne
      | some q =>
        -- The first node is not the one erased, which is the last of several.
        have hq : q.1 ≠ n := by
          rintro rfl
          exact hne (by rw [erase_eq_nil_of_front hf ha]; rfl)
        obtain ⟨rest, hrest⟩ := List.head?_eq_some_iff.mp hf
        simp [front?, erase, hrest, hq]

/-- A node erased, with the hand gone on if it was there: the others are read in their order. -/
theorem readFrom_handWithout {pos : Option Nat} (hpos : ∀ m, pos = some m → ∃ b, (m, b) ∈ l.nodes)
    (hmem : (n, a) ∈ l.nodes) :
    (l.erase n).readFrom (handWithout (l.nodes.map Prod.fst) pos n) = (l.readFrom pos).filter (·.1 != n) := by
  by_cases hn : pos = some n
  · obtain ⟨rest, hread⟩ := readFrom_eq_cons hmem
    have hrest : ∀ q ∈ rest, (q.1 != n) = true := fun q hq =>
      bne_iff_ne.mpr (mem_erase.mp ((perm_erase_of_readFrom hread).mem_iff.mpr hq)).2
    rw [hn, readFrom_erase_first hread, hread, List.filter_cons_of_neg (by simp), List.filter_eq_self.mpr hrest]
  · rw [handWithout, erase_ids, if_neg hn]
    split
    next hnil =>
      have hperm := (l.erase n).readFrom_perm pos
      rw [List.map_eq_nil_iff.mp hnil, List.perm_nil] at hperm
      rw [← readFrom_erase hpos hn, hperm, readFrom, List.map_eq_nil_iff.mp hnil]
    next => exact readFrom_erase hpos hn

end NodeList
/-! ## Indexes -/

section Indexes

variable {α κ : Type*} {key : α → κ} {get get' : κ → Option Nat} {nodes nodes' : List (Nat × α)}

/-- `get` finds the node of each key in the list, and no other key. -/
def Indexes (key : α → κ) (get : κ → Option Nat) (nodes : List (Nat × α)) : Prop :=
  ∀ k n, get k = some n ↔ ∃ a, (n, a) ∈ nodes ∧ key a = k

theorem Indexes.nil (h : ∀ k, get k = none) : Indexes key get [] := fun k n => by simp [h k]

theorem Indexes.perm (h : Indexes key get nodes) (hp : nodes'.Perm nodes) : Indexes key get nodes' := by
  intro k n
  simp only [h k n, hp.mem_iff]

theorem Indexes.of_map_eq (h : Indexes key get nodes)
    (hm : nodes'.map (fun q => (q.1, key q.2)) = nodes.map fun q => (q.1, key q.2)) : Indexes key get nodes' := by
  have hiff : ∀ (ns : List (Nat × α)) k n, (∃ a, (n, a) ∈ ns ∧ key a = k) ↔
      (n, k) ∈ ns.map fun q => (q.1, key q.2) := by
    intro ns k n
    simp only [List.mem_map, Prod.mk.injEq]
    constructor
    · rintro ⟨a, ha, hk⟩; exact ⟨(n, a), ha, rfl, hk⟩
    · rintro ⟨⟨m, a⟩, ha, rfl, hk⟩; exact ⟨a, ha, hk⟩
  intro k n
  rw [h k n, hiff, hiff, hm]

theorem Indexes.get_of_mem (h : Indexes key get nodes) {q : Nat × α} (hq : q ∈ nodes) :
    get (key q.2) = some q.1 :=
  (h _ _).mpr ⟨q.2, hq, rfl⟩

/-- A new node for a key that has none. -/
theorem Indexes.insert (h : Indexes key get nodes) {n : Nat} {a : α} (hk : get (key a) = none)
    (hk' : get' (key a) = some n) (ho : ∀ k, k ≠ key a → get' k = get k) (hp : nodes'.Perm ((n, a) :: nodes)) :
    Indexes key get' nodes' := by
  intro k m
  simp only [hp.mem_iff, List.mem_cons, Prod.mk.injEq]
  by_cases hka : k = key a
  · subst hka
    rw [hk', Option.some.injEq]
    constructor
    · rintro rfl; exact ⟨a, .inl ⟨rfl, rfl⟩, rfl⟩
    · rintro ⟨b, ⟨rfl, _⟩ | hb, hkey⟩
      · rfl
      · rw [← hkey, h.get_of_mem hb] at hk; cases hk
  · rw [ho k hka, h k m]
    constructor
    · rintro ⟨b, hb, hkey⟩; exact ⟨b, .inr hb, hkey⟩
    · rintro ⟨b, ⟨_, rfl⟩ | hb, hkey⟩
      · exact absurd hkey.symm hka
      · exact ⟨b, hb, hkey⟩

/-- A key's node taken out of the list and out of the index. -/
theorem Indexes.erase {l : NodeList α} (h : Indexes key get l.nodes) {k : κ} {n : Nat} (hk : get k = some n)
    (hk' : get' k = none) (ho : ∀ k', k' ≠ k → get' k' = get k') : Indexes key get' (l.erase n).nodes := by
  obtain ⟨a, ha, rfl⟩ := (h k n).mp hk
  intro k' m
  simp only [NodeList.mem_erase]
  by_cases hka : k' = key a
  · subst hka
    rw [hk']
    constructor
    · intro he; cases he
    · rintro ⟨b, ⟨hb, hne⟩, hkey⟩
      have := h.get_of_mem hb
      rw [hkey, hk] at this
      exact absurd (Option.some.inj this).symm hne
  · rw [ho k' hka, h k' m]
    constructor
    · rintro ⟨b, hb, hkey⟩
      refine ⟨b, ⟨hb, ?_⟩, hkey⟩
      rintro rfl
      rw [l.eq_of_mem hb ha] at hkey
      exact hka hkey.symm
    · rintro ⟨b, ⟨hb, _⟩, hkey⟩; exact ⟨b, hb, hkey⟩

/-- No two nodes have one key. -/
theorem Indexes.keys_nodup {l : NodeList α} (h : Indexes key get l.nodes) : (l.values.map key).Nodup := by
  rw [NodeList.values, List.map_map]
  refine List.Nodup.map_on (fun p hp q hq he => ?_) l.nodup.of_map
  have hn : some p.1 = some q.1 := by
    rw [← h.get_of_mem hp, ← h.get_of_mem hq]
    exact congrArg get he
  obtain ⟨n, a⟩ := p
  obtain ⟨m, b⟩ := q
  cases hn
  rw [l.eq_of_mem hp hq]

theorem Indexes.mem_keys {l : NodeList α} (h : Indexes key get l.nodes) {k : κ} :
    k ∈ l.values.map key ↔ ∃ n, get k = some n := by
  simp only [h k, NodeList.values, List.map_map, List.mem_map, Function.comp_apply]
  constructor
  · rintro ⟨q, hq, rfl⟩; exact ⟨q.1, q.2, hq, rfl⟩
  · rintro ⟨n, a, ha, rfl⟩; exact ⟨(n, a), ha, rfl⟩

/-- A list of keys without one of them. -/
theorem Indexes.erase_values [DecidableEq κ] {l : NodeList κ} (h : Indexes id get l.nodes) {k : κ} {n : Nat}
    (hk : get k = some n) : (l.erase n).values = l.values.filter (· != k) := by
  obtain ⟨a, ha, rfl⟩ := (h k n).mp hk
  rw [NodeList.values, NodeList.values, NodeList.erase, List.filter_map]
  refine congrArg _ (List.filter_congr fun q hq => ?_)
  have hiff : q.1 = n ↔ q.2 = a := by
    constructor
    · intro hn
      exact l.eq_of_mem (by rw [← hn]; exact hq) ha
    · intro he
      have hget := h.get_of_mem hq
      rw [show id q.2 = id a from he, hk] at hget
      exact (Option.some.inj hget).symm
  rw [Bool.eq_iff_iff]
  simp [hiff]

theorem Indexes.moveToFront_values [DecidableEq κ] {l : NodeList κ} (h : Indexes id get l.nodes) {k : κ} {n : Nat}
    (hk : get k = some n) : (l.moveToFront n).values = k :: l.values.filter (· != k) := by
  obtain ⟨a, ha, rfl⟩ := (h k n).mp hk
  have hget : l.get? n = some a := NodeList.get?_eq_some.mpr ha
  rw [← h.erase_values hk, NodeList.moveToFront]
  split
  next hn =>
    rw [hget] at hn
    cases hn
  next b hb =>
    rw [hget] at hb
    cases hb
    rfl

end Indexes

end Lib
