/-
The eviction policies: LRU, FIFO, MRU over a list of keys with an index
into it, CLOCK over a ring with a hand.

`keys` is what a policy tracks. `OK`: its index finds each tracked key's
node and nothing else, and CLOCK's hand is in the ring. The specifications
of the operations are in these terms alone, so the storage above never
looks inside a policy.
-/
import Mathlib.Data.List.AList
import ReadCacheFs.Basic
import ReadCacheFs.Lib.NodeList

namespace ReadCacheFs

open Lib

/-- Key to iterator. -/
abbrev PolicyIndex := AList fun _ : InMemCacheBlock => Nat

/-! ## Policies over a list -/

/-- The members of `LruPolicy`, `FifoPolicy` and `MruPolicy`. -/
structure ListPolicy where
  order : NodeList InMemCacheBlock := ∅
  index : PolicyIndex := ∅

namespace ListPolicy

variable (p : ListPolicy) (key : InMemCacheBlock)

/-- The key's node to the front. -/
def touch : ListPolicy :=
  match p.index.lookup key with
  | none => p
  | some n => { p with order := p.order.moveToFront n }

/-- `push_front`, and its iterator into the index. -/
def pushFront : ListPolicy :=
  { order := p.order.pushFront key, index := p.index.insert key p.order.fresh }

/-- `OnErase` of all three. -/
def onErase : ListPolicy :=
  match p.index.lookup key with
  | none => p
  | some n => { order := p.order.erase n, index := p.index.erase key }

/-- A victim at one end of the list, none when it is empty. -/
def pop (victim : Option (Nat × InMemCacheBlock)) : Option InMemCacheBlock × ListPolicy :=
  match victim with
  | none => (none, p)
  | some (n, k) => (some k, { order := p.order.erase n, index := p.index.erase k })

/-- `Clear` of all three. -/
def clear : ListPolicy := { order := p.order.clear, index := ∅ }

end ListPolicy

namespace LruPolicy

def onHit (p : ListPolicy) (key : InMemCacheBlock) : ListPolicy := p.touch key

def onInsert (p : ListPolicy) (key : InMemCacheBlock) : ListPolicy :=
  match p.index.lookup key with
  | some _ => p.touch key
  | none => p.pushFront key

def popVictim (p : ListPolicy) : Option InMemCacheBlock × ListPolicy := p.pop p.order.back?

end LruPolicy

namespace FifoPolicy

def onHit (p : ListPolicy) (_key : InMemCacheBlock) : ListPolicy := p

def onInsert (p : ListPolicy) (key : InMemCacheBlock) : ListPolicy :=
  match p.index.lookup key with
  | some _ => p
  | none => p.pushFront key

def popVictim (p : ListPolicy) : Option InMemCacheBlock × ListPolicy := p.pop p.order.back?

end FifoPolicy

namespace MruPolicy

def onHit (p : ListPolicy) (key : InMemCacheBlock) : ListPolicy := p.touch key

def onInsert (p : ListPolicy) (key : InMemCacheBlock) : ListPolicy :=
  match p.index.lookup key with
  | some _ => p.touch key
  | none => p.pushFront key

/-- The front, where LRU takes the back. -/
def popVictim (p : ListPolicy) : Option InMemCacheBlock × ListPolicy := p.pop p.order.front?

end MruPolicy

/-! ## CLOCK -/

structure ClockEntry where
  key : InMemCacheBlock
  referenced : Bool
  deriving DecidableEq, Repr

structure ClockPolicy where
  ring : NodeList ClockEntry := ∅
  /-- A node, none at `ring.end()`. -/
  hand : Option Nat := none
  index : PolicyIndex := ∅

namespace ClockPolicy

variable (p : ClockPolicy)

/-- `ring.begin()`. -/
def begin : Option Nat := p.ring.front?.map Prod.fst

/-- `Advance`, of an iterator at a node. -/
def advance (n : Nat) : Option Nat :=
  if p.ring.isEmpty then none
  else match p.ring.after? n with
    | some m => some m
    | none => p.begin

def onHit (key : InMemCacheBlock) : ClockPolicy :=
  match p.index.lookup key with
  | none => p
  | some n => { p with ring := p.ring.modify n ({ · with referenced := true }) }

def onInsert (key : InMemCacheBlock) : ClockPolicy :=
  match p.index.lookup key with
  | some _ => p
  | none => { p with ring := p.ring.insertBefore p.hand ⟨key, false⟩, index := p.index.insert key p.ring.fresh }

def onErase (key : InMemCacheBlock) : ClockPolicy :=
  match p.index.lookup key with
  | none => p
  | some n =>
    let hand := if p.hand = some n then p.advance n else p.hand
    let ring := p.ring.erase n
    { ring, hand := if ring.isEmpty then none else hand, index := p.index.erase key }

/-- The loop of `PopVictim`: a sweep of the hand, at a node. -/
def sweep : Nat → ClockPolicy → Option InMemCacheBlock × ClockPolicy
  | 0, p => (none, p)
  | guard + 1, p =>
    match p.hand.bind fun n => (p.ring.get? n).map (n, ·) with
    | none => (none, p)
    | some (n, e) =>
      if !e.referenced then
        let next := p.ring.after? n
        let p' : ClockPolicy := { ring := p.ring.erase n, hand := next, index := p.index.erase e.key }
        (some e.key, { p' with hand := if next.isNone then p'.begin else next })
      else
        let p' := { p with ring := p.ring.modify n ({ · with referenced := false }) }
        sweep guard { p' with hand := p'.advance n }

def popVictim : Option InMemCacheBlock × ClockPolicy :=
  if p.ring.isEmpty then (none, p)
  else sweep (p.ring.size * 2 + 1) { p with hand := if p.hand.isNone then p.begin else p.hand }

def clear : ClockPolicy := { ring := p.ring.clear, hand := none, index := ∅ }

end ClockPolicy

/-! ## The interface -/

inductive EvictionPolicyKind
  | lru
  | fifo
  | clock
  | mru
  deriving DecidableEq, Repr

inductive EvictionPolicy
  | lru (p : ListPolicy)
  | fifo (p : ListPolicy)
  | clock (p : ClockPolicy)
  | mru (p : ListPolicy)

/-- The names `IsValidEvictionPolicy` knows. -/
def EvictionPolicyKind.ofName (name : String) : Option EvictionPolicyKind :=
  if name = "lru" then some .lru
  else if name = "fifo" then some .fifo
  else if name = "clock" then some .clock
  else if name = "mru" then some .mru
  else none

def createEvictionPolicy : EvictionPolicyKind → EvictionPolicy
  | .lru => .lru {}
  | .fifo => .fifo {}
  | .clock => .clock {}
  | .mru => .mru {}

namespace EvictionPolicy

def onHit (key : InMemCacheBlock) : EvictionPolicy → EvictionPolicy
  | .lru p => .lru (LruPolicy.onHit p key)
  | .fifo p => .fifo (FifoPolicy.onHit p key)
  | .clock p => .clock (p.onHit key)
  | .mru p => .mru (MruPolicy.onHit p key)

/-- None of the policies looks at the size or the cost. -/
def onInsert (key : InMemCacheBlock) : EvictionPolicy → EvictionPolicy
  | .lru p => .lru (LruPolicy.onInsert p key)
  | .fifo p => .fifo (FifoPolicy.onInsert p key)
  | .clock p => .clock (p.onInsert key)
  | .mru p => .mru (MruPolicy.onInsert p key)

def onErase (key : InMemCacheBlock) : EvictionPolicy → EvictionPolicy
  | .lru p => .lru (p.onErase key)
  | .fifo p => .fifo (p.onErase key)
  | .clock p => .clock (p.onErase key)
  | .mru p => .mru (p.onErase key)

def popVictim : EvictionPolicy → Option InMemCacheBlock × EvictionPolicy
  | .lru p => (LruPolicy.popVictim p).map id .lru
  | .fifo p => (FifoPolicy.popVictim p).map id .fifo
  | .clock p => p.popVictim.map id .clock
  | .mru p => (MruPolicy.popVictim p).map id .mru

/-- `Admit`, which no policy overrides. -/
def admits (_size : Nat) : EvictionPolicy → Bool := fun _ => true

def clear : EvictionPolicy → EvictionPolicy
  | .lru p => .lru p.clear
  | .fifo p => .fifo p.clear
  | .clock p => .clock p.clear
  | .mru p => .mru p.clear

def getName : EvictionPolicy → String
  | .lru _ => "lru"
  | .fifo _ => "fifo"
  | .clock _ => "clock"
  | .mru _ => "mru"

/-- The keys tracked, in the order of the list or ring. -/
def keys : EvictionPolicy → List InMemCacheBlock
  | .lru p | .fifo p | .mru p => p.order.values
  | .clock p => p.ring.values.map (·.key)

end EvictionPolicy

/-! ## A victim is one key fewer

Whatever state the policy is in: the loop that evicts until there is room
ends because of this. -/

theorem ListPolicy.pop_size {p p' : ListPolicy} {victim : Option (Nat × InMemCacheBlock)}
    {v : InMemCacheBlock} (hv : ∀ q, victim = some q → q ∈ p.order.nodes) (h : p.pop victim = (some v, p')) :
    p'.order.size < p.order.size := by
  cases victim with
  | none => cases h
  | some q => cases h; exact NodeList.size_erase_lt (hv q rfl)

theorem ClockPolicy.sweep_size : ∀ {guard : Nat} {p p' : ClockPolicy} {v : InMemCacheBlock},
    sweep guard p = (some v, p') → p'.ring.size < p.ring.size
  | 0, p, p', v, h => by cases h
  | guard + 1, p, p', v, h => by
    rw [sweep] at h
    split at h
    next => cases h
    next n e he =>
      obtain ⟨m, _, he⟩ := Option.bind_eq_some_iff.mp he
      obtain ⟨a, ha, he⟩ := Option.map_eq_some_iff.mp he
      cases he
      dsimp only at h
      split at h
      · cases h; exact NodeList.size_erase_lt (NodeList.get?_eq_some.mp ha)
      · simpa using sweep_size h

theorem EvictionPolicy.popVictim_size {p p' : EvictionPolicy} {v : InMemCacheBlock}
    (h : p.popVictim = (some v, p')) : p'.keys.length < p.keys.length := by
  cases p with
  | lru p | fifo p =>
    cases h' : p.pop p.order.back? with
    | mk o q =>
    simp only [popVictim, LruPolicy.popVictim, FifoPolicy.popVictim, h'] at h
    cases h
    simpa [keys, NodeList.values, NodeList.size] using ListPolicy.pop_size
      (fun q hq => List.mem_of_getLast? hq) h'
  | mru p =>
    cases h' : p.pop p.order.front? with
    | mk o q =>
    simp only [popVictim, MruPolicy.popVictim, h'] at h
    cases h
    simpa [keys, NodeList.values, NodeList.size] using ListPolicy.pop_size (fun q hq => List.mem_of_head? hq) h'
  | clock p =>
    cases h' : p.popVictim with
    | mk o q =>
    simp only [popVictim, h'] at h
    cases h
    unfold ClockPolicy.popVictim at h'
    split at h'
    · cases h'
    · simpa [keys, NodeList.values, NodeList.size] using ClockPolicy.sweep_size h'

/-! ## Erasing two keys, in either order

In any state. CLOCK's hand moves on from a node that goes, to the next of
those that stay. -/

theorem ListPolicy.onErase_comm (p : ListPolicy) (a b : InMemCacheBlock) :
    (p.onErase a).onErase b = (p.onErase b).onErase a := by
  by_cases hab : a = b
  · rw [hab]
  · cases ha : p.index.lookup a <;> cases hb : p.index.lookup b <;>
      simp [onErase, ha, hb, AList.lookup_erase_ne hab, AList.lookup_erase_ne (Ne.symm hab)]
    exact ⟨p.order.erase_comm _ _, AList.erase_erase _ _ _⟩

theorem ClockPolicy.advance_eq (p : ClockPolicy) (n : Nat) :
    p.advance n = cyclicNext (p.ring.nodes.map Prod.fst) n := by
  rw [← NodeList.after?_or_front, advance]
  split
  next he =>
    simp only [NodeList.isEmpty, List.isEmpty_iff] at he
    simp [NodeList.after?, NodeList.front?, he]
  next => cases p.ring.after? n <;> rfl

theorem ClockPolicy.onErase_of_lookup {p : ClockPolicy} {key : InMemCacheBlock} {n : Nat}
    (h : p.index.lookup key = some n) :
    p.onErase key =
      { ring := p.ring.erase n
        hand := handWithout (p.ring.nodes.map Prod.fst) p.hand n
        index := p.index.erase key } := by
  have hnil : (p.ring.erase n).isEmpty = true ↔ (p.ring.nodes.map Prod.fst).filter (· != n) = [] := by
    simp [NodeList.isEmpty, NodeList.erase, List.filter_map]
  simp only [onErase, h, advance_eq, handWithout, hnil]

theorem ClockPolicy.onErase_comm (p : ClockPolicy) (a b : InMemCacheBlock) :
    (p.onErase a).onErase b = (p.onErase b).onErase a := by
  by_cases hab : a = b
  · rw [hab]
  have hnone : ∀ {q : ClockPolicy} {key : InMemCacheBlock}, q.index.lookup key = none → q.onErase key = q := by
    intro q key h
    simp [onErase, h]
  cases ha : p.index.lookup a with
  | none =>
    rw [hnone ha]
    refine (hnone ?_).symm
    cases hb : p.index.lookup b with
    | none => rw [hnone hb, ha]
    | some m => rw [onErase_of_lookup hb, AList.lookup_erase_ne hab, ha]
  | some n =>
    have hb' : (p.onErase a).index.lookup b = p.index.lookup b := by
      rw [onErase_of_lookup ha, AList.lookup_erase_ne (Ne.symm hab)]
    cases hb : p.index.lookup b with
    | none => rw [hnone hb, hnone (hb'.trans hb)]
    | some m =>
      have ha' : (p.onErase b).index.lookup a = some n := by
        rw [onErase_of_lookup hb, AList.lookup_erase_ne hab, ha]
      rw [onErase_of_lookup (hb'.trans hb), onErase_of_lookup ha', onErase_of_lookup ha, onErase_of_lookup hb]
      have hnodes : ∀ k, (p.ring.erase k).nodes.map Prod.fst = (p.ring.nodes.map Prod.fst).filter (· != k) := by
        intro k
        simp [NodeList.erase, List.filter_map, Function.comp_def]
      simp only [hnodes, p.ring.erase_comm n m, AList.erase_erase a b]
      by_cases hnm : n = m
      · rw [hnm]
      · rw [handWithout_comm p.ring.nodup p.hand hnm]

theorem EvictionPolicy.onErase_comm (p : EvictionPolicy) (a b : InMemCacheBlock) :
    (p.onErase a).onErase b = (p.onErase b).onErase a := by
  cases p with
  | lru p | fifo p | mru p => simp only [onErase, ListPolicy.onErase_comm p a b]
  | clock p => simp only [onErase, ClockPolicy.onErase_comm p a b]

/-! ## What a policy tracks -/

namespace ListPolicy

variable {p : ListPolicy} {key : InMemCacheBlock}

/-- The index finds each key's node. -/
def OK (p : ListPolicy) : Prop := Indexes id (fun k => p.index.lookup k) p.order.nodes

theorem OK.mem_values (h : p.OK) : key ∈ p.order.values ↔ ∃ n, p.index.lookup key = some n := by
  simpa using Indexes.mem_keys h (k := key)

theorem touch_spec (h : p.OK) (key : InMemCacheBlock) :
    (p.touch key).OK ∧ (p.touch key).order.values.Perm p.order.values := by
  unfold touch
  split
  next => exact ⟨h, .refl _⟩
  next n _ => exact ⟨Indexes.perm h (p.order.moveToFront_perm n), (p.order.moveToFront_perm n).map _⟩

theorem pushFront_spec (h : p.OK) (hk : p.index.lookup key = none) :
    (p.pushFront key).OK ∧ (p.pushFront key).order.values = key :: p.order.values := by
  refine ⟨Indexes.insert (a := key) (n := p.order.fresh) h hk ?_ (fun k hne => ?_) (.refl _), rfl⟩
  · exact AList.lookup_insert _
  · exact AList.lookup_insert_ne hne

/-- A key and its node taken out. -/
theorem eraseNode_spec (h : p.OK) {n : Nat} (hk : p.index.lookup key = some n) :
    (({ order := p.order.erase n, index := p.index.erase key } : ListPolicy)).OK ∧
      p.order.values.Perm (key :: (p.order.erase n).values) := by
  obtain ⟨a, ha, rfl⟩ := (h key n).mp hk
  refine ⟨Indexes.erase h hk (AList.lookup_erase _ _) fun k hne => AList.lookup_erase_ne hne, ?_⟩
  exact (NodeList.perm_erase ha).map Prod.snd

theorem onErase_spec (h : p.OK) (key : InMemCacheBlock) :
    (p.onErase key).OK ∧ (p.onErase key).order.values.Perm (p.order.values.erase key) := by
  unfold onErase
  split
  next hk =>
    refine ⟨h, ?_⟩
    rw [List.erase_of_not_mem fun hm => ?_]
    obtain ⟨n, hn⟩ := h.mem_values.mp hm
    rw [hk] at hn
    cases hn
  next n hk =>
    obtain ⟨hok, hp⟩ := eraseNode_spec h hk
    exact ⟨hok, (List.cons_perm_iff_perm_erase.mp hp.symm).2⟩

theorem pop_spec (h : p.OK) {victim : Option (Nat × InMemCacheBlock)}
    (hv : ∀ q, victim = some q → q ∈ p.order.nodes) :
    (p.pop victim).2.OK ∧ match (p.pop victim).1 with
      | none => victim = none
      | some v => p.order.values.Perm (v :: (p.pop victim).2.order.values) := by
  cases victim with
  | none => exact ⟨h, rfl⟩
  | some q =>
    obtain ⟨hok, hp⟩ := eraseNode_spec h (Indexes.get_of_mem h (hv q rfl))
    exact ⟨hok, hp⟩

end ListPolicy

namespace ClockPolicy

variable {p : ClockPolicy} {key : InMemCacheBlock}

/-- The index finds each key's node, and the hand is in the ring or at its end. -/
structure OK (p : ClockPolicy) : Prop where
  index : Indexes ClockEntry.key (fun k => p.index.lookup k) p.ring.nodes
  hand : ∀ n, p.hand = some n → ∃ e, (n, e) ∈ p.ring.nodes

def keys (p : ClockPolicy) : List InMemCacheBlock := p.ring.values.map (·.key)

theorem keys_eq_map (p : ClockPolicy) : p.keys = (p.ring.nodes.map fun q => (q.1, q.2.key)).map Prod.snd := by
  simp [keys, NodeList.values]

theorem begin_mem {n : Nat} (h : p.begin = some n) : ∃ e, (n, e) ∈ p.ring.nodes := by
  obtain ⟨q, hq, rfl⟩ := Option.map_eq_some_iff.mp h
  exact ⟨q.2, NodeList.front?_mem hq⟩

theorem exists_begin (h : p.ring.isEmpty = false) : ∃ n, p.begin = some n := by
  cases hn : p.ring.nodes with
  | nil => simp [NodeList.isEmpty, hn] at h
  | cons q rest => exact ⟨q.1, by simp [begin, NodeList.front?, hn]⟩

theorem exists_advance (h : p.ring.isEmpty = false) (n : Nat) : ∃ m, p.advance n = some m := by
  unfold advance
  rw [h]
  cases p.ring.after? n with
  | some m => exact ⟨m, rfl⟩
  | none => exact exists_begin h

theorem advance_mem {n m : Nat} (h : p.advance n = some m) : ∃ e, (m, e) ∈ p.ring.nodes := by
  unfold advance at h
  split at h
  · cases h
  split at h
  next m' ha => cases h; exact (NodeList.after?_spec ha).1
  next => exact begin_mem h

/-- The bits of a node's entry set or cleared. -/
theorem setReferenced_spec (h : p.OK) (n : Nat) (b : Bool) :
    ({ p with ring := p.ring.modify n ({ · with referenced := b }) } : ClockPolicy).OK ∧
      ({ p with ring := p.ring.modify n ({ · with referenced := b }) } : ClockPolicy).keys = p.keys := by
  have hm := p.ring.modify_map n (f := ({ · with referenced := b })) (g := ClockEntry.key) fun _ => rfl
  refine ⟨⟨h.index.of_map_eq hm, fun m hh => ?_⟩, by rw [keys_eq_map, keys_eq_map, hm]⟩
  obtain ⟨e, he⟩ := h.hand m hh
  have : (m, e.key) ∈ (p.ring.modify n ({ · with referenced := b })).nodes.map fun q => (q.1, q.2.key) := by
    rw [hm]; exact List.mem_map.mpr ⟨_, he, rfl⟩
  obtain ⟨q, hq, heq⟩ := List.mem_map.mp this
  have hm : q.1 = m := congrArg Prod.fst heq
  exact ⟨q.2, hm ▸ hq⟩

theorem onHit_spec (h : p.OK) (key : InMemCacheBlock) : (p.onHit key).OK ∧ (p.onHit key).keys = p.keys := by
  unfold onHit
  split
  next => exact ⟨h, rfl⟩
  next n _ => exact setReferenced_spec h n true

theorem OK.mem_keys (h : p.OK) : key ∈ p.keys ↔ ∃ n, p.index.lookup key = some n := h.index.mem_keys

theorem onInsert_spec (h : p.OK) (key : InMemCacheBlock) : (p.onInsert key).OK ∧
    (p.onInsert key).keys.Perm (if key ∈ p.keys then p.keys else key :: p.keys) := by
  unfold onInsert
  split
  next n hk =>
    rw [if_pos (h.mem_keys.mpr ⟨n, hk⟩)]
    exact ⟨h, .refl _⟩
  next hk =>
    have hnot : key ∉ p.keys := fun hm => by
      obtain ⟨n, hn⟩ := h.mem_keys.mp hm
      rw [hk] at hn; cases hn
    rw [if_neg hnot]
    have hp := p.ring.insertBefore_perm p.hand ⟨key, false⟩
    refine ⟨⟨Indexes.insert (a := ⟨key, false⟩) (n := p.ring.fresh) h.index hk (AList.lookup_insert _)
      (fun k hne => AList.lookup_insert_ne hne) hp, fun n hn => ?_⟩, ?_⟩
    · obtain ⟨e, he⟩ := h.hand n hn
      exact ⟨e, hp.mem_iff.mpr (by simp [he])⟩
    · exact (hp.map Prod.snd).map ClockEntry.key

/-- A node taken out, with the hand somewhere in what is left. -/
theorem eraseNode_spec (h : p.OK) {n : Nat} {e : ClockEntry} (he : (n, e) ∈ p.ring.nodes) (hand : Option Nat)
    (hh : ∀ m, hand = some m → ∃ e, (m, e) ∈ (p.ring.erase n).nodes) :
    ({ ring := p.ring.erase n, hand, index := p.index.erase e.key } : ClockPolicy).OK ∧
      p.keys.Perm (e.key ::
        ({ ring := p.ring.erase n, hand, index := p.index.erase e.key } : ClockPolicy).keys) := by
  refine ⟨⟨Indexes.erase h.index (h.index.get_of_mem he)
    (AList.lookup_erase _ _) fun k hne => AList.lookup_erase_ne hne,
    hh⟩, ?_⟩
  exact ((NodeList.perm_erase he).map Prod.snd).map ClockEntry.key

theorem onErase_spec (h : p.OK) (key : InMemCacheBlock) : (p.onErase key).OK ∧
    (p.onErase key).keys.Perm (p.keys.erase key) := by
  unfold onErase
  split
  next hk =>
    refine ⟨h, ?_⟩
    rw [List.erase_of_not_mem fun hm => ?_]
    obtain ⟨n, hn⟩ := h.mem_keys.mp hm
    rw [hk] at hn; cases hn
  next n hk =>
    obtain ⟨e, he, rfl⟩ := (h.index key n).mp hk
    have hspec := eraseNode_spec h he
      (if (p.ring.erase n).isEmpty then none else if p.hand = some n then p.advance n else p.hand) fun m hm => ?_
    · exact ⟨hspec.1, (List.cons_perm_iff_perm_erase.mp hspec.2.symm).2⟩
    · -- The hand has left the node, unless nothing else is there.
      split at hm
      · cases hm
      next hne =>
        split at hm
        next hhand =>
          unfold advance at hm
          split at hm
          · cases hm
          split at hm
          next m' ha =>
            cases hm
            obtain ⟨⟨a, hma⟩, hmn⟩ := NodeList.after?_spec ha
            exact ⟨a, NodeList.mem_erase.mpr ⟨hma, hmn⟩⟩
          next ha =>
            obtain ⟨q, hq, rfl⟩ := Option.map_eq_some_iff.mp hm
            refine ⟨q.2, NodeList.mem_erase.mpr ⟨NodeList.front?_mem hq, fun hqn => ?_⟩⟩
            obtain ⟨m, a⟩ := q
            dsimp only at hqn
            subst hqn
            simp [NodeList.isEmpty, NodeList.erase_eq_nil_of_front hq ha] at hne
        next hhand =>
          obtain ⟨a, ha⟩ := h.hand m hm
          exact ⟨a, NodeList.mem_erase.mpr ⟨ha, fun hmn => hhand (hmn ▸ hm)⟩⟩

/-- The sweep ends at a victim once it has rounds for every set bit. -/
theorem sweep_spec : ∀ (guard : Nat) (p : ClockPolicy), p.OK → (∃ n, p.hand = some n) →
    p.ring.values.countP (·.referenced) < guard →
    ∃ v p', sweep guard p = (some v, p') ∧ p'.OK ∧ p.keys.Perm (v :: p'.keys)
  | 0, p, _, _, hg => by omega
  | guard + 1, p, h, ⟨n, hn⟩, hg => by
    obtain ⟨e, he⟩ := h.hand n hn
    have hget : (p.hand.bind fun n => (p.ring.get? n).map (n, ·)) = some (n, e) := by
      simp [hn, NodeList.get?_eq_some.mpr he]
    rw [sweep, hget]
    dsimp only
    cases hr : e.referenced with
    | false =>
      have hspec := eraseNode_spec h he
        (if (p.ring.after? n).isNone then
          ({ ring := p.ring.erase n, hand := p.ring.after? n, index := p.index.erase e.key } : ClockPolicy).begin
        else p.ring.after? n) fun m hm => ?_
      · exact ⟨e.key, _, rfl, hspec⟩
      · split at hm
        · exact begin_mem hm
        · obtain ⟨⟨a, ha⟩, hne⟩ := NodeList.after?_spec hm
          exact ⟨a, NodeList.mem_erase.mpr ⟨ha, hne⟩⟩
    | true =>
      obtain ⟨hok, hkeys⟩ := setReferenced_spec h n false
      have hne : (p.ring.modify n ({ · with referenced := false })).isEmpty = false := by
        cases hnodes : p.ring.nodes with
        | nil => simp [hnodes] at he
        | cons q rest => simp [NodeList.isEmpty, NodeList.modify, hnodes]
      obtain ⟨m, hm⟩ := exists_advance
        (p := { p with ring := p.ring.modify n ({ · with referenced := false }) }) hne n
      -- One set bit fewer than before.
      have hcount : (p.ring.modify n ({ · with referenced := false })).values.countP (·.referenced) <
          p.ring.values.countP (·.referenced) := by
        have h1 := ((p.ring.modify_perm ({ · with referenced := false }) he).map Prod.snd).countP_eq
          (fun e : ClockEntry => e.referenced)
        have h2 := ((NodeList.perm_erase he).map Prod.snd).countP_eq (fun e : ClockEntry => e.referenced)
        simp only [List.map_cons, List.countP_cons, hr, if_true, if_false, Bool.false_eq_true] at h1 h2
        simp only [NodeList.values]
        omega
      obtain ⟨v, p', hs, hok', hp⟩ := sweep_spec guard
        { p with ring := p.ring.modify n ({ · with referenced := false }), hand := some m }
        ⟨hok.index, fun k hk => by cases hk; exact advance_mem hm⟩ ⟨m, rfl⟩ (by dsimp only; omega)
      refine ⟨v, p', ?_, hok', hkeys ▸ hp⟩
      rw [← hs, ← hm]
      rfl

/-- A victim is found whenever the ring is not empty. -/
theorem popVictim_spec (h : p.OK) : p.popVictim.2.OK ∧ match p.popVictim.1 with
    | none => p.keys = []
    | some v => p.keys.Perm (v :: p.popVictim.2.keys) := by
  unfold popVictim
  cases he : p.ring.isEmpty with
  | true =>
    refine ⟨h, ?_⟩
    simp only [NodeList.isEmpty, List.isEmpty_iff] at he
    simp [keys, NodeList.values, he]
  | false =>
    have hle : p.ring.values.countP (·.referenced) ≤ p.ring.size := by
      simpa [NodeList.values, NodeList.size] using
        List.countP_le_length (p := fun e : ClockEntry => e.referenced) (l := p.ring.values)
    have hhand : ∃ n, (if p.hand.isNone then p.begin else p.hand) = some n ∧ ∃ e, (n, e) ∈ p.ring.nodes := by
      cases hh : p.hand with
      | none =>
        obtain ⟨n, hn⟩ := exists_begin he
        exact ⟨n, hn, begin_mem hn⟩
      | some n => exact ⟨n, rfl, h.hand n hh⟩
    obtain ⟨n, hn, hmem⟩ := hhand
    obtain ⟨v, p', hs, hok, hp⟩ := sweep_spec (p.ring.size * 2 + 1) { p with hand := some n }
      ⟨h.index, fun k hk => by cases hk; exact hmem⟩ ⟨n, rfl⟩ (by dsimp only; omega)
    simp only [hn, hs, Bool.false_eq_true, if_false]
    exact ⟨hok, hp⟩

end ClockPolicy

namespace EvictionPolicy

variable {p : EvictionPolicy} {key : InMemCacheBlock}

def OK : EvictionPolicy → Prop
  | .lru p | .fifo p | .mru p => p.OK
  | .clock p => p.OK

theorem create_spec (kind : EvictionPolicyKind) :
    (createEvictionPolicy kind).OK ∧ (createEvictionPolicy kind).keys = [] := by
  have hl : ({} : ListPolicy).OK := Indexes.nil fun k => AList.lookup_empty k
  have hc : ({} : ClockPolicy).OK := ⟨Indexes.nil fun k => AList.lookup_empty k, by simp⟩
  cases kind
  · exact ⟨hl, rfl⟩
  · exact ⟨hl, rfl⟩
  · exact ⟨hc, rfl⟩
  · exact ⟨hl, rfl⟩

theorem onHit_spec (h : p.OK) (key : InMemCacheBlock) : (p.onHit key).OK ∧ (p.onHit key).keys.Perm p.keys := by
  cases p with
  | lru p => exact ListPolicy.touch_spec h key
  | fifo p => exact ⟨h, .refl _⟩
  | clock p => exact ⟨(ClockPolicy.onHit_spec h key).1, .of_eq (ClockPolicy.onHit_spec h key).2⟩
  | mru p => exact ListPolicy.touch_spec h key

theorem onInsert_spec (h : p.OK) (key : InMemCacheBlock) : (p.onInsert key).OK ∧
    (p.onInsert key).keys.Perm (if key ∈ p.keys then p.keys else key :: p.keys) := by
  -- The list policies differ only in what they do with a key that is there already.
  have hlist : ∀ {p : ListPolicy}, p.OK → ∀ {again : ListPolicy}, again.OK →
    again.order.values.Perm p.order.values →
      ∀ p' : ListPolicy, p' = (match p.index.lookup key with | some _ => again | none => p.pushFront key) →
      p'.OK ∧ p'.order.values.Perm (if key ∈ p.order.values then p.order.values else key :: p.order.values) := by
    intro p h again ha hp p' he
    subst he
    split
    next n hk =>
      rw [if_pos (h.mem_values.mpr ⟨n, hk⟩)]
      exact ⟨ha, hp⟩
    next hk =>
      have hnot : key ∉ p.order.values := fun hm => by
        obtain ⟨n, hn⟩ := h.mem_values.mp hm
        rw [hk] at hn; cases hn
      rw [if_neg hnot]
      exact ⟨(ListPolicy.pushFront_spec h hk).1, .of_eq (ListPolicy.pushFront_spec h hk).2⟩
  cases p with
  | lru p =>
    have ht := ListPolicy.touch_spec h key
    exact hlist h ht.1 ht.2 (LruPolicy.onInsert p key) rfl
  | fifo p => exact hlist h h (.refl _) (FifoPolicy.onInsert p key) rfl
  | clock p => exact ClockPolicy.onInsert_spec h key
  | mru p =>
    have ht := ListPolicy.touch_spec h key
    exact hlist h ht.1 ht.2 (MruPolicy.onInsert p key) rfl

theorem onErase_spec (h : p.OK) (key : InMemCacheBlock) : (p.onErase key).OK ∧
    (p.onErase key).keys.Perm (p.keys.erase key) := by
  cases p with
  | lru p | fifo p | mru p => exact ListPolicy.onErase_spec h key
  | clock p => exact ClockPolicy.onErase_spec h key

theorem popVictim_spec (h : p.OK) : p.popVictim.2.OK ∧ match p.popVictim.1 with
    | none => p.keys = []
    | some v => p.keys.Perm (v :: p.popVictim.2.keys) := by
  have hlist : ∀ {p : ListPolicy}, p.OK → ∀ {victim : Option (Nat × InMemCacheBlock)},
      (∀ q, victim = some q → q ∈ p.order.nodes) → (victim = none → p.order.nodes = []) →
      (p.pop victim).2.OK ∧ match (p.pop victim).1 with
        | none => p.order.values = []
        | some v => p.order.values.Perm (v :: (p.pop victim).2.order.values) := by
    intro p h victim hmem hnone
    obtain ⟨hok, hv⟩ := ListPolicy.pop_spec h hmem
    refine ⟨hok, ?_⟩
    split
    next he => rw [he] at hv; simp [NodeList.values, hnone hv]
    next v he => rw [he] at hv; exact hv
  cases p with
  | lru p => exact hlist h (fun q hq => List.mem_of_getLast? hq) (fun hn => List.getLast?_eq_none_iff.mp hn)
  | fifo p => exact hlist h (fun q hq => List.mem_of_getLast? hq) (fun hn => List.getLast?_eq_none_iff.mp hn)
  | clock p => exact ClockPolicy.popVictim_spec h
  | mru p => exact hlist h (fun q hq => List.mem_of_head? hq) (fun hn => List.head?_eq_none_iff.mp hn)

theorem clear_spec (p : EvictionPolicy) : p.clear.OK ∧ p.clear.keys = [] := by
  have hl : ∀ p : ListPolicy, p.clear.OK := fun p => Indexes.nil fun k => AList.lookup_empty k
  cases p with
  | lru p | fifo p | mru p => exact ⟨hl p, rfl⟩
  | clock p => exact ⟨⟨Indexes.nil fun k => AList.lookup_empty k, by simp [ClockPolicy.clear]⟩, rfl⟩

end EvictionPolicy

end ReadCacheFs
