/-
`ClockPolicy` is a second-chance queue: its ring read round from the hand.

Wherever the hand stands, what is inserted before it is read last, and
moving it on takes the first of the reading to the end. So the sweep of
`PopVictim` sends the keys with set bits to the back, one a round, until it
is at a clear bit.
-/
import ReadCacheFs.EvictionPolicy
import ReadCacheFs.Lib.Runs
import ReadCacheFs.Lib.SecondChance

namespace ReadCacheFs

open Lib

namespace ClockPolicy

/-- The nodes of the ring from the hand round. -/
def reading (p : ClockPolicy) : List (Nat × ClockEntry) := p.ring.readFrom p.hand

/-- The keys and bits, the next one the hand comes to first. -/
def queue (p : ClockPolicy) : SecondChance InMemCacheBlock := p.reading.map fun q => (q.2.key, q.2.referenced)

/-- The policy as a machine that answers with the victim. -/
def step (p : ClockPolicy) : QueueAct InMemCacheBlock → Option InMemCacheBlock × ClockPolicy
  | .insert key => (none, p.onInsert key)
  | .hit key => (none, p.onHit key)
  | .erase key => (none, p.onErase key)
  | .pop => p.popVictim
  | .clear => (none, p.clear)

variable {p : ClockPolicy} {key : InMemCacheBlock} {n : Nat} {e : ClockEntry} {rest : List (Nat × ClockEntry)}

theorem mem_reading {q : Nat × ClockEntry} : q ∈ p.reading ↔ q ∈ p.ring.nodes :=
  (p.ring.readFrom_perm p.hand).mem_iff

theorem queue_keys_perm (p : ClockPolicy) : p.queue.keys.Perm p.keys := by
  have h := (p.ring.readFrom_perm p.hand).map fun q => q.2.key
  simpa [queue, reading, SecondChance.keys, keys, NodeList.values, Function.comp_def] using h

theorem OK.lookup_iff (h : p.OK) : p.index.lookup key = some n ↔ ∃ e, (n, e) ∈ p.reading ∧ e.key = key := by
  simp only [mem_reading]
  exact h.index key n

theorem OK.mem_queue (h : p.OK) : key ∈ p.queue.keys ↔ ∃ n, p.index.lookup key = some n :=
  p.queue_keys_perm.mem_iff.trans h.mem_keys

theorem OK.notMem_queue (h : p.OK) (hk : p.index.lookup key = none) : ∀ x ∈ p.queue, x.1 ≠ key := by
  intro x hx hkey
  obtain ⟨n, hn⟩ := h.mem_queue.mp (hkey ▸ List.mem_map_of_mem hx : key ∈ p.queue.keys)
  rw [hk] at hn
  cases hn

theorem OK.node_eq_iff (h : p.OK) (hk : p.index.lookup key = some n) {q : Nat × ClockEntry} (hq : q ∈ p.reading) :
    q.1 = n ↔ q.2.key = key := by
  obtain ⟨e, he, rfl⟩ := h.lookup_iff.mp hk
  constructor
  · intro hn
    rw [p.ring.eq_of_mem (mem_reading.mp he) (show (n, q.2) ∈ p.ring.nodes from hn ▸ mem_reading.mp hq)]
  · intro hkey
    have := h.index.get_of_mem (mem_reading.mp hq)
    rw [hkey, hk] at this
    exact (Option.some.inj this).symm

/-! ## Insert, hit, erase -/

theorem queue_onInsert (h : p.OK) (key : InMemCacheBlock) : (p.onInsert key).queue = p.queue.insert key := by
  unfold onInsert
  split
  next n hk => rw [SecondChance.insert, if_pos (h.mem_queue.mpr ⟨n, hk⟩)]
  next hk =>
    have hnot : key ∉ p.queue.keys := fun hm => by
      obtain ⟨x, hx, hkey⟩ := List.mem_map.mp hm
      exact h.notMem_queue hk x hx hkey
    rw [SecondChance.insert, if_neg hnot, queue, reading]
    dsimp only
    rw [NodeList.readFrom_insertBefore h.hand, List.map_append]
    rfl

theorem queue_onHit (h : p.OK) (key : InMemCacheBlock) : (p.onHit key).queue = p.queue.hit key := by
  unfold onHit
  split
  next hk =>
    have hsame : ∀ x ∈ p.queue, (if x.1 = key then (x.1, true) else x) = x :=
      fun x hx => if_neg (h.notMem_queue hk x hx)
    exact ((List.map_congr_left hsame).trans (List.map_id _)).symm
  next n hk =>
    simp only [queue, reading, NodeList.readFrom_modify, SecondChance.hit, List.map_map]
    refine List.map_congr_left fun q hq => ?_
    have hiff := h.node_eq_iff hk hq
    simp only [Function.comp_apply, ← hiff]
    split <;> rfl

theorem queue_onErase (h : p.OK) (key : InMemCacheBlock) : (p.onErase key).queue = p.queue.erase key := by
  cases hk : p.index.lookup key with
  | none =>
    have hsame : p.onErase key = p := by simp [onErase, hk]
    rw [hsame, SecondChance.erase, List.filter_eq_self.mpr fun x hx => bne_iff_ne.mpr (h.notMem_queue hk x hx)]
  | some n =>
    obtain ⟨e, he, _⟩ := h.lookup_iff.mp hk
    rw [onErase_of_lookup hk, queue, reading]
    dsimp only
    rw [NodeList.readFrom_handWithout h.hand (mem_reading.mp he), queue, SecondChance.erase, List.filter_map]
    refine congrArg _ (List.filter_congr fun q hq => ?_)
    have hiff := h.node_eq_iff hk hq
    rw [Bool.eq_iff_iff]
    simp [hiff]

/-! ## The victim -/

/-- A round at a node with its bit set: the bit is cleared, and the node read last. -/
theorem reading_advance (hread : p.reading = (n, e) :: rest) (hhand : p.hand = some n) :
    ({ p with
        ring := p.ring.modify n ({ · with referenced := false })
        hand := ({ p with ring := p.ring.modify n ({ · with referenced := false }) } : ClockPolicy).advance n } :
      ClockPolicy).reading = rest ++ [(n, { e with referenced := false })] := by
  rw [reading, hhand] at hread
  have hids : (p.ring.modify n ({ · with referenced := false })).nodes.map Prod.fst =
      p.ring.nodes.map Prod.fst := by
    have := congrArg (List.map Prod.fst) (p.ring.modify_map n (f := ({ · with referenced := false }))
        (g := ClockEntry.key)
      fun _ => rfl)
    simpa [List.map_map, Function.comp_def] using this
  have hrest : ∀ q ∈ rest, q.1 ≠ n := fun q hq =>
    (NodeList.mem_erase.mp ((NodeList.perm_erase_of_readFrom hread).mem_iff.mpr hq)).2
  rw [reading]
  dsimp only
  rw [advance_eq, hids, NodeList.readFrom_modify, NodeList.readFrom_next hread, List.map_append]
  congr 1
  · exact (List.map_congr_left fun q hq => if_neg (hrest q hq)).trans (List.map_id _)
  · simp

theorem OK.hand_eq (h : p.OK) {m : Nat} (hm : p.hand = some m) (hread : p.reading = (n, e) :: rest) : m = n := by
  obtain ⟨a, ha⟩ := h.hand m hm
  obtain ⟨rest', hrest⟩ := NodeList.readFrom_eq_cons ha
  rw [reading, hm, hrest] at hread
  cases hread
  rfl

theorem get_hand (hread : p.reading = (n, e) :: rest) (hhand : p.hand = some n) :
    (p.hand.bind fun n => (p.ring.get? n).map (n, ·)) = some (n, e) := by
  have hmem : (n, e) ∈ p.ring.nodes := mem_reading.mp (by rw [hread]; simp)
  simp [hhand, NodeList.get?_eq_some.mpr hmem]

/-- A round at a node with its bit clear: it is the victim. -/
theorem sweep_victim (hread : p.reading = (n, e) :: rest) (hhand : p.hand = some n)
    (hclear : e.referenced = false) (guard : Nat) :
    ∃ p', sweep (guard + 1) p = (some e.key, p') ∧ p'.reading = rest := by
  have hnext := p.ring.after?_or_front_erase n
  rw [sweep, get_hand hread hhand]
  simp only [hclear, Bool.not_false, if_true]
  refine ⟨_, rfl, ?_⟩
  rw [reading, hhand] at hread
  simp only [reading, begin]
  rw [hnext]
  exact NodeList.readFrom_erase_first hread

/-- A round at a node with its bit set: it goes to the back. -/
theorem sweep_round (h : p.OK) (hread : p.reading = (n, e) :: rest) (hhand : p.hand = some n)
    (hset : e.referenced = true) (guard : Nat) :
    ∃ p' m, sweep (guard + 1) p = sweep guard p' ∧ p'.OK ∧ p'.hand = some m ∧
      p'.reading = rest ++ [(n, { e with referenced := false })] := by
  have hmem : (n, e) ∈ p.ring.nodes := mem_reading.mp (by rw [hread]; simp)
  obtain ⟨hok, _⟩ := setReferenced_spec h n false
  have hne : (p.ring.modify n ({ · with referenced := false })).isEmpty = false := by
    cases hnodes : p.ring.nodes with
    | nil => simp [hnodes] at hmem
    | cons r rest => simp [NodeList.isEmpty, NodeList.modify, hnodes]
  obtain ⟨m, hm⟩ :=
    exists_advance (p := { p with ring := p.ring.modify n ({ · with referenced := false }) }) hne n
  have hnext := reading_advance hread hhand
  rw [hm] at hnext
  refine ⟨{ p with ring := p.ring.modify n ({ · with referenced := false }), hand := some m }, m, ?_,
    ⟨hok.index, fun k hk => ?_⟩, rfl, hnext⟩
  · rw [sweep, get_hand hread hhand]
    simp only [hset, Bool.not_true, Bool.false_eq_true, if_false]
    rw [← hm]
  · cases hk
    exact advance_mem hm

/-- The sweep comes to the first clear bit when it has rounds for the set
bits before it, and sends those to the back. -/
theorem reading_sweep {front : List (Nat × ClockEntry)} (hset : ∀ q ∈ front, q.2.referenced = true)
    (hclear : e.referenced = false) {guard : Nat} (hguard : front.length < guard) (h : p.OK) {m : Nat}
    (hm : p.hand = some m) (hread : p.reading = front ++ (n, e) :: rest) :
    ∃ p', sweep guard p = (some e.key, p') ∧
      p'.reading = rest ++ front.map fun q => (q.1, { q.2 with referenced := false }) := by
  obtain ⟨guard, rfl⟩ : ∃ g, guard = g + 1 := ⟨guard - 1, by omega⟩
  induction front generalizing guard p m rest with
  | nil =>
    obtain rfl := h.hand_eq hm hread
    obtain ⟨p', hs, hr⟩ := sweep_victim hread hm hclear guard
    exact ⟨p', hs, by simpa using hr⟩
  | cons q front ih =>
    rw [List.length_cons] at hguard
    rw [List.cons_append] at hread
    obtain rfl := h.hand_eq hm hread
    obtain ⟨p₁, m, hround, hok, hm, hnext⟩ := sweep_round h hread hm (hset q (by simp)) guard
    rw [List.append_assoc, List.cons_append] at hnext
    obtain ⟨guard, rfl⟩ : ∃ g, guard = g + 1 := ⟨guard - 1, by omega⟩
    obtain ⟨p', hs, hr⟩ := ih (fun r hr => hset r (by simp [hr])) hok hm hnext guard (by omega)
    exact ⟨p', hround.trans hs, by simpa using hr⟩

/-- The hand at the first node, when it was at the end: read as before. -/
theorem reading_started (h : p.OK) (hne : p.ring.isEmpty = false) :
    ∃ m, (if p.hand.isNone then p.begin else p.hand) = some m ∧ ({ p with hand := some m } : ClockPolicy).OK ∧
      ({ p with hand := some m } : ClockPolicy).reading = p.reading := by
  cases hh : p.hand with
  | some n => exact ⟨n, rfl, ⟨h.index, fun k hk => by cases hk; exact h.hand n hh⟩, by rw [reading, reading, hh]⟩
  | none =>
    obtain ⟨m, hm⟩ := exists_begin hne
    refine ⟨m, hm, ⟨h.index, fun k hk => by cases hk; exact begin_mem hm⟩, ?_⟩
    obtain ⟨q, hq, rfl⟩ := Option.map_eq_some_iff.mp hm
    obtain ⟨rest, hrest⟩ := List.head?_eq_some_iff.mp hq
    have hread : p.ring.readFrom (some q.1) = (q.1, q.2) :: (rest ++ []) := NodeList.readFrom_of_split hrest
    rw [List.append_nil] at hread
    rw [reading, reading, hh, NodeList.readFrom, hrest]
    exact hread

theorem queue_popVictim (h : p.OK) : p.popVictim.1 = p.queue.pop.1 ∧ p.popVictim.2.queue = p.queue.pop.2 := by
  have hsize : p.reading.length = p.ring.size := (p.ring.readFrom_perm p.hand).length_eq
  unfold popVictim
  cases he : p.ring.isEmpty with
  | true =>
    have hnil : p.reading = [] := by
      rw [← List.length_eq_zero_iff, hsize]
      simpa [NodeList.isEmpty, NodeList.size] using he
    simp [queue, hnil, SecondChance.pop]
  | false =>
    obtain ⟨m, hm, hok, hread⟩ := reading_started h he
    simp only [hm, Bool.false_eq_true, if_false]
    -- Either some bit is clear, or the first round clears one.
    rcases SecondChance.exists_front p.queue with ⟨front, k, rest, hq, hfront⟩ | hall
    · obtain ⟨rfront, rtail, hsplit, rfl, ht⟩ := List.map_eq_append_iff.mp hq
      obtain ⟨⟨n, e⟩, rrest, rfl, hke, rfl⟩ := List.map_eq_cons_iff.mp ht
      obtain ⟨rfl, hclear⟩ := Prod.mk.inj hke
      have hset : ∀ q ∈ rfront, q.2.referenced = true := fun q hq => hfront _ (List.mem_map_of_mem hq)
      have hlen := congrArg List.length hsplit
      rw [List.length_append, List.length_cons] at hlen
      have hguard : rfront.length < p.ring.size * 2 + 1 := by omega
      obtain ⟨p', hs, hr⟩ := reading_sweep hset hclear hguard hok rfl (hread.trans hsplit)
      rw [hs, hq, SecondChance.pop_of_clear hfront]
      refine ⟨rfl, ?_⟩
      rw [queue, hr]
      simp [SecondChance.cleared, Function.comp_def]
    · cases hr : p.reading with
      | nil =>
        rw [hr, List.length_nil] at hsize
        simp [NodeList.isEmpty, List.length_eq_zero_iff.mp hsize.symm] at he
      | cons q rest =>
        rw [hr] at hread hsize
        have hset : ∀ r ∈ q :: rest, r.2.referenced = true := fun r hr' => hall _ (List.mem_map_of_mem (hr ▸ hr'))
        obtain rfl := hok.hand_eq rfl hread
        obtain ⟨p₁, m, hround, hok₁, hm₁, hnext⟩ := sweep_round hok hread rfl (hset q (by simp)) (p.ring.size * 2)
        have hguard : rest.length < p.ring.size * 2 := by rw [List.length_cons] at hsize; omega
        obtain ⟨p', hs, hread'⟩ := reading_sweep (fun r hr => hset r (by simp [hr])) rfl hguard hok₁ hm₁ hnext
        have hq : p.queue = (q.2.key, q.2.referenced) :: rest.map fun q => (q.2.key, q.2.referenced) := by
          rw [queue, hr, List.map_cons]
        rw [hround, hs, hq, SecondChance.pop_of_all_set (hq ▸ hall)]
        refine ⟨rfl, ?_⟩
        rw [queue, hread']
        simp [SecondChance.cleared, Function.comp_def]

/-! ## Runs -/

theorem step_ok (h : p.OK) (a : QueueAct InMemCacheBlock) : (p.step a).2.OK := by
  cases a with
  | insert key => exact (onInsert_spec h key).1
  | hit key => exact (onHit_spec h key).1
  | erase key => exact (onErase_spec h key).1
  | pop => exact (popVictim_spec h).1
  | clear => exact (EvictionPolicy.clear_spec (.clock p)).1

/-- One operation of the policy is one of the queue. -/
theorem queue_step (h : p.OK) (a : QueueAct InMemCacheBlock) :
    (p.step a).1 = (p.queue.step a).1 ∧ (p.step a).2.queue = (p.queue.step a).2 := by
  cases a with
  | insert key => exact ⟨rfl, queue_onInsert h key⟩
  | hit key => exact ⟨rfl, queue_onHit h key⟩
  | erase key => exact ⟨rfl, queue_onErase h key⟩
  | pop => exact queue_popVictim h
  | clear => exact ⟨rfl, rfl⟩

theorem new_ok : ({} : ClockPolicy).OK := (EvictionPolicy.create_spec .clock).1

end ClockPolicy

/-- **CLOCK is second chance.** After any operations the ring read from the
hand is the second-chance queue, no key twice, the index points at its nodes
and at no others, and the hand at one of them; the victims have been the
queue's, and there is one unless the queue is empty. -/
theorem clock_is_second_chance (acts : List (QueueAct InMemCacheBlock)) :
    let (victims, p) := answers ClockPolicy.step {} acts
    answers SecondChance.step [] acts = (victims, p.queue) ∧ p.queue.keys.Nodup ∧
      (∀ key n, p.index.lookup key = some n ↔ ∃ e, (n, e) ∈ p.reading ∧ e.key = key) ∧
      (∀ n, p.hand = some n → ∃ e, (n, e) ∈ p.ring.nodes) ∧ (p.popVictim.1 = none ↔ p.queue = []) := by
  have hstep : ∀ (p : ClockPolicy) (q : SecondChance InMemCacheBlock) a, p.OK ∧ p.queue = q →
      (p.step a).1 = (q.step a).1 ∧ (p.step a).2.OK ∧ (p.step a).2.queue = (q.step a).2 := by
    rintro p _ a ⟨hok, rfl⟩
    obtain ⟨hans, hqueue⟩ := ClockPolicy.queue_step hok a
    exact ⟨hans, ClockPolicy.step_ok hok a, hqueue⟩
  obtain ⟨hans, hok, hqueue⟩ := answers_simulation acts (fun p q a _ => hstep p q a) ⟨ClockPolicy.new_ok, rfl⟩
  refine ⟨Prod.ext hans.symm hqueue.symm, ?_, fun key n => hok.lookup_iff, hok.hand, ?_⟩
  · exact (ClockPolicy.queue_keys_perm _).nodup_iff.mpr hok.index.keys_nodup
  · rw [(ClockPolicy.queue_popVictim hok).1]
    exact SecondChance.pop_eq_none_iff

end ReadCacheFs
