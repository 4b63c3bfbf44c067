/-
`ThreadSafeSharedValueLruCache`: the LRU cache behind a mutex, and
`GetOrCreate`, which runs one factory per key at a time.

The machine takes one critical section a step. A call that finds its key
being created waits on the creator's token: it is `waiting` until the
creator notifies it, or a spurious wake-up, and then looks again under the
lock. A token is named by the number of tokens made before it.
-/
import ReadCacheFs.Lib.Runs
import ReadCacheFs.SharedValueLru

namespace ReadCacheFs

open Lib

/-- `CreationToken`, with the key it was made for. -/
structure CreationToken (K V E : Type) where
  key : K
  val : Option V := none
  eptr : Option E := none
  count : Int := 0
  deriving DecidableEq, Repr

/-- What a call that waited for the token returns or rethrows; none while
the creation is unfinished. -/
def CreationToken.result {K V E : Type} (tok : CreationToken K V E) : Option (Except E V) :=
  match tok.eptr, tok.val with
  | some e, _ => some (.error e)
  | none, some v => some (.ok v)
  | none, none => none

inductive CreatePc (V E : Type)
  | start
  | waiting (token : Nat) (notified : Bool)
  | creating (token : Nat)
  /-- Its factory has returned or thrown; before the second critical section. -/
  | created (token : Nat) (result : Except E V)
  /-- Returned or threw: from the cache, or from a token. -/
  | done (token : Option Nat) (result : Except E V)
  deriving DecidableEq

structure CreateCall (K V E : Type) where
  key : K
  pc : CreatePc V E := .start
  deriving DecidableEq

structure FlightState (K V E : Type) [Ord K] where
  internalCache : SharedValueLruCache K V
  ongoingCreation : Std.TreeMap K Nat := ∅
  tokens : List (CreationToken K V E) := []
  calls : List (CreateCall K V E) := []

inductive FlightAct (K V E : Type)
  | call (key : K)
  /-- The first critical section. -/
  | enter (i now : Nat)
  | factory (i : Nat) (result : Except E V)
  /-- The second critical section. -/
  | finish (i now : Nat)
  | wake (i : Nat)
  | get (key : K) (now : Nat)
  | put (key : K) (value : V) (now : Nat)
  | delete (key : K)
  | clear
  | clearFrom (startKey : K) (filter : K → Bool)
  | take (clock : Nat → Nat)

namespace FlightState

variable {K V E : Type} [Ord K]

def setPc (s : FlightState K V E) (i : Nat) (c : CreateCall K V E) (pc : CreatePc V E) : FlightState K V E :=
  { s with calls := s.calls.set i { c with pc } }

/-- `--count`, and the erasure of the key when that was the last call. -/
def release (s : FlightState K V E) (key : K) (t : Nat) (tok : CreationToken K V E) : FlightState K V E :=
  let tok' := { tok with count := tok.count - 1 }
  { s with tokens := s.tokens.set t tok'
           ongoingCreation := if tok'.count = 0 then s.ongoingCreation.erase key else s.ongoingCreation }

/-- After `cv.wait`: leaves the token, and returns its value or rethrows its
exception. -/
def leave (s : FlightState K V E) (i : Nat) (c : CreateCall K V E) (t : Nat) (tok : CreationToken K V E)
    (result : Except E V) : FlightState K V E :=
  (s.release c.key t tok).setPc i c (.done (some t) result)

/-- The first critical section, up to its end or to a wait that blocks. -/
def enter (s : FlightState K V E) (i : Nat) (c : CreateCall K V E) (now : Nat) : Option (FlightState K V E) :=
  let (cachedVal, internalCache) := s.internalCache.get now c.key
  let s := { s with internalCache }
  match cachedVal with
  | some v => some (s.setPc i c (.done none (.ok v)))
  | none =>
    match s.ongoingCreation[c.key]? with
    | some t => (s.tokens[t]?).map fun tok =>
      let tok' := { tok with count := tok.count + 1 }
      let s' := { s with tokens := s.tokens.set t tok' }
      match tok'.result with
      | some result => s'.leave i c t tok' result
      | none => s'.setPc i c (.waiting t false)
    | none =>
      let t := s.tokens.length
      some ({ s with tokens := s.tokens ++ [({ key := c.key, count := 1 } : CreationToken K V E)]
                     ongoingCreation := s.ongoingCreation.insert c.key t }.setPc i c (.creating t))

def notifyAll (s : FlightState K V E) (t : Nat) : FlightState K V E :=
  { s with calls := s.calls.map fun c => match c.pc with
      | .waiting t' notified => { c with pc := .waiting t' (notified || t' == t) }
      | _ => c }

/-- The second critical section, with the factory's result. -/
def finish (s : FlightState K V E) (i : Nat) (c : CreateCall K V E) (t : Nat) (tok : CreationToken K V E)
    (result : Except E V) (now : Nat) : FlightState K V E :=
  let (internalCache, tok') := match result with
    | .ok v => (s.internalCache.put now c.key v, { tok with val := some v })
    | .error e => (s.internalCache, { tok with eptr := some e })
  let s := { s with internalCache, tokens := s.tokens.set t tok' }
  ((s.notifyAll t).release c.key t tok').setPc i c (.done (some t) result)

def step (s : FlightState K V E) : FlightAct K V E → Option (FlightState K V E)
  | .call key => some { s with calls := s.calls ++ [{ key }] }
  | .enter i now => (s.calls[i]?).bind fun c => match c.pc with
    | .start => s.enter i c now
    | _ => none
  | .factory i result => (s.calls[i]?).bind fun c => match c.pc with
    | .creating t => some (s.setPc i c (.created t result))
    | _ => none
  | .finish i now => (s.calls[i]?).bind fun c => match c.pc with
    | .created t result => (s.tokens[t]?).map fun tok => s.finish i c t tok result now
    | _ => none
  | .wake i => (s.calls[i]?).bind fun c => match c.pc with
    | .waiting t _ => (s.tokens[t]?).map fun tok => match tok.result with
      | some result => s.leave i c t tok result
      | none => s.setPc i c (.waiting t false)
    | _ => none
  | .get key now => some { s with internalCache := (s.internalCache.get now key).2 }
  | .put key value now => some { s with internalCache := s.internalCache.put now key value }
  | .delete key => some { s with internalCache := (s.internalCache.delete key).2 }
  | .clear => some { s with internalCache := s.internalCache.clear }
  | .clearFrom startKey filter => some { s with internalCache := s.internalCache.clearFrom startKey filter }
  | .take clock => (s.internalCache.take clock).toOption.map fun r => { s with internalCache := r.2 }

/-! ## Tokens and calls -/

end FlightState

/-- The token a call is creating or waiting on. -/
def CreatePc.token? {V E : Type} : CreatePc V E → Option Nat
  | .waiting t _ | .creating t | .created t _ => some t
  | .start | .done .. => none

def CreatePc.creates? {V E : Type} : CreatePc V E → Option Nat
  | .creating t | .created t _ => some t
  | .start | .waiting .. | .done .. => none

namespace FlightState

variable {K V E : Type} [Ord K]

def attached (s : FlightState K V E) (t : Nat) : Nat := s.calls.countP (·.pc.token? == some t)

def creators (s : FlightState K V E) (t : Nat) : Nat := s.calls.countP (·.pc.creates? == some t)

end FlightState

/-- What holds of a call: it is with a token of its key; while it sleeps
unnotified the creation is unfinished; what it returned is the token's. -/
def CreateCall.OK {K V E : Type} (tokens : List (CreationToken K V E)) (c : CreateCall K V E) : Prop :=
  match c.pc with
  | .waiting t notified => ∃ tok, tokens[t]? = some tok ∧ tok.key = c.key ∧ (notified = false → tok.result = none)
  | .creating t | .created t _ => ∃ tok, tokens[t]? = some tok ∧ tok.key = c.key
  | .done (some t) r => ∃ tok, tokens[t]? = some tok ∧ tok.result = some r
  | .start | .done none _ => True

namespace FlightState

variable {K V E : Type} [Ord K]

/-- The tokens in `ongoing_creation` are those with a positive count. -/
def OngoingOK (ongoing : Std.TreeMap K Nat) (tokens : List (CreationToken K V E)) : Prop :=
  ∀ k t, ongoing[k]? = some t ↔ ∃ tok : CreationToken K V E, tokens[t]? = some tok ∧ tok.key = k ∧ 0 < tok.count

structure Inv (s : FlightState K V E) : Prop where
  count : ∀ (t : Nat) tok, s.tokens[t]? = some tok → tok.count = s.attached t
  /-- One call creates an unfinished token, none a finished one. -/
  creator : ∀ (t : Nat) tok, s.tokens[t]? = some tok → s.creators t = if tok.result.isSome then 0 else 1
  ongoing : OngoingOK s.ongoingCreation s.tokens
  calls : ∀ c ∈ s.calls, c.OK s.tokens

end FlightState

/-! ## Steps -/

section Tokens

variable {K V E : Type} {tokens : List (CreationToken K V E)} {t : Nat} {tok : CreationToken K V E}

/-- Tokens that keep their key and result keep what holds of a call. -/
theorem CreateCall.OK.mono {c : CreateCall K V E} (h : c.OK tokens) {tokens' : List (CreationToken K V E)}
    (hsub : ∀ (u : Nat) x, tokens[u]? = some x →
      ∃ x', tokens'[u]? = some x' ∧ x'.key = x.key ∧ x'.result = x.result) : c.OK tokens' := by
  obtain ⟨key, pc⟩ := c
  cases pc with
  | start => trivial
  | waiting u notified =>
    obtain ⟨x, hx, hk, hr⟩ := h
    obtain ⟨x', hx', hk', hr'⟩ := hsub u x hx
    exact ⟨x', hx', hk'.trans hk, fun hn => hr'.trans (hr hn)⟩
  | creating u | created u _ =>
    obtain ⟨x, hx, hk⟩ := h
    obtain ⟨x', hx', hk', _⟩ := hsub u x hx
    exact ⟨x', hx', hk'.trans hk⟩
  | done u r =>
    cases u with
    | none => trivial
    | some u =>
      obtain ⟨x, hx, hr⟩ := h
      obtain ⟨x', hx', _, hr'⟩ := hsub u x hx
      exact ⟨x', hx', hr'.trans hr⟩

theorem setCount_sub (htok : tokens[t]? = some tok) (n : Int) (u : Nat) (x : CreationToken K V E)
    (hx : tokens[u]? = some x) :
    ∃ x', (tokens.set t { tok with count := n })[u]? = some x' ∧ x'.key = x.key ∧ x'.result = x.result := by
  by_cases hu : u = t
  · subst hu
    rw [htok] at hx; cases hx
    exact ⟨_, (getElem?_set_iff htok).mpr (.inl ⟨rfl, rfl⟩), rfl, rfl⟩
  · exact ⟨x, (getElem?_set_iff htok).mpr (.inr ⟨hu, hx⟩), rfl, rfl⟩

end Tokens

namespace FlightState

variable {K V E : Type} [Ord K] {s : FlightState K V E} {i t : Nat} {c : CreateCall K V E}
  {tok : CreationToken K V E}

theorem calls_setPc {tokens : List (CreationToken K V E)} (h : ∀ d ∈ s.calls, d.OK tokens) {pc : CreatePc V E}
    (hok : ({ c with pc } : CreateCall K V E).OK tokens) : ∀ d ∈ (s.setPc i c pc).calls, d.OK tokens := by
  intro d hd
  rcases List.mem_or_eq_of_mem_set hd with hd | rfl
  · exact h d hd
  · exact hok

theorem Inv.setPc (h : s.Inv) (hc : s.calls[i]? = some c) {pc : CreatePc V E} (ht : pc.token? = c.pc.token?)
    (hcr : pc.creates? = c.pc.creates?) (hok : ({ c with pc } : CreateCall K V E).OK s.tokens) :
    (s.setPc i c pc).Inv := by
  refine ⟨fun u x hx => ?_, fun u x hx => ?_, h.ongoing, calls_setPc h.calls hok⟩
  · have hcount : (s.setPc i c pc).attached u + _ = s.attached u + _ := countP_set_add hc { c with pc }
    rw [h.count u x hx]
    simp only [ht] at hcount
    omega
  · have hcount : (s.setPc i c pc).creators u + _ = s.creators u + _ := countP_set_add hc { c with pc }
    rw [← h.creator u x hx]
    simp only [hcr] at hcount
    omega

/-- A call joins or leaves the token `t`, whose count follows. -/
theorem Inv.move (h : s.Inv) (hc : s.calls[i]? = some c) (htok : s.tokens[t]? = some tok) {pc : CreatePc V E}
    {n : Int} {ongoing : Std.TreeMap K Nat}
    (hn : n + (if c.pc.token? == some t then 1 else 0) = tok.count + (if pc.token? == some t then 1 else 0))
    (hother : ∀ u, u ≠ t → (pc.token? == some u) = (c.pc.token? == some u)) (hcr : pc.creates? = c.pc.creates?)
    (hon : OngoingOK ongoing (s.tokens.set t { tok with count := n }))
    (hok : ({ c with pc } : CreateCall K V E).OK (s.tokens.set t { tok with count := n })) :
    ({ s with tokens := s.tokens.set t { tok with count := n }, ongoingCreation := ongoing }.setPc i c pc).Inv := by
  refine ⟨fun u x hx => ?_, fun u x hx => ?_, hon,
    calls_setPc (fun d hd => (h.calls d hd).mono (setCount_sub htok n)) hok⟩
  · have hcount : (s.setPc i c pc).attached u + _ = s.attached u + _ := countP_set_add hc { c with pc }
    change x.count = ((s.setPc i c pc).attached u : Int)
    rcases (getElem?_set_iff htok).mp hx with ⟨rfl, rfl⟩ | ⟨hne, hx⟩
    · have hu := h.count u tok htok
      dsimp only at hcount ⊢
      cases hp : (pc.token? == some u) <;> cases hq : (c.pc.token? == some u) <;>
        simp only [hp, hq, if_true, if_false, Bool.false_eq_true] at hn hcount <;> omega
    · simp only [hother u hne] at hcount
      rw [h.count u x hx]
      omega
  · have hcount : (s.setPc i c pc).creators u + _ = s.creators u + _ := countP_set_add hc { c with pc }
    simp only [hcr] at hcount
    change (s.setPc i c pc).creators u = _
    rcases (getElem?_set_iff htok).mp hx with ⟨rfl, rfl⟩ | ⟨_, hx⟩
    · have hu := h.creator u tok htok
      change _ = if tok.result.isSome = true then 0 else 1
      omega
    · have hu := h.creator u x hx
      omega

theorem Inv.ongoing_of_token (h : s.Inv) (hc : s.calls[i]? = some c) (ht : c.pc.token? = some t) :
    ∃ tok, s.tokens[t]? = some tok ∧ tok.key = c.key ∧ 0 < tok.count ∧ s.ongoingCreation[c.key]? = some t := by
  have hok := h.calls c (List.mem_of_getElem? hc)
  have hpos : 0 < s.attached t :=
    List.countP_pos_iff.mpr ⟨c, List.mem_of_getElem? hc, by simp [ht]⟩
  obtain ⟨tok, htok, hkey⟩ : ∃ tok, s.tokens[t]? = some tok ∧ tok.key = c.key := by
    unfold CreateCall.OK at hok
    cases hpc : c.pc with
    | start => rw [hpc] at ht; cases ht
    | waiting u n =>
      rw [hpc] at ht hok; cases ht
      exact ⟨hok.choose, hok.choose_spec.1, hok.choose_spec.2.1⟩
    | creating u => rw [hpc] at ht hok; cases ht; exact hok
    | created u r => rw [hpc] at ht hok; cases ht; exact hok
    | done u r => rw [hpc] at ht; cases ht
  have hcount := h.count t tok htok
  refine ⟨tok, htok, hkey, by omega, (h.ongoing _ _).mpr ⟨tok, htok, hkey, by omega⟩⟩

/-- A token's count changes; its key, and no other, follows in the map. -/
theorem OngoingOK.setCount {ongoing ongoing' : Std.TreeMap K Nat} {tokens : List (CreationToken K V E)}
    (h : OngoingOK ongoing tokens) (htok : tokens[t]? = some tok) (hon : ongoing[tok.key]? = some t) {n : Int}
    (hself : ∀ u, ongoing'[tok.key]? = some u ↔ u = t ∧ 0 < n)
    (hother : ∀ k, k ≠ tok.key → ongoing'[k]? = ongoing[k]?) :
    OngoingOK ongoing' (tokens.set t { tok with count := n }) := by
  intro k u
  by_cases hk : k = tok.key
  · subst hk
    rw [hself u]
    constructor
    · rintro ⟨rfl, hn⟩
      exact ⟨_, (getElem?_set_iff htok).mpr (.inl ⟨rfl, rfl⟩), rfl, hn⟩
    · rintro ⟨x, hx, hkx, hp⟩
      rcases (getElem?_set_iff htok).mp hx with ⟨rfl, rfl⟩ | ⟨hne, hx⟩
      · exact ⟨rfl, hp⟩
      · -- Another live token of the key would be the one in the map.
        have := (h tok.key u).mpr ⟨x, hx, hkx, hp⟩
        rw [hon] at this
        exact absurd (Option.some.inj this).symm hne
  · rw [hother k hk, h k u]
    constructor
    · rintro ⟨x, hx, hkx, hp⟩
      refine ⟨x, (getElem?_set_iff htok).mpr (.inr ⟨?_, hx⟩), hkx, hp⟩
      rintro rfl
      rw [htok] at hx; cases hx
      exact hk hkx.symm
    · rintro ⟨x, hx, hkx, hp⟩
      rcases (getElem?_set_iff htok).mp hx with ⟨rfl, rfl⟩ | ⟨_, hx⟩
      · exact absurd hkx.symm hk
      · exact ⟨x, hx, hkx, hp⟩

/-- A call joins the token of its key; notified when the creation is already finished. -/
theorem Inv.join (h : s.Inv) (hc : s.calls[i]? = some c) (hstart : c.pc = .start)
    (hon : s.ongoingCreation[c.key]? = some t) (htok : s.tokens[t]? = some tok) (notified : Bool)
    (hn : notified = false → tok.result = none) :
    ({ s with tokens := s.tokens.set t { tok with count := tok.count + 1 } }.setPc i c
      (.waiting t notified)).Inv := by
  obtain ⟨tok', htok', hkey, hpos⟩ := (h.ongoing _ _).mp hon
  rw [htok] at htok'
  cases htok'
  rw [← hkey] at hon
  refine h.move hc htok (by simp [hstart, CreatePc.token?]) (fun u hu => ?_) (by simp [hstart, CreatePc.creates?])
    (h.ongoing.setCount htok hon (fun u => ?_) fun _ _ => rfl) ?_
  · have hut : ¬ t = u := fun he => hu he.symm
    simp [hstart, CreatePc.token?, hut]
  · rw [hon, Option.some.injEq]
    exact ⟨fun he => ⟨he.symm, by omega⟩, fun he => he.1.symm⟩
  · exact ⟨_, (getElem?_set_iff htok).mpr (.inl ⟨rfl, rfl⟩), hkey, hn⟩

theorem Inv.token_lt (h : s.Inv) {d : CreateCall K V E} (hd : d ∈ s.calls) (ht : d.pc.token? = some t) :
    t < s.tokens.length := by
  obtain ⟨j, hj⟩ := List.mem_iff_getElem?.mp hd
  obtain ⟨tok, htok, _⟩ := h.ongoing_of_token hj ht
  exact (List.getElem?_eq_some_iff.mp htok).1

variable [Std.TransOrd K] [Std.LawfulEqOrd K]

/-- A waiting call leaves a finished token with its result; the last one out
takes the token, and no other, off the map. -/
theorem Inv.leave (h : s.Inv) (hc : s.calls[i]? = some c) {notified : Bool} (hw : c.pc = .waiting t notified)
    (htok : s.tokens[t]? = some tok) {r : Except E V} (hr : tok.result = some r) : (s.leave i c t tok r).Inv := by
  obtain ⟨tok', htok', hkey, hpos, hon⟩ := h.ongoing_of_token hc (t := t) (by rw [hw]; rfl)
  rw [htok] at htok'
  cases htok'
  refine h.move hc htok (by simp [hw, CreatePc.token?]) (fun u hu => ?_) (by simp [hw, CreatePc.creates?])
    (h.ongoing.setCount htok (by rw [hkey, hon]) (fun u => ?_) fun k hk => ?_) ?_
  · have hut : ¬ t = u := fun he => hu he.symm
    simp [hw, CreatePc.token?, hut]
  · dsimp only
    rw [hkey]
    split
    next hz =>
      simp only [Std.TreeMap.getElem?_erase_self, reduceCtorEq, false_iff]
      rintro ⟨_, hn⟩
      omega
    next hz =>
      rw [hon, Option.some.injEq]
      exact ⟨fun he => ⟨he.symm, by omega⟩, fun he => he.1.symm⟩
  · dsimp only
    split
    · exact SharedValueLruCache.getElem?_erase_ne (hkey ▸ hk)
    · rfl
  · exact ⟨_, (getElem?_set_iff htok).mpr (.inl ⟨rfl, rfl⟩), hr⟩

theorem OngoingOK.create {ongoing : Std.TreeMap K Nat} {tokens : List (CreationToken K V E)}
    (h : OngoingOK ongoing tokens) {key : K} (hon : ongoing[key]? = none) :
    OngoingOK (ongoing.insert key tokens.length) (tokens ++ [{ key, count := 1 }]) := by
  intro k u
  simp only [getElem?_snoc_iff]
  by_cases hk : k = key
  · subst hk
    rw [Std.TreeMap.getElem?_insert_self]
    constructor
    · rintro ⟨rfl⟩
      exact ⟨_, .inr ⟨rfl, rfl⟩, rfl, Int.zero_lt_one⟩
    · rintro ⟨x, hx | ⟨rfl, _⟩, hkx, hp⟩
      · rw [(h _ _).mpr ⟨x, hx, hkx, hp⟩] at hon; cases hon
      · rfl
  · rw [SharedValueLruCache.getElem?_insert_ne hk, h k u]
    constructor
    · rintro ⟨x, hx, hkx, hp⟩; exact ⟨x, .inl hx, hkx, hp⟩
    · rintro ⟨x, hx | ⟨_, rfl⟩, hkx, hp⟩
      · exact ⟨x, hx, hkx, hp⟩
      · exact absurd hkx.symm hk

theorem Inv.create (h : s.Inv) (hc : s.calls[i]? = some c) (hstart : c.pc = .start)
    (hon : s.ongoingCreation[c.key]? = none) :
    ({ s with tokens := s.tokens ++ [({ key := c.key, count := 1 } : CreationToken K V E)]
              ongoingCreation := s.ongoingCreation.insert c.key s.tokens.length }.setPc i c
                (.creating s.tokens.length)).Inv := by
  -- No call was with the new token before.
  have hnone : ∀ d ∈ s.calls, d.pc.token? ≠ some s.tokens.length := fun d hd he =>
    Nat.lt_irrefl _ (h.token_lt hd he)
  have hatt : s.attached s.tokens.length = 0 := List.countP_eq_zero.mpr fun d hd => by simpa using hnone d hd
  have hcr : s.creators s.tokens.length = 0 := by
    refine List.countP_eq_zero.mpr fun d hd => ?_
    have := hnone d hd
    cases hpc : d.pc <;> simp_all [CreatePc.creates?, CreatePc.token?]
  have hne : ∀ (u : Nat) x, s.tokens[u]? = some x → ¬ s.tokens.length = u := fun u x hx he => by
    have := (List.getElem?_eq_some_iff.mp hx).1
    omega
  refine ⟨fun u x hx => ?_, fun u x hx => ?_, h.ongoing.create hon,
    calls_setPc (fun d hd => (h.calls d hd).mono fun u x hx => ⟨x, getElem?_snoc_iff.mpr (.inl hx), rfl, rfl⟩) ?_⟩
  · have hcount : (s.setPc i c (.creating s.tokens.length)).attached u + _ = s.attached u + _ :=
      countP_set_add hc { c with pc := .creating s.tokens.length }
    change x.count = ((s.setPc i c (.creating s.tokens.length)).attached u : Int)
    rcases getElem?_snoc_iff.mp hx with hx | ⟨rfl, rfl⟩
    · rw [h.count u x hx]
      simp [hstart, CreatePc.token?, hne u x hx] at hcount
      omega
    · simp [hstart, CreatePc.token?, hatt] at hcount
      simp [hcount]
  · have hcount : (s.setPc i c (.creating s.tokens.length)).creators u + _ = s.creators u + _ :=
      countP_set_add hc { c with pc := .creating s.tokens.length }
    change (s.setPc i c (.creating s.tokens.length)).creators u = _
    rcases getElem?_snoc_iff.mp hx with hx | ⟨rfl, rfl⟩
    · rw [← h.creator u x hx]
      simp [hstart, CreatePc.creates?, hne u x hx] at hcount
      omega
    · simp [hstart, CreatePc.creates?, hcr] at hcount
      simp [hcount, CreationToken.result]
  · exact ⟨{ key := c.key, count := 1 }, by simp, rfl⟩

omit [Std.TransOrd K] [Std.LawfulEqOrd K] in
theorem Inv.unfinished (h : s.Inv) (hc : s.calls[i]? = some c) (hcr : c.pc.creates? = some t)
    (htok : s.tokens[t]? = some tok) : tok.result = none := by
  have hpos : 0 < s.creators t := List.countP_pos_iff.mpr ⟨c, List.mem_of_getElem? hc, by simp [hcr]⟩
  have := h.creator t tok htok
  cases hr : tok.result with
  | none => rfl
  | some r' => simp [hr] at this; omega

omit [Std.TransOrd K] [Std.LawfulEqOrd K] in
/-- A creator's result is in the token and every waiting call is notified.
The creator is then no different from a call that waited. -/
theorem Inv.complete (h : s.Inv) (hc : s.calls[i]? = some c) {r : Except E V} (hpc : c.pc = .created t r)
    (htok : s.tokens[t]? = some tok) (tok' : CreationToken K V E) (hkey : tok'.key = tok.key)
    (hcount : tok'.count = tok.count) (hres : tok'.result = some r) :
    (({ s with tokens := s.tokens.set t tok' }.notifyAll t).setPc i c (.waiting t true)).Inv := by
  obtain ⟨x, hx, hxkey, _⟩ := h.ongoing_of_token hc (t := t) (by rw [hpc]; rfl)
  rw [htok] at hx
  cases hx
  have hnone := h.unfinished hc (by rw [hpc]; rfl) htok
  have hone : s.creators t = 1 := by simpa [hnone] using h.creator t tok htok
  have hci : ({ s with tokens := s.tokens.set t tok' }.notifyAll t).calls[i]? = some c := by
    simp [notifyAll, hc, hpc]
  have hatt : ∀ u, ({ s with tokens := s.tokens.set t tok' }.notifyAll t).attached u = s.attached u := by
    intro u
    simp only [attached, notifyAll, List.countP_map]
    refine List.countP_congr fun d _ => ?_
    cases hd : d.pc <;> simp [hd, CreatePc.token?]
  have hcre : ∀ u, ({ s with tokens := s.tokens.set t tok' }.notifyAll t).creators u = s.creators u := by
    intro u
    simp only [creators, notifyAll, List.countP_map]
    refine List.countP_congr fun d _ => ?_
    cases hd : d.pc <;> simp [hd, CreatePc.creates?]
  refine ⟨fun u x hx => ?_, fun u x hx => ?_, fun k u => ?_, calls_setPc (fun d hd => ?_) ?_⟩
  · have hc' := countP_set_add (p := (·.pc.token? == some u)) hci { c with pc := .waiting t true }
    change (FlightState.setPc _ i c _).attached u + _ = FlightState.attached _ u + _ at hc'
    rw [hatt u] at hc'
    simp only [hpc, CreatePc.token?] at hc'
    have heq : x.count = s.attached u := by
      rcases (getElem?_set_iff htok).mp hx with ⟨rfl, rfl⟩ | ⟨_, hx⟩
      · rw [hcount, h.count u tok htok]
      · exact h.count u x hx
    rw [heq, ← Nat.add_right_cancel hc']
  · have hc' := countP_set_add (p := (·.pc.creates? == some u)) hci { c with pc := .waiting t true }
    change (FlightState.setPc _ i c _).creators u + _ = FlightState.creators _ u + _ at hc'
    rw [hcre u] at hc'
    rcases (getElem?_set_iff htok).mp hx with ⟨rfl, rfl⟩ | ⟨hne, hx⟩
    · simp [hpc, CreatePc.creates?, hone] at hc'
      simp [hres, hc']
    · have hne' : ¬ t = u := fun he => hne he.symm
      simp [hpc, CreatePc.creates?, hne'] at hc'
      rw [hc', h.creator u x hx]
  · change s.ongoingCreation[k]? = some u ↔ ∃ x, (s.tokens.set t tok')[u]? = some x ∧ x.key = k ∧ 0 < x.count
    rw [h.ongoing k u]
    simp only [getElem?_set_iff htok]
    constructor
    · rintro ⟨x, hx, hk, hp⟩
      by_cases hu : u = t
      · subst hu
        rw [htok] at hx; cases hx
        exact ⟨tok', .inl ⟨rfl, rfl⟩, hkey.trans hk, by omega⟩
      · exact ⟨x, .inr ⟨hu, hx⟩, hk, hp⟩
    · rintro ⟨x, ⟨rfl, rfl⟩ | ⟨_, hx⟩, hk, hp⟩
      · exact ⟨tok, htok, hkey.symm.trans hk, by omega⟩
      · exact ⟨x, hx, hk, hp⟩
  · obtain ⟨d', hd', rfl⟩ := List.mem_map.mp hd
    have hok := h.calls d' hd'
    have hset : ∀ (u : Nat) x, s.tokens[u]? = some x → u ≠ t → (s.tokens.set t tok')[u]? = some x :=
      fun u x hx hu => (getElem?_set_iff htok).mpr (.inr ⟨hu, hx⟩)
    have hself : (s.tokens.set t tok')[t]? = some tok' := (getElem?_set_iff htok).mpr (.inl ⟨rfl, rfl⟩)
    obtain ⟨key, pc⟩ := d'
    cases pc with
    | start => trivial
    | waiting u n =>
      obtain ⟨x, hx, hk, hr⟩ := hok
      by_cases hu : u = t
      · subst hu
        rw [htok] at hx; cases hx
        exact ⟨tok', hself, hkey.trans hk, by simp⟩
      · exact ⟨x, hset u x hx hu, hk, fun hn => hr (by simp_all)⟩
    | creating u | created u _ =>
      obtain ⟨x, hx, hk⟩ := hok
      by_cases hu : u = t
      · subst hu
        rw [htok] at hx; cases hx
        exact ⟨tok', hself, hkey.trans hk⟩
      · exact ⟨x, hset u x hx hu, hk⟩
    | done u r' =>
      cases u with
      | none => trivial
      | some u =>
        obtain ⟨x, hx, hr⟩ := hok
        by_cases hu : u = t
        · subst hu
          rw [htok] at hx; cases hx
          rw [hnone] at hr; cases hr
        · exact ⟨x, hset u x hx hu, hr⟩
  · exact ⟨tok', (getElem?_set_iff htok).mpr (.inl ⟨rfl, rfl⟩), hkey.trans hxkey, by simp⟩

omit [Std.TransOrd K] [Std.LawfulEqOrd K] in
theorem Inv.cache (h : s.Inv) (internalCache : SharedValueLruCache K V) : ({ s with internalCache }).Inv :=
  ⟨h.count, h.creator, h.ongoing, h.calls⟩

omit [Std.TransOrd K] [Std.LawfulEqOrd K] in
theorem leave_setPc (pc : CreatePc V E) (r : Except E V) :
    (s.setPc i c pc).leave i { c with pc } t tok r = s.leave i c t tok r := by
  simp only [FlightState.leave, release, FlightState.setPc, List.set_set]

theorem Inv.enter (h : s.Inv) (hc : s.calls[i]? = some c) (hstart : c.pc = .start) {now : Nat}
    {s' : FlightState K V E} (hs : s.enter i c now = some s') : s'.Inv := by
  unfold FlightState.enter at hs
  cases hget : s.internalCache.get now c.key with
  | mk cachedVal cache =>
  rw [hget] at hs
  dsimp only at hs
  have h' := h.cache cache
  cases cachedVal with
  | some v =>
    cases hs
    exact h'.setPc hc (by rw [hstart]; rfl) (by rw [hstart]; rfl) trivial
  | none =>
    dsimp only at hs
    cases hon : s.ongoingCreation[c.key]? with
    | none =>
      rw [hon] at hs
      cases hs
      exact h'.create hc hstart hon
    | some t =>
      rw [hon] at hs
      obtain ⟨tok, htok, rfl⟩ := Option.map_eq_some_iff.mp hs
      have hres : ({ tok with count := tok.count + 1 } : CreationToken K V E).result = tok.result := rfl
      cases hr : tok.result with
      | none =>
        simp only [hres, hr]
        exact h'.join hc hstart hon htok false fun _ => hr
      | some r =>
        simp only [hres, hr]
        have hj := h'.join hc hstart hon htok true (by simp)
        rw [← leave_setPc (.waiting t true)]
        have hlt := (List.getElem?_eq_some_iff.mp hc).1
        have hlt' := (List.getElem?_eq_some_iff.mp htok).1
        exact hj.leave (by simp [FlightState.setPc, hlt]) rfl (by simp [FlightState.setPc, hlt'])
          (by rw [hres, hr])

theorem Inv.finish (h : s.Inv) (hc : s.calls[i]? = some c) {r : Except E V} (hpc : c.pc = .created t r)
    (htok : s.tokens[t]? = some tok) (now : Nat) : (s.finish i c t tok r now).Inv := by
  have hnone := h.unfinished hc (by rw [hpc]; rfl) htok
  have hlt := (List.getElem?_eq_some_iff.mp hc).1
  have hlt' := (List.getElem?_eq_some_iff.mp htok).1
  -- Whatever the cache and the token become, the creator then leaves like a call that waited.
  have hleave : ∀ (cache : SharedValueLruCache K V) (tok' : CreationToken K V E), tok'.key = tok.key →
      tok'.count = tok.count → tok'.result = some r →
      (({ s with internalCache := cache, tokens := s.tokens.set t tok' }.notifyAll t).leave i c t tok' r).Inv := by
    intro cache tok' hkey hcount hres
    have hj := (h.cache cache).complete hc hpc htok tok' hkey hcount hres
    rw [← leave_setPc (.waiting t true)]
    exact hj.leave (by simp [FlightState.setPc, notifyAll, hlt]) rfl
      (by simp [FlightState.setPc, notifyAll, hlt']) hres
  have heptr : tok.eptr = none := by
    cases he : tok.eptr with
    | none => rfl
    | some e => simp [CreationToken.result, he] at hnone
  cases r with
  | ok v => exact hleave _ { tok with val := some v } rfl rfl (by simp [CreationToken.result, heptr])
  | error e => exact hleave _ { tok with eptr := some e } rfl rfl rfl

theorem Inv.step (h : s.Inv) {a : FlightAct K V E} {s' : FlightState K V E} (hs : s.step a = some s') :
    s'.Inv := by
  cases a with
  | call key =>
    cases hs
    refine ⟨fun t tok htok => ?_, fun t tok htok => ?_, h.ongoing, fun d hd => ?_⟩
    · simpa [attached, CreatePc.token?] using h.count t tok htok
    · simpa [creators, CreatePc.creates?] using h.creator t tok htok
    · rcases List.mem_append.mp hd with hd | hd
      · exact h.calls d hd
      · obtain rfl := List.mem_singleton.mp hd
        trivial
  | enter i now =>
    obtain ⟨c, hc, hs⟩ := Option.bind_eq_some_iff.mp hs
    split at hs
    next hpc => exact h.enter hc hpc hs
    next => cases hs
  | factory i r =>
    obtain ⟨c, hc, hs⟩ := Option.bind_eq_some_iff.mp hs
    split at hs
    next t hpc =>
      cases hs
      refine h.setPc hc (by rw [hpc]; rfl) (by rw [hpc]; rfl) ?_
      obtain ⟨tok, htok, hkey, _⟩ := h.ongoing_of_token hc (t := t) (by rw [hpc]; rfl)
      exact ⟨tok, htok, hkey⟩
    next => cases hs
  | finish i now =>
    obtain ⟨c, hc, hs⟩ := Option.bind_eq_some_iff.mp hs
    split at hs
    next t r hpc =>
      obtain ⟨tok, htok, rfl⟩ := Option.map_eq_some_iff.mp hs
      exact h.finish hc hpc htok now
    next => cases hs
  | wake i =>
    obtain ⟨c, hc, hs⟩ := Option.bind_eq_some_iff.mp hs
    split at hs
    next t n hpc =>
      obtain ⟨tok, htok, hs⟩ := Option.map_eq_some_iff.mp hs
      cases hr : tok.result with
      | some r =>
        rw [hr] at hs
        exact hs ▸ h.leave hc hpc htok hr
      | none =>
        rw [hr] at hs
        subst hs
        refine h.setPc hc (by rw [hpc]; rfl) (by rw [hpc]; rfl) ?_
        obtain ⟨tok', htok', hkey, _⟩ := h.ongoing_of_token hc (t := t) (by rw [hpc]; rfl)
        rw [htok] at htok'
        cases htok'
        exact ⟨tok, htok, hkey, fun _ => hr⟩
    next => cases hs
  | get key now => cases hs; exact h.cache _
  | put key value now => cases hs; exact h.cache _
  | delete key => cases hs; exact h.cache _
  | clear => cases hs; exact h.cache _
  | clearFrom startKey filter => cases hs; exact h.cache _
  | take clock =>
    obtain ⟨r, _, rfl⟩ := Option.map_eq_some_iff.mp hs
    exact h.cache _

/-! ## A call and its token -/

end FlightState

/-- The call is with the token, or has returned from it. -/
def CreatePc.BoundTo {V E : Type} (t : Nat) (pc : CreatePc V E) : Prop :=
  pc.token? = some t ∨ ∃ r, pc = .done (some t) r

namespace FlightState

variable {K V E : Type} [Ord K] {s : FlightState K V E} {i t : Nat} {c : CreateCall K V E}
  {tok : CreationToken K V E}

def Bound (calls : List (CreateCall K V E)) (i t : Nat) : Prop := ∃ c, calls[i]? = some c ∧ c.pc.BoundTo t

omit [Ord K] in
theorem Bound.set {calls : List (CreateCall K V E)} {j : Nat} (h : Bound calls i t) (hc : calls[j]? = some c)
    {pc : CreatePc V E} (hpc : c.pc.BoundTo t → pc.BoundTo t) : Bound (calls.set j { c with pc }) i t := by
  obtain ⟨d, hd, hb⟩ := h
  by_cases hij : i = j
  · subst hij
    rw [hc] at hd; cases hd
    exact ⟨_, (getElem?_set_iff hc).mpr (.inl ⟨rfl, rfl⟩), hpc hb⟩
  · exact ⟨d, (getElem?_set_iff hc).mpr (.inr ⟨hij, hd⟩), hb⟩

theorem Bound.notifyAll (h : Bound s.calls i t) (u : Nat) : Bound (s.notifyAll u).calls i t := by
  obtain ⟨d, hd, hb⟩ := h
  refine ⟨_, by rw [FlightState.notifyAll, List.getElem?_map, hd]; rfl, ?_⟩
  cases hpc : d.pc <;> simp_all [CreatePc.BoundTo, CreatePc.token?]

theorem not_boundTo_start :
    ¬ (CreatePc.start : CreatePc V E).BoundTo t := by simp [CreatePc.BoundTo, CreatePc.token?]

theorem Bound.enter {j now : Nat} (h : Bound s.calls i t) (hc : s.calls[j]? = some c) (hstart : c.pc = .start)
    {s' : FlightState K V E} (hs : s.enter j c now = some s') : Bound s'.calls i t := by
  have hnot : ∀ pc : CreatePc V E, c.pc.BoundTo t → pc.BoundTo t := fun pc hb =>
    absurd (hstart ▸ hb) not_boundTo_start
  unfold FlightState.enter at hs
  cases hget : s.internalCache.get now c.key with
  | mk cachedVal cache =>
  rw [hget] at hs
  dsimp only at hs
  split at hs
  next => cases hs; exact h.set hc (hnot _)
  next =>
    split at hs
    next u _ =>
      obtain ⟨x, hx, rfl⟩ := Option.map_eq_some_iff.mp hs
      split <;> exact h.set hc (hnot _)
    next => cases hs; exact h.set hc (hnot _)

theorem Bound.step (h : Bound s.calls i t) {a : FlightAct K V E} {s' : FlightState K V E}
    (hs : s.step a = some s') :
    Bound s'.calls i t := by
  cases a with
  | call key =>
    cases hs
    obtain ⟨d, hd, hb⟩ := h
    exact ⟨d, getElem?_snoc_iff.mpr (.inl hd), hb⟩
  | enter j now =>
    obtain ⟨c, hc, hs⟩ := Option.bind_eq_some_iff.mp hs
    split at hs
    next hpc => exact h.enter hc hpc hs
    next => cases hs
  | factory j r =>
    obtain ⟨c, hc, hs⟩ := Option.bind_eq_some_iff.mp hs
    split at hs
    next u hpc =>
      cases hs
      exact h.set hc (by simp [hpc, CreatePc.BoundTo, CreatePc.token?])
    next => cases hs
  | finish j now =>
    obtain ⟨c, hc, hs⟩ := Option.bind_eq_some_iff.mp hs
    split at hs
    next u r hpc =>
      obtain ⟨tok, htok, rfl⟩ := Option.map_eq_some_iff.mp hs
      have hc' : (s.notifyAll u).calls[j]? = some c := by simp [FlightState.notifyAll, hc, hpc]
      exact (h.notifyAll u).set hc' (by simp [hpc, CreatePc.BoundTo, CreatePc.token?])
    next => cases hs
  | wake j =>
    obtain ⟨c, hc, hs⟩ := Option.bind_eq_some_iff.mp hs
    split at hs
    next u n hpc =>
      obtain ⟨tok, htok, rfl⟩ := Option.map_eq_some_iff.mp hs
      split
      · exact h.set hc (by simp [hpc, CreatePc.BoundTo, CreatePc.token?])
      · exact h.set hc (by simp [hpc, CreatePc.BoundTo, CreatePc.token?])
    next => cases hs
  | get key now => cases hs; exact h
  | put key value now => cases hs; exact h
  | delete key => cases hs; exact h
  | clear => cases hs; exact h
  | clearFrom startKey filter => cases hs; exact h
  | take clock =>
    obtain ⟨r, _, rfl⟩ := Option.map_eq_some_iff.mp hs
    exact h

/-! ## The protocol -/

/-- What `GetOrCreate` keeps to, in a state and in every run on from it. -/
structure Protocol (s : FlightState K V E) : Prop where
  one_factory : ∀ (i j : Nat) c d t u, s.calls[i]? = some c → s.calls[j]? = some d → c.pc = .creating t →
    d.pc = .creating u → c.key = d.key → i = j
  /-- A token is in `ongoing_creation` for a key iff its count is positive. -/
  on_map : ∀ (t : Nat) tok k, s.tokens[t]? = some tok →
    (s.ongoingCreation[k]? = some t ↔ tok.key = k ∧ 0 < tok.count)
  count : ∀ (t : Nat) tok, s.tokens[t]? = some tok → tok.count = s.attached t
  /-- So a call that erases its key erases its own token. -/
  own_token : ∀ (i : Nat) c t, s.calls[i]? = some c → c.pc.token? = some t → s.ongoingCreation[c.key]? = some t
  /-- A call with a token stays with it until it returns the token's value
  or rethrows its exception. -/
  settles : ∀ (i t : Nat) c, s.calls[i]? = some c → c.pc.token? = some t → ∀ as s', exec step s as = some s' →
    ∃ c', s'.calls[i]? = some c' ∧ (c'.pc.token? = some t ∨
      ∃ r tok, c'.pc = .done (some t) r ∧ s'.tokens[t]? = some tok ∧ tok.result = some r)
  /-- A call that waits on a token whose creator has finished is notified,
  and returns as soon as it gets the lock. -/
  awake : ∀ (i : Nat) c t n, s.calls[i]? = some c → c.pc = .waiting t n → s.creators t = 0 →
    n = true ∧ ∃ tok r s', s.tokens[t]? = some tok ∧ tok.result = some r ∧ s.step (.wake i) = some s' ∧
      s'.calls[i]? = some { c with pc := .done (some t) r }
  drained : (∀ c ∈ s.calls, c.pc.token? = none) → s.ongoingCreation.isEmpty = true

theorem Inv.init [Std.TransOrd K] (cache : SharedValueLruCache K V) :
    ({ internalCache := cache } : FlightState K V E).Inv :=
  ⟨by simp, by simp, fun k t => by simp, by simp⟩

theorem Inv.one_factory (h : s.Inv) {j : Nat} {d : CreateCall K V E} {u : Nat} (hc : s.calls[i]? = some c)
    (hd : s.calls[j]? = some d) (hpc : c.pc = .creating t) (hpd : d.pc = .creating u) (hkey : c.key = d.key) :
    i = j := by
  obtain ⟨tok, htok, _, _, hon⟩ := h.ongoing_of_token hc (t := t) (by rw [hpc]; rfl)
  obtain ⟨_, _, _, _, hon'⟩ := h.ongoing_of_token hd (t := u) (by rw [hpd]; rfl)
  rw [hkey, hon'] at hon
  cases hon
  by_contra hij
  -- With call `i` set back there would still be call `j` creating the token.
  have hone : s.creators t ≤ 1 := by
    rw [h.creator t tok htok]; split <;> omega
  have hset := countP_set_add (p := (·.pc.creates? == some t)) hc { c with pc := .start }
  have hj : (s.calls.set i { c with pc := .start })[j]? = some d :=
    (getElem?_set_iff hc).mpr (.inr ⟨fun he => hij he.symm, hd⟩)
  have hpos := List.countP_pos_iff (p := (·.pc.creates? == some t)).mpr
    ⟨d, List.mem_of_getElem? hj, by simp [hpd, CreatePc.creates?]⟩
  rw [if_pos (by simp [hpc, CreatePc.creates?]), if_neg (by simp [CreatePc.creates?])] at hset
  unfold creators at hone
  omega

theorem Inv.awake [Std.TransOrd K] [Std.LawfulEqOrd K] (h : s.Inv) {n : Bool} (hc : s.calls[i]? = some c)
    (hw : c.pc = .waiting t n) (hcr : s.creators t = 0) :
    n = true ∧ ∃ tok r s', s.tokens[t]? = some tok ∧ tok.result = some r ∧ s.step (.wake i) = some s' ∧
      s'.calls[i]? = some { c with pc := .done (some t) r } := by
  have hok := h.calls c (List.mem_of_getElem? hc)
  simp only [CreateCall.OK, hw] at hok
  obtain ⟨tok, htok, _, hn⟩ := hok
  have hfin := h.creator t tok htok
  rw [hcr] at hfin
  cases hr : tok.result with
  | none => simp [hr] at hfin
  | some r =>
    refine ⟨?_, tok, r, s.leave i c t tok r, htok, hr, ?_, ?_⟩
    · cases n with
      | true => rfl
      | false => rw [hn rfl] at hr; cases hr
    · simp [FlightState.step, hc, hw, htok, hr]
    · exact (getElem?_set_iff hc).mpr (.inl ⟨rfl, rfl⟩)

theorem Inv.drained [Std.TransOrd K] [Std.LawfulEqOrd K] (h : s.Inv) (hnone : ∀ c ∈ s.calls, c.pc.token? = none) :
    s.ongoingCreation.isEmpty = true := by
  rw [Std.TreeMap.isEmpty_iff_forall_not_mem]
  intro k hk
  obtain ⟨t, ht⟩ := Option.isSome_iff_exists.mp (Std.TreeMap.isSome_getElem?_iff_mem.mpr hk)
  obtain ⟨tok, htok, _, hpos⟩ := (h.ongoing k t).mp ht
  have hzero : s.attached t = 0 := List.countP_eq_zero.mpr fun c hc => by simp [hnone c hc]
  rw [h.count t tok htok, hzero] at hpos
  exact absurd hpos (by decide)

/-- **Single flight.** Whatever the threads, the interleaving of their
critical sections, and what the factories return or throw: the protocol
holds in every state. -/
theorem single_flight [Std.TransOrd K] [Std.LawfulEqOrd K] (maxEntries timeoutMillisec : Nat)
    (as : List (FlightAct K V E)) (s : FlightState K V E)
    (hx : exec step { internalCache := { maxEntries, timeoutMillisec } } as = some s) : s.Protocol := by
  have h : s.Inv := exec_invariant (fun _ _ _ hi hs => hi.step hs) hx (.init _)
  refine ⟨fun i j c d t u hc hd hpc hpd hk => h.one_factory hc hd hpc hpd hk, fun t tok k htok => ?_, h.count,
    fun i c t hc ht => (h.ongoing_of_token hc ht).choose_spec.2.2.2, fun i t c hc ht as' s' hx' => ?_,
    fun i c t n hc hw hcr => h.awake hc hw hcr, h.drained⟩
  · rw [h.ongoing k t]
    constructor
    · rintro ⟨tok', htok', hk, hp⟩
      rw [htok] at htok'; cases htok'
      exact ⟨hk, hp⟩
    · rintro ⟨hk, hp⟩; exact ⟨tok, htok, hk, hp⟩
  · have h' : s'.Inv := exec_invariant (fun _ _ _ hi hs => hi.step hs) hx' h
    have hb : Bound s'.calls i t :=
      exec_invariant (I := fun s => Bound s.calls i t) (fun _ _ _ hi hs => hi.step hs) hx' ⟨c, hc, .inl ht⟩
    obtain ⟨c', hc', hb | ⟨r, hr⟩⟩ := hb
    · exact ⟨c', hc', .inl hb⟩
    · have hok := h'.calls c' (List.mem_of_getElem? hc')
      simp only [CreateCall.OK, hr] at hok
      obtain ⟨tok, htok, hres⟩ := hok
      exact ⟨c', hc', .inr ⟨r, tok, hr, htok, hres⟩⟩

/-- Two calls for one key: the second waits for the first one's factory. -/
def twoCalls : List (FlightAct Nat Nat String) :=
  [.call 7, .call 7, .enter 0 0, .enter 1 0, .factory 0 (.ok 3), .finish 0 1, .wake 1]

theorem single_flight_two_calls :
    ∃ s : FlightState Nat Nat String,
      exec step { internalCache := { maxEntries := 0, timeoutMillisec := 0 } } twoCalls =
      some s ∧ s.calls = [⟨7, .done (some 0) (.ok 3)⟩, ⟨7, .done (some 0) (.ok 3)⟩] ∧ s.Protocol := by
  obtain ⟨s, hs, hc⟩ : ∃ s : FlightState Nat Nat String,
      exec step { internalCache := { maxEntries := 0, timeoutMillisec := 0 } } twoCalls = some s ∧
      s.calls = [⟨7, .done (some 0) (.ok 3)⟩, ⟨7, .done (some 0) (.ok 3)⟩] := ⟨_, rfl, rfl⟩
  exact ⟨s, hs, hc, single_flight 0 0 twoCalls s hs⟩

end FlightState

end ReadCacheFs
