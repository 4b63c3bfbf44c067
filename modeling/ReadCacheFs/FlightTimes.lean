/-
How old the values are that `GetOrCreate` returns.

A value is put at the end of its creation, and served until the timeout. A
call that finds its key being created waits, or, once the creation is done
but not all that waited for it have left, takes the value at once, whether
the cache still has it or not. So three times bound the age of what a call
returns: the timeout, the time a creation takes, and the time it takes those
that wait to leave. The last two are the scheduler's, and are hypotheses.

What a value is of is left open: `Source k v t` says that `v` is a value of
the key at a moment not before `t`.
-/
import ReadCacheFs.SingleFlight

namespace ReadCacheFs

open Lib

/-- A `FlightAct` whose time is that of the step. -/
inductive TimedAct (K V E : Type)
  | call (key : K)
  | enter (i : Nat)
  | factory (i : Nat) (result : Except E V)
  | finish (i : Nat)
  | wake (i : Nat)
  | put (key : K) (value : V)
  | clear
  | clearFrom (startKey : K) (filter : K → Bool)

def TimedAct.at {K V E : Type} (now : Nat) : TimedAct K V E → FlightAct K V E
  | .call key => .call key
  | .enter i => .enter i now
  | .factory i result => .factory i result
  | .finish i => .finish i now
  | .wake i => .wake i
  | .put key value => .put key value now
  | .clear => .clear
  | .clearFrom startKey filter => .clearFrom startKey filter

/-- When each call looked into the cache, and when each creation was done. -/
structure TimedFlight (K V E : Type) [Ord K] where
  flight : FlightState K V E
  enteredAt : Nat → Nat := fun _ => 0
  finishedAt : Nat → Nat := fun _ => 0

namespace TimedFlight

variable {K V E : Type} [Ord K]

def creating (s : TimedFlight K V E) (i : Nat) : Option Nat := (s.flight.calls[i]?).bind (·.pc.creates?)

def step (now : Nat) (s : TimedFlight K V E) (a : TimedAct K V E) : Option (TimedFlight K V E) :=
  (s.flight.step (a.at now)).map fun flight =>
    { flight
      enteredAt := match a with
        | .enter i => Function.update s.enteredAt i now
        | _ => s.enteredAt
      finishedAt := match a with
        | .finish i => (s.creating i).elim s.finishedAt fun t => Function.update s.finishedAt t now
        | _ => s.finishedAt }

/-- The creation a call finds done, in `ongoing_creation` still. -/
def findsDone (s : TimedFlight K V E) (i : Nat) : Option Nat := do
  let c ← s.flight.calls[i]?
  let t ← s.flight.ongoingCreation[c.key]?
  let tok ← s.flight.tokens[t]?
  if tok.result.isSome then some t else none

variable (Source : K → V → Nat → Prop) (creation waiting timeout : Nat)

/-- A creation takes no longer than `creation`, and a call that finds one done
does so no later than `waiting` after its end. -/
def Prompt (now : Nat) (s : TimedFlight K V E) : TimedAct K V E → Prop
  | .enter i => ∀ t ∈ s.findsDone i, now ≤ s.finishedAt t + waiting
  | .finish i => now ≤ s.enteredAt i + creation
  | _ => True

instance (now : Nat) (s : TimedFlight K V E) (a : TimedAct K V E) : Decidable (s.Prompt creation waiting now a) :=
  match a with
  | .enter _ => inferInstanceAs (Decidable (∀ _ ∈ _, _))
  | .finish _ => inferInstanceAs (Decidable (_ ≤ _))
  | .call _ | .factory .. | .wake _ | .put .. | .clear | .clearFrom .. => .isTrue trivial

/-- What is made and what is put has its source. -/
def Sourced (now : Nat) (s : TimedFlight K V E) : TimedAct K V E → Prop
  | .factory i result => ∀ c v, s.flight.calls[i]? = some c → result = .ok v → Source c.key v (s.enteredAt i)
  | .put key value => Source key value (now - creation)
  | _ => True

/-- What a call has of its own: what it made, when it came to wait, what it returned. -/
def CallRecent (tokens : List (CreationToken K V E)) (enteredAt finishedAt : Nat → Nat) (i : Nat)
    (c : CreateCall K V E) : Prop :=
  match c.pc with
  | .created _ (.ok v) => Source c.key v (enteredAt i)
  | .waiting t _ => ∀ tok, tokens[t]? = some tok → tok.result.isSome = true → enteredAt i ≤ finishedAt t
  | .done _ (.ok v) => Source c.key v (enteredAt i - (creation + max timeout waiting))
  | _ => True

/-- What is cached, made, handed over and returned has its source. -/
structure Recent (now : Nat) (s : TimedFlight K V E) : Prop where
  inv : s.flight.Inv
  cache : s.flight.internalCache.OK
  times : s.flight.internalCache.timeoutMillisec = timeout
  entries : ∀ k v ts, s.flight.internalCache.find? k = some (v, ts) → ts ≤ now ∧ Source k v (ts - creation)
  entered : ∀ i, s.enteredAt i ≤ now
  tokens : ∀ (t : Nat) tok v, s.flight.tokens[t]? = some tok → tok.result = some (.ok v) →
    Source tok.key v (s.finishedAt t - creation)
  calls : ∀ (i : Nat) c, s.flight.calls[i]? = some c →
    CallRecent Source creation waiting timeout s.flight.tokens s.enteredAt s.finishedAt i c

/-! ## One step -/

/-- Of each token its key and its result are as they were, or it has no result. -/
def SameResults (tokens tokens' : List (CreationToken K V E)) : Prop :=
  ∀ (t : Nat) tok', tokens'[t]? = some tok' →
    tok'.result = none ∨ ∃ tok, tokens[t]? = some tok ∧ tok'.key = tok.key ∧ tok'.result = tok.result

variable {Source : K → V → Nat → Prop} {creation waiting timeout now : Nat} {s : TimedFlight K V E}
  {tokens tokens' : List (CreationToken K V E)} {enteredAt finishedAt : Nat → Nat} {i t : Nat}
  {c : CreateCall K V E}
  {tok : CreationToken K V E}

omit [Ord K] in
theorem SameResults.setCount (htok : tokens[t]? = some tok) (n : Int) :
    SameResults tokens (tokens.set t { tok with count := n }) := by
  intro u tok' hu
  rcases (getElem?_set_iff htok).mp hu with ⟨rfl, rfl⟩ | ⟨_, hx⟩
  · exact .inr ⟨tok, htok, rfl, rfl⟩
  · exact .inr ⟨tok', hx, rfl, rfl⟩

omit [Ord K] in
theorem SameResults.snoc (key : K) : SameResults tokens (tokens ++ [{ key, count := 1 }]) := by
  intro u tok' hu
  rcases getElem?_snoc_iff.mp hu with hx | ⟨_, rfl⟩
  · exact .inr ⟨tok', hx, rfl, rfl⟩
  · exact .inl rfl

omit [Ord K] in
theorem CallRecent.sameResults
    (h : CallRecent Source creation waiting timeout tokens enteredAt finishedAt i c)
    (hsame : SameResults tokens tokens') :
    CallRecent Source creation waiting timeout tokens' enteredAt finishedAt i c := by
  unfold CallRecent at h ⊢
  split at h
  · exact h
  next u n hpc =>
    intro tok' htok' hres
    rcases hsame u tok' htok' with hnone | ⟨tok, htok, _, hr⟩
    · rw [hnone] at hres
      cases hres
    · exact h tok htok (hr ▸ hres)
  · exact h
  · trivial

omit [Ord K] in
theorem CallRecent.enteredAt_eq (h : CallRecent Source creation waiting timeout tokens enteredAt finishedAt i c)
    {enteredAt' : Nat → Nat} (he : enteredAt' i = enteredAt i) :
    CallRecent Source creation waiting timeout tokens enteredAt' finishedAt i c := by
  unfold CallRecent at h ⊢
  rw [he]
  exact h

theorem Recent.imp (h : s.Recent Source creation waiting timeout now) {Source' : K → V → Nat → Prop}
    (himp : ∀ k v r, Source k v r → Source' k v r) : s.Recent Source' creation waiting timeout now :=
  { h with
    entries := fun k v ts hk => ⟨(h.entries k v ts hk).1, himp _ _ _ (h.entries k v ts hk).2⟩
    tokens := fun t tok v ht hr => himp _ _ _ (h.tokens t tok v ht hr)
    calls := fun i c hc => by
      have hcall := h.calls i c hc
      unfold CallRecent at hcall ⊢
      split at hcall
      · exact himp _ _ _ hcall
      · exact hcall
      · exact himp _ _ _ hcall
      · trivial }

theorem Recent.mono (h : s.Recent Source creation waiting timeout now) {now' : Nat} (hle : now ≤ now') :
    s.Recent Source creation waiting timeout now' :=
  { h with
    entries := fun k v ts hk => ⟨(h.entries k v ts hk).1.trans hle, (h.entries k v ts hk).2⟩
    entered := fun i => (h.entered i).trans hle }

omit [Ord K] in
theorem calls_set {calls : List (CreateCall K V E)}
    (hcalls : ∀ (j : Nat) d, calls[j]? = some d →
      CallRecent Source creation waiting timeout tokens enteredAt finishedAt j d)
    (hsame : SameResults tokens tokens') (hc : calls[i]? = some c) {enteredAt' : Nat → Nat}
    (henter : ∀ j, j ≠ i → enteredAt' j = enteredAt j) {pc : CreatePc V E}
    (hpc : CallRecent Source creation waiting timeout tokens' enteredAt' finishedAt i { c with pc })
    (j : Nat) (d : CreateCall K V E) (hd : (calls.set i { c with pc })[j]? = some d) :
    CallRecent Source creation waiting timeout tokens' enteredAt' finishedAt j d := by
  rcases (getElem?_set_iff hc).mp hd with ⟨rfl, rfl⟩ | ⟨hne, hd⟩
  · exact hpc
  · exact ((hcalls j d hd).sameResults hsame).enteredAt_eq (henter j hne)

omit [Ord K] in
theorem tokens_same {finishedAt : Nat → Nat}
    (h : ∀ (t : Nat) tok v, tokens[t]? = some tok → tok.result = some (.ok v) →
      Source tok.key v (finishedAt t - creation))
    (hsame : SameResults tokens tokens') (t : Nat) (tok' : CreationToken K V E) (v : V)
    (htok : tokens'[t]? = some tok') (hres : tok'.result = some (.ok v)) :
    Source tok'.key v (finishedAt t - creation) := by
  rcases hsame t tok' htok with hnone | ⟨tok, hx, hkey, hr⟩
  · rw [hnone] at hres
    cases hres
  · rw [hkey]
    exact h t tok v hx (hr ▸ hres)

variable [Std.TransOrd K] [Std.LawfulEqOrd K]

theorem Recent.enter (hanti : ∀ k v r r', r' ≤ r → Source k v r → Source k v r')
    (h : s.Recent Source creation waiting timeout now) (hlt : now < 2 ^ 64) (hpos : 0 < timeout)
    (hc : s.flight.calls[i]? = some c) (hstart : c.pc = .start)
    (hprompt : ∀ t tok, s.flight.ongoingCreation[c.key]? = some t → s.flight.tokens[t]? = some tok →
      tok.result.isSome = true → now ≤ s.finishedAt t + waiting) {flight : FlightState K V E}
    (hs : s.flight.enter i c now = some flight) :
    Recent Source creation waiting timeout now
      { s with flight, enteredAt := Function.update s.enteredAt i now } := by
  have hinv := h.inv.enter hc hstart hs
  have henter : ∀ j, j ≠ i → Function.update s.enteredAt i now j = s.enteredAt j :=
    fun j hj => Function.update_of_ne hj _ _
  have hself : Function.update s.enteredAt i now i = now := Function.update_self ..
  have hentered : ∀ j, Function.update s.enteredAt i now j ≤ now := by
    intro j
    by_cases hj : j = i
    · rw [hj, hself]
    · rw [henter j hj]
      exact h.entered j
  obtain ⟨hok, hget⟩ := SharedValueLruCache.get_spec h.cache now c.key
  have htime := SharedValueLruCache.get_timeout s.flight.internalCache now c.key
  unfold FlightState.enter at hs
  generalize s.flight.internalCache.get now c.key = got at hs hok hget htime
  obtain ⟨cachedVal, cache⟩ := got
  dsimp only at hs hok hget htime
  cases cachedVal with
  | some v =>
    cases hs
    obtain ⟨⟨ts, hts, hage⟩, hfind⟩ := hget
    refine ⟨hinv, hok, htime.trans h.times, fun k v' ts' hk => h.entries k v' ts' (hfind k ▸ hk), hentered,
      h.tokens,
      calls_set h.calls (fun t tok ht => .inr ⟨tok, ht, rfl, rfl⟩) hc henter ?_⟩
    -- A hit is not older than the timeout.
    obtain ⟨hpast, hsource⟩ := h.entries c.key v ts hts
    refine hanti _ _ _ _ ?_ hsource
    rw [hself]
    rw [h.times, u64Sub_eq hpast hlt] at hage
    omega
  | none =>
    have hentries : ∀ k v ts, cache.find? k = some (v, ts) → ts ≤ now ∧ Source k v (ts - creation) := by
      intro k v ts hk
      by_cases hkey : k = c.key
      · rw [hkey, hget.1] at hk
        cases hk
      · exact h.entries k v ts (hget.2 k hkey ▸ hk)
    cases hon : s.flight.ongoingCreation[c.key]? with
    | none =>
      rw [hon] at hs
      cases hs
      have hsame : SameResults s.flight.tokens (s.flight.tokens ++ [{ key := c.key, count := 1 }]) := .snoc c.key
      exact ⟨hinv, hok, htime.trans h.times, hentries, hentered, tokens_same h.tokens hsame,
        calls_set h.calls hsame hc henter trivial⟩
    | some t =>
      rw [hon] at hs
      obtain ⟨tok, htok, rfl⟩ := Option.map_eq_some_iff.mp hs
      have hset : (s.flight.tokens.set t { tok with count := tok.count + 1 })[t]? =
          some { tok with count := tok.count + 1 } :=
        (getElem?_set_iff htok).mpr (.inl ⟨rfl, rfl⟩)
      have hjoin := SameResults.setCount htok (tok.count + 1)
      have hresult : ({ tok with count := tok.count + 1 } : CreationToken K V E).result = tok.result := rfl
      cases hr : tok.result with
      | none =>
        simp only [hresult, hr] at hinv ⊢
        refine ⟨hinv, hok, htime.trans h.times, hentries, hentered, tokens_same h.tokens hjoin,
          calls_set h.calls hjoin hc henter fun tok' htok' hsome => ?_⟩
        rw [hset] at htok'
        cases htok'
        rw [hresult, hr] at hsome
        cases hsome
      | some r =>
        simp only [hresult, hr] at hinv ⊢
        have hleave : SameResults s.flight.tokens
            ((s.flight.tokens.set t { tok with count := tok.count + 1 }).set t
              { tok with count := tok.count + 1 - 1 }) := by
          rw [List.set_set]
          exact .setCount htok _
        refine ⟨hinv, hok, htime.trans h.times, hentries, hentered, tokens_same h.tokens hleave,
          calls_set h.calls hleave hc henter ?_⟩
        -- A creation that is done, but that others have not left.
        cases r with
        | error e => trivial
        | ok v =>
          obtain ⟨tok', htok', hkey, _⟩ := (h.inv.ongoing c.key t).mp hon
          obtain rfl := Option.some.inj (htok.symm.trans htok')
          have hnow := hprompt t tok hon htok (by rw [hr]; rfl)
          refine hanti _ _ _ _ ?_ (hkey ▸ h.tokens t tok v htok hr)
          rw [hself]
          omega

omit [Std.TransOrd K] [Std.LawfulEqOrd K] in
/-- A creation is done: its value is handed to those that wait. -/
theorem Recent.handOver (hanti : ∀ k v r r', r' ≤ r → Source k v r → Source k v r')
    (h : s.Recent Source creation waiting timeout now) (hc : s.flight.calls[i]? = some c) {r : Except E V}
    (hpc : c.pc = .created t r) (htok : s.flight.tokens[t]? = some tok) (hprompt : now ≤ s.enteredAt i + creation)
    (tok' : CreationToken K V E) (hkey : tok'.key = c.key) (hres : tok'.result = some r) :
    (∀ (u : Nat) x v, (s.flight.tokens.set t tok')[u]? = some x → x.result = some (.ok v) →
        Source x.key v (Function.update s.finishedAt t now u - creation)) ∧
      ∀ (j : Nat) d, ((s.flight.notifyAll t).calls.set i { c with pc := .done (some t) r })[j]? = some d →
        CallRecent Source creation waiting timeout (s.flight.tokens.set t tok') s.enteredAt
          (Function.update s.finishedAt t now) j d := by
  have hother : ∀ u, u ≠ t → Function.update s.finishedAt t now u = s.finishedAt u :=
    fun u hu => Function.update_of_ne hu _ _
  have hmade : ∀ v, r = .ok v → Source c.key v (s.enteredAt i) := by
    intro v hv
    have hcall := h.calls i c hc
    rw [CallRecent, hpc, hv] at hcall
    exact hcall
  have hci : (s.flight.notifyAll t).calls[i]? = some c := by simp [FlightState.notifyAll, hc, hpc]
  refine ⟨fun u x v hx hv => ?_, fun j d hd => ?_⟩
  · rcases (getElem?_set_iff htok).mp hx with ⟨rfl, rfl⟩ | ⟨hne, hx⟩
    · rw [hres] at hv
      rw [hkey, Function.update_self]
      exact hanti _ _ _ _ (by omega) (hmade v (Option.some.inj hv))
    · rw [hother u hne]
      exact h.tokens u x v hx hv
  · rcases (getElem?_set_iff hci).mp hd with ⟨rfl, rfl⟩ | ⟨hne, hd⟩
    · cases r with
      | error e => trivial
      | ok v => exact hanti _ _ _ _ (Nat.sub_le _ _) (hmade v rfl)
    · -- Those that wait are told, and are otherwise as they were.
      rw [FlightState.notifyAll, List.getElem?_map] at hd
      obtain ⟨d₀, hd₀, rfl⟩ := Option.map_eq_some_iff.mp hd
      have hcall := h.calls j d₀ hd₀
      unfold CallRecent at hcall ⊢
      obtain ⟨key, pc⟩ := d₀
      cases pc with
      | start | creating => trivial
      | created u r' | done u r' =>
        cases r' with
        | error e => trivial
        | ok v => exact hcall
      | waiting u n =>
        intro x hx hsome
        rcases (getElem?_set_iff htok).mp hx with ⟨rfl, rfl⟩ | ⟨hne', hx⟩
        · rw [Function.update_self]
          exact h.entered j
        · rw [hother u hne']
          exact hcall x hx hsome

theorem Recent.finish (hanti : ∀ k v r r', r' ≤ r → Source k v r → Source k v r')
    (h : s.Recent Source creation waiting timeout now) (hc : s.flight.calls[i]? = some c) {r : Except E V}
    (hpc : c.pc = .created t r) (htok : s.flight.tokens[t]? = some tok)
    (hprompt : now ≤ s.enteredAt i + creation) :
    Recent Source creation waiting timeout now
      { s with flight := s.flight.finish i c t tok r now, finishedAt := Function.update s.finishedAt t now } := by
  have hinv := h.inv.finish hc hpc htok now
  have hnone := h.inv.unfinished hc (by rw [hpc]; rfl) htok
  obtain ⟨tok₁, htok₁, hkey, _⟩ := h.inv.ongoing_of_token hc (t := t) (by rw [hpc]; rfl)
  obtain rfl := Option.some.inj (htok.symm.trans htok₁)
  have heptr : tok.eptr = none := by
    cases he : tok.eptr with
    | none => rfl
    | some e => simp [CreationToken.result, he] at hnone
  cases r with
  | ok v =>
    obtain ⟨htokens, hcalls⟩ := h.handOver hanti hc hpc htok hprompt
      { tok with val := some v, count := tok.count - 1 } hkey (by simp [CreationToken.result, heptr])
    have hsource : Source c.key v (now - creation) := by
      have hcall := h.calls i c hc
      rw [CallRecent, hpc] at hcall
      exact hanti _ _ _ _ (by omega) hcall
    refine ⟨hinv, SharedValueLruCache.put_ok h.cache now c.key v,
      (SharedValueLruCache.put_timeout ..).trans h.times,
      fun k v' ts hk => ?_, h.entered, ?_, ?_⟩
    · rcases SharedValueLruCache.put_find? h.cache hk with ⟨rfl, hx⟩ | ⟨_, hold⟩
      · cases hx
        exact ⟨le_refl _, hsource⟩
      · exact h.entries k v' ts hold
    · simpa [FlightState.finish, FlightState.setPc, FlightState.release, FlightState.notifyAll] using htokens
    · simpa [FlightState.finish, FlightState.setPc, FlightState.release, FlightState.notifyAll] using hcalls
  | error e =>
    obtain ⟨htokens, hcalls⟩ := h.handOver hanti hc hpc htok hprompt
      { tok with eptr := some e, count := tok.count - 1 } hkey (by simp [CreationToken.result])
    refine ⟨hinv, h.cache, h.times, h.entries, h.entered, ?_, ?_⟩
    · simpa [FlightState.finish, FlightState.setPc, FlightState.release, FlightState.notifyAll] using htokens
    · simpa [FlightState.finish, FlightState.setPc, FlightState.release, FlightState.notifyAll] using hcalls

omit [Std.TransOrd K] [Std.LawfulEqOrd K] in
theorem Recent.wake (hanti : ∀ k v r r', r' ≤ r → Source k v r → Source k v r')
    (h : s.Recent Source creation waiting timeout now) (hc : s.flight.calls[i]? = some c) {n : Bool}
    (hpc : c.pc = .waiting t n) (htok : s.flight.tokens[t]? = some tok) {flight : FlightState K V E}
    (hs : (match tok.result with
      | some result => s.flight.leave i c t tok result
      | none => s.flight.setPc i c (.waiting t false)) = flight) (hinv : flight.Inv) :
    Recent Source creation waiting timeout now { s with flight } := by
  subst hs
  cases hr : tok.result with
  | none =>
    simp only [hr] at hinv ⊢
    refine ⟨hinv, h.cache, h.times, h.entries, h.entered, h.tokens,
      calls_set h.calls (fun t tok ht => .inr ⟨tok, ht, rfl, rfl⟩) hc (fun _ _ => rfl) fun tok' htok' hsome => ?_⟩
    obtain rfl := Option.some.inj (htok.symm.trans htok')
    rw [hr] at hsome
    cases hsome
  | some r =>
    simp only [hr] at hinv ⊢
    have hsame := SameResults.setCount htok (tok.count - 1)
    refine ⟨hinv, h.cache, h.times, h.entries, h.entered, tokens_same h.tokens hsame,
      calls_set h.calls hsame hc (fun _ _ => rfl) ?_⟩
    cases r with
    | error e => trivial
    | ok v =>
      obtain ⟨tok₁, htok₁, hkey, _⟩ := h.inv.ongoing_of_token hc (t := t) (by rw [hpc]; rfl)
      obtain rfl := Option.some.inj (htok.symm.trans htok₁)
      have hcall := h.calls i c hc
      rw [CallRecent, hpc] at hcall
      have hle := hcall tok htok (by rw [hr]; rfl)
      refine hanti _ _ _ _ ?_ (hkey ▸ h.tokens t tok v htok hr)
      omega

omit [Std.TransOrd K] [Std.LawfulEqOrd K] in
theorem Recent.setCache (h : s.Recent Source creation waiting timeout now) {cache : SharedValueLruCache K V}
    (hok : cache.OK) (htime : cache.timeoutMillisec = s.flight.internalCache.timeoutMillisec)
    (hfind : ∀ k v ts, cache.find? k = some (v, ts) → ts ≤ now ∧ Source k v (ts - creation)) :
    Recent Source creation waiting timeout now { s with flight := { s.flight with internalCache := cache } } :=
  ⟨h.inv.cache cache, hok, htime.trans h.times, hfind, h.entered, h.tokens, h.calls⟩

theorem Recent.step (hanti : ∀ k v r r', r' ≤ r → Source k v r → Source k v r')
    (h : s.Recent Source creation waiting timeout now) (hlt : now < 2 ^ 64) (hpos : 0 < timeout)
    {a : TimedAct K V E} (hprompt : s.Prompt creation waiting now a)
    (hsource : s.Sourced Source creation now a) {s' : TimedFlight K V E} (hs : s.step now a = some s') :
    s'.Recent Source creation waiting timeout now := by
  obtain ⟨flight, hstep, rfl⟩ := Option.map_eq_some_iff.mp hs
  have hinv := h.inv.step hstep
  cases a with
  | call key =>
    cases hstep
    refine ⟨hinv, h.cache, h.times, h.entries, h.entered, h.tokens, fun j d hd => ?_⟩
    rcases getElem?_snoc_iff.mp hd with hd | ⟨_, rfl⟩
    · exact h.calls j d hd
    · trivial
  | enter i =>
    obtain ⟨c, hc, hstep⟩ := Option.bind_eq_some_iff.mp hstep
    split at hstep
    next hpc =>
      refine h.enter hanti hlt hpos hc hpc (fun t tok ht htok hsome => hprompt t ?_) hstep
      simp [findsDone, hc, ht, htok, hsome]
    next => cases hstep
  | factory i result =>
    obtain ⟨c, hc, hstep⟩ := Option.bind_eq_some_iff.mp hstep
    split at hstep
    next t hpc =>
      cases hstep
      refine ⟨hinv, h.cache, h.times, h.entries, h.entered, h.tokens,
        calls_set h.calls (fun t tok ht => .inr ⟨tok, ht, rfl, rfl⟩) hc (fun _ _ => rfl) ?_⟩
      cases result with
      | error e => trivial
      | ok v => exact hsource c v hc rfl
    next => cases hstep
  | finish i =>
    obtain ⟨c, hc, hstep⟩ := Option.bind_eq_some_iff.mp hstep
    split at hstep
    next t r hpc =>
      obtain ⟨tok, htok, rfl⟩ := Option.map_eq_some_iff.mp hstep
      have hcreating : s.creating i = some t := by simp [creating, hc, hpc, CreatePc.creates?]
      simp only [hcreating, Option.elim_some]
      exact h.finish hanti hc hpc htok hprompt
    next => cases hstep
  | wake i =>
    obtain ⟨c, hc, hstep⟩ := Option.bind_eq_some_iff.mp hstep
    split at hstep
    next t n hpc =>
      obtain ⟨tok, htok, hstep⟩ := Option.map_eq_some_iff.mp hstep
      exact h.wake hanti hc hpc htok hstep hinv
    next => cases hstep
  | put key value =>
    cases hstep
    have hok := SharedValueLruCache.put_ok h.cache now key value
    refine h.setCache hok (SharedValueLruCache.put_timeout ..) fun k v ts hk => ?_
    rcases SharedValueLruCache.put_find? h.cache hk with ⟨rfl, hx⟩ | ⟨_, hold⟩
    · cases hx
      exact ⟨le_refl _, hsource⟩
    · exact h.entries k v ts hold
  | clear =>
    cases hstep
    refine h.setCache SharedValueLruCache.clear_spec.1 rfl fun k v ts hk => ?_
    rw [SharedValueLruCache.clear_spec.2 k] at hk
    cases hk
  | clearFrom startKey filter =>
    cases hstep
    obtain ⟨hok, hfind⟩ := SharedValueLruCache.clearFrom_spec h.cache startKey filter
    refine h.setCache hok (SharedValueLruCache.clearFrom_timeout ..) fun k v ts hk => ?_
    by_cases hk' : k ∈ s.flight.internalCache.keysFrom startKey filter
    · rw [(hfind k).1 hk'] at hk
      cases hk
    · exact h.entries k v ts ((hfind k).2 hk' ▸ hk)

omit [Std.LawfulEqOrd K] in
theorem Recent.init (Source : K → V → Nat → Prop) (creation waiting timeout maxEntries : Nat) :
    Recent (E := E) Source creation waiting timeout now
      { flight := { internalCache := { maxEntries, timeoutMillisec := timeout } } } := by
  refine ⟨.init _, Indexes.nil fun k => ?_, rfl, fun k v ts hk => ?_, fun i => Nat.zero_le _,
    fun t tok v ht => ?_,
    fun i c hc => ?_⟩
  · simp
  · simp [SharedValueLruCache.find?] at hk
  · simp at ht
  · simp at hc

omit [Std.TransOrd K] [Std.LawfulEqOrd K] in
/-- What a call returns is a value of its key, no older than the timeout and the delays. -/
theorem Recent.answer (h : s.Recent Source creation waiting timeout now) (hc : s.flight.calls[i]? = some c)
    {u : Option Nat} {v : V} (hpc : c.pc = .done u (.ok v)) :
    Source c.key v (s.enteredAt i - (creation + max timeout waiting)) := by
  have hcall := h.calls i c hc
  rw [CallRecent, hpc] at hcall
  exact hcall

end TimedFlight

namespace TimedFlight

variable {K V E : Type} [Ord K] {s s' : TimedFlight K V E} {now i : Nat}

/-- A call that has looked into the cache, and when it did. -/
structure Begun (s : TimedFlight K V E) (i : Nat) (key : K) (enteredAt : Nat) : Prop where
  call : ∃ c, s.flight.calls[i]? = some c ∧ c.key = key ∧ c.pc ≠ .start
  time : s.enteredAt i = enteredAt

theorem Begun.step {key : K} {enteredAt : Nat} (h : s.Begun i key enteredAt) {a : TimedAct K V E}
    (hs : s.step now a = some s') : s'.Begun i key enteredAt := by
  obtain ⟨flight, hstep, rfl⟩ := Option.map_eq_some_iff.mp hs
  obtain ⟨⟨c, hc, hkey, hpc⟩, htime⟩ := h
  -- Where a call is given another place, it is not the start.
  have hset : ∀ {calls : List (CreateCall K V E)} {j : Nat} {d : CreateCall K V E} {pc : CreatePc V E},
      (∃ c, calls[i]? = some c ∧ c.key = key ∧ c.pc ≠ .start) → calls[j]? = some d → pc ≠ .start →
      ∃ c, (calls.set j { d with pc })[i]? = some c ∧ c.key = key ∧ c.pc ≠ .start := by
    rintro calls j d pc ⟨c, hc, hkey, hpc⟩ hd hne
    by_cases hij : i = j
    · subst hij
      obtain rfl := Option.some.inj (hc.symm.trans hd)
      exact ⟨_, (getElem?_set_iff hc).mpr (.inl ⟨rfl, rfl⟩), hkey, hne⟩
    · exact ⟨c, (getElem?_set_iff hd).mpr (.inr ⟨hij, hc⟩), hkey, hpc⟩
  have hcall : ∃ c, s.flight.calls[i]? = some c ∧ c.key = key ∧ c.pc ≠ .start := ⟨c, hc, hkey, hpc⟩
  cases a with
  | call k =>
    cases hstep
    exact ⟨⟨c, getElem?_snoc_iff.mpr (.inl hc), hkey, hpc⟩, htime⟩
  | enter j =>
    obtain ⟨d, hd, hstep⟩ := Option.bind_eq_some_iff.mp hstep
    split at hstep
    next hstart =>
      have hij : i ≠ j := by
        rintro rfl
        obtain rfl := Option.some.inj (hc.symm.trans hd)
        exact hpc hstart
      refine ⟨?_, (Function.update_of_ne hij _ _).trans htime⟩
      unfold FlightState.enter at hstep
      generalize s.flight.internalCache.get now d.key = got at hstep
      dsimp only at hstep
      split at hstep
      · cases hstep
        exact hset hcall hd (by simp)
      · split at hstep
        · obtain ⟨tok, _, rfl⟩ := Option.map_eq_some_iff.mp hstep
          split
          · exact hset hcall hd (by simp)
          · exact hset hcall hd (by simp)
        · cases hstep
          exact hset hcall hd (by simp)
    next => cases hstep
  | factory j result =>
    obtain ⟨d, hd, hstep⟩ := Option.bind_eq_some_iff.mp hstep
    split at hstep
    · cases hstep
      exact ⟨hset hcall hd (by simp), htime⟩
    · cases hstep
  | finish j =>
    obtain ⟨d, hd, hstep⟩ := Option.bind_eq_some_iff.mp hstep
    split at hstep
    next t r hcreated =>
      obtain ⟨tok, _, rfl⟩ := Option.map_eq_some_iff.mp hstep
      have hmapped : ∃ c, (s.flight.notifyAll t).calls[i]? = some c ∧ c.key = key ∧ c.pc ≠ .start := by
        refine ⟨_, by rw [FlightState.notifyAll, List.getElem?_map, hc]; rfl, ?_, ?_⟩
        · dsimp only
          split
          · exact hkey
          · exact hkey
        · dsimp only
          split
          · simp
          · exact hpc
      have hd' : (s.flight.notifyAll t).calls[j]? = some d := by simp [FlightState.notifyAll, hd, hcreated]
      refine ⟨?_, htime⟩
      exact hset hmapped hd' (by simp)
    next => cases hstep
  | wake j =>
    obtain ⟨d, hd, hstep⟩ := Option.bind_eq_some_iff.mp hstep
    split at hstep
    · obtain ⟨tok, _, rfl⟩ := Option.map_eq_some_iff.mp hstep
      refine ⟨?_, htime⟩
      dsimp only
      split
      · exact hset hcall hd (by simp)
      · exact hset hcall hd (by simp)
    · cases hstep
  | put | clear | clearFrom =>
    cases hstep
    exact ⟨hcall, htime⟩

end TimedFlight

end ReadCacheFs
