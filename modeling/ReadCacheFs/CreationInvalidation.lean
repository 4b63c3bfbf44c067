/-
What an invalidating call does to creations in flight: nothing. A clear or
delete takes entries out of the cache and leaves `ongoing_creation` alone,
so a later call can still join a creation that was in flight, or find in the
cache what its factory has put there since.

Every result carries the run it comes from: the token of the call whose
factory it was. The machine does not look at it.
-/
import ReadCacheFs.SingleFlight

namespace ReadCacheFs

open Lib

/-- A value or exception, and the factory run it comes from; none where a
`Put` from outside gave it. -/
structure FromRun (α : Type) where
  run : Option Nat
  value : α
  deriving DecidableEq, Repr

def runOf {V E : Type} : Except (FromRun E) (FromRun V) → Option Nat
  | .ok v => v.run
  | .error e => e.run

/-- The call invalidates the key: `Delete(k)`, `Clear(k, ..)` or `Clear()`. -/
def FlightAct.Invalidates {K V E : Type} (k : K) : FlightAct K V E → Prop
  | .delete key => key = k
  | .clear => True
  | .clearFrom startKey filter => startKey = k ∧ filter k = true
  | _ => False

namespace FlightState

variable {K V E : Type} [Ord K]

/-- The results that come in carry their run. -/
def Labelled (s : FlightState K (FromRun V) (FromRun E)) : FlightAct K (FromRun V) (FromRun E) → Prop
  | .factory i r => runOf r = (s.calls[i]?).bind (·.pc.creates?)
  | .put _ v _ => v.run = none
  | _ => True

instance (s : FlightState K (FromRun V) (FromRun E)) (a : FlightAct K (FromRun V) (FromRun E)) :
    Decidable (s.Labelled a) :=
  match a with
  | .factory .. | .put .. => inferInstanceAs (Decidable (_ = _))
  | .call _ | .enter .. | .finish .. | .wake _ | .get .. | .delete _ | .clear | .clearFrom .. | .take _ => .isTrue trivial

/-- What is known of the runs below `n`, those that had started when the key
`k` was invalidated: only the ones in flight then (`live`) can still be
joined, be in the cache under `k`, or have been returned by a call on `k`
from the `m`th on. -/
structure Fresh (n m : Nat) (k : K) (live : Nat → Prop) (s : FlightState K (FromRun V) (FromRun E)) : Prop where
  cacheOK : s.internalCache.OK
  cached : ∀ v ts t, s.internalCache.find? k = some (v, ts) → v.run = some t → t < n → live t
  tokens : n ≤ s.tokens.length
  results : ∀ (t : Nat) tok r, s.tokens[t]? = some tok → tok.result = some r → runOf r = some t
  joined : ∀ c ∈ s.calls, ∀ t, c.pc.token? = some t → t < n → live t
  made : ∀ c ∈ s.calls, ∀ t r, c.pc = .created t r → runOf r = some t
  returned : ∀ (i : Nat) c o r t, s.calls[i]? = some c → m ≤ i → c.key = k → c.pc = .done o r → runOf r = some t →
    t < n → live t

variable {n m : Nat} {k : K} {live : Nat → Prop} {s s' : FlightState K (FromRun V) (FromRun E)} {i : Nat}
  {c : CreateCall K (FromRun V) (FromRun E)}

theorem Fresh.setPc (h : Fresh n m k live s) (hc : s.calls[i]? = some c) {pc : CreatePc (FromRun V) (FromRun E)}
    (hjoined : ∀ t, pc.token? = some t → t < n → live t) (hmade : ∀ t r, pc = .created t r → runOf r = some t)
    (hreturned : ∀ o r t, pc = .done o r → m ≤ i → c.key = k → runOf r = some t → t < n → live t) :
    Fresh n m k live (s.setPc i c pc) := by
  refine ⟨h.cacheOK, h.cached, h.tokens, h.results, fun d hd => ?_, fun d hd => ?_,
    fun j d o r t hd hm hk hp => ?_⟩
  · rcases List.mem_or_eq_of_mem_set hd with hd | rfl
    · exact h.joined d hd
    · exact hjoined
  · rcases List.mem_or_eq_of_mem_set hd with hd | rfl
    · exact h.made d hd
    · exact hmade
  · rcases (getElem?_set_iff hc).mp hd with ⟨rfl, rfl⟩ | ⟨_, hd⟩
    · exact hreturned o r t hp hm hk
    · exact h.returned j d o r t hd hm hk hp

theorem Fresh.setToken (h : Fresh n m k live s) {t : Nat} {tok : CreationToken K (FromRun V) (FromRun E)}
    (htok : s.tokens[t]? = some tok) (tok' : CreationToken K (FromRun V) (FromRun E))
    (hres : ∀ r, tok'.result = some r → runOf r = some t) (ongoingCreation : Std.TreeMap K Nat) :
    Fresh n m k live { s with tokens := s.tokens.set t tok', ongoingCreation } := by
  refine ⟨h.cacheOK, h.cached, by simpa using h.tokens, fun u x r hx hr => ?_, h.joined, h.made, h.returned⟩
  rcases (getElem?_set_iff htok).mp hx with ⟨rfl, rfl⟩ | ⟨_, hx⟩
  · exact hres r hr
  · exact h.results u x r hx hr

theorem Fresh.cache (h : Fresh n m k live s) {cache : SharedValueLruCache K (FromRun V)} (hok : cache.OK)
    (hcached : ∀ v ts t, cache.find? k = some (v, ts) → v.run = some t → t < n → live t) :
    Fresh n m k live { s with internalCache := cache } :=
  ⟨hok, hcached, h.tokens, h.results, h.joined, h.made, h.returned⟩

theorem Fresh.shrink (h : Fresh n m k live s) {cache : SharedValueLruCache K (FromRun V)} (hok : cache.OK)
    (hfind : ∀ x, cache.find? k = some x → s.internalCache.find? k = some x) :
    Fresh n m k live { s with internalCache := cache } :=
  h.cache hok fun v ts t hx => h.cached v ts t (hfind _ hx)

theorem Fresh.leave (h : Fresh n m k live s) (hc : s.calls[i]? = some c) {t : Nat}
    {tok : CreationToken K (FromRun V) (FromRun E)} (htok : s.tokens[t]? = some tok)
    {r : Except (FromRun E) (FromRun V)} (hr : tok.result = some r) (hlive : t < n → live t) :
    Fresh n m k live (s.leave i c t tok r) := by
  have hrel := h.setToken htok { tok with count := tok.count - 1 } (fun r' hr' => h.results t tok r' htok hr')
    (if tok.count - 1 = 0 then s.ongoingCreation.erase c.key else s.ongoingCreation)
  refine hrel.setPc hc (by simp [CreatePc.token?]) (by simp) fun o r' u hp _ _ hrun => ?_
  cases hp
  rw [h.results t tok r htok hr] at hrun
  exact Option.some.inj hrun ▸ hlive

variable [Std.TransOrd K] [Std.LawfulEqOrd K]

theorem Fresh.get (h : Fresh n m k live s) (now : Nat) (key : K) :
    Fresh n m k live { s with internalCache := (s.internalCache.get now key).2 } := by
  obtain ⟨hok, hspec⟩ := SharedValueLruCache.get_spec h.cacheOK now key
  refine h.shrink hok fun x hx => ?_
  cases hg : (s.internalCache.get now key).1 with
  | some v =>
    rw [hg] at hspec
    rw [← hspec.2 k, hx]
  | none =>
    rw [hg] at hspec
    by_cases hk : k = key
    · rw [hk, hspec.1] at hx
      cases hx
    · rw [← hspec.2 k hk, hx]

/-- The first critical section: what is in the cache, or a token in
`ongoing_creation`, is as fresh as asked for; a new token is a new run. -/
theorem Fresh.enter (h : Fresh n m k live s) (hinv : s.Inv) (hc : s.calls[i]? = some c) {now : Nat}
    (hs : s.enter i c now = some s') : Fresh n m k live s' := by
  have hget := h.get now c.key
  have hspec := (SharedValueLruCache.get_spec h.cacheOK now c.key).2
  unfold FlightState.enter at hs
  cases hg : s.internalCache.get now c.key with
  | mk cachedVal cache =>
    rw [hg] at hs hget hspec
    dsimp only at hs hget hspec
    cases cachedVal with
    | some v =>
      cases hs
      obtain ⟨⟨ts, hfind, _⟩, _⟩ := hspec
      refine hget.setPc hc (by simp [CreatePc.token?]) (by simp) fun o r t hp _ hk hrun => ?_
      cases hp
      exact h.cached v ts t (hk ▸ hfind) hrun
    | none =>
      dsimp only at hs
      cases hon : s.ongoingCreation[c.key]? with
      | none =>
        rw [hon] at hs
        cases hs
        have hnew : Fresh n m k live { s with
            internalCache := cache
            tokens := s.tokens ++ [({ key := c.key, count := 1 } : CreationToken K (FromRun V) (FromRun E))]
            ongoingCreation := s.ongoingCreation.insert c.key s.tokens.length } := by
          refine ⟨hget.cacheOK, hget.cached, by have := h.tokens; simp; omega, fun t tok r ht hr => ?_,
            h.joined, h.made, h.returned⟩
          rcases getElem?_snoc_iff.mp ht with ht | ⟨_, rfl⟩
          · exact h.results t tok r ht hr
          · cases hr
        refine hnew.setPc hc (fun t ht hlt => ?_) (by simp) (by simp)
        cases ht
        exact absurd hlt (Nat.not_lt.mpr h.tokens)
      | some t =>
        rw [hon] at hs
        obtain ⟨tok, htok, rfl⟩ := Option.map_eq_some_iff.mp hs
        -- The token is in the map because a call is with it.
        have hlive : t < n → live t := by
          obtain ⟨tok', htok', _, hpos⟩ := (hinv.ongoing _ _).mp hon
          have hatt : 0 < s.attached t := by
            have := hinv.count t tok' htok'
            omega
          obtain ⟨d, hd, ht⟩ := List.countP_pos_iff.mp hatt
          exact h.joined d hd t (by simpa using ht)
        have hcount := hget.setToken htok { tok with count := tok.count + 1 }
          (fun r hr => h.results t tok r htok hr) s.ongoingCreation
        have hself := (getElem?_set_iff htok (b := { tok with count := tok.count + 1 })).mpr (.inl ⟨rfl, rfl⟩)
        split
        next r hr => exact hcount.leave hc hself hr hlive
        next hr =>
          refine hcount.setPc hc (fun u hu hlt => ?_) (by simp) (by simp)
          cases hu
          exact hlive hlt

omit [Std.TransOrd K] [Std.LawfulEqOrd K] in
theorem Fresh.notifyAll (h : Fresh n m k live s) (t : Nat) : Fresh n m k live (s.notifyAll t) := by
  have hsame : ∀ d ∈ (s.notifyAll t).calls, ∃ d' ∈ s.calls, d'.pc.token? = d.pc.token? ∧
      ∀ u r, d.pc = .created u r → d'.pc = .created u r := by
    intro d hd
    obtain ⟨d', hd', rfl⟩ := List.mem_map.mp hd
    refine ⟨d', hd', ?_⟩
    cases hpc : d'.pc <;> simp [hpc, CreatePc.token?]
  refine ⟨h.cacheOK, h.cached, h.tokens, h.results, fun d hd => ?_, fun d hd u r hp => ?_,
    fun j d o r u hd hm hk hp => ?_⟩
  · obtain ⟨d', hd', ht, _⟩ := hsame d hd
    rw [← ht]
    exact h.joined d' hd'
  · obtain ⟨d', hd', _, hmade⟩ := hsame d hd
    exact h.made d' hd' u r (hmade u r hp)
  · obtain ⟨d', hd', rfl⟩ := Option.map_eq_some_iff.mp (List.getElem?_map ▸ hd :
      (s.calls[j]?).map _ = some d)
    cases hpc : d'.pc with
    | done o' r' =>
      simp only [hpc] at hk hp
      exact h.returned j d' o r u hd' hm hk (hpc.trans hp)
    | start | waiting _ _ | creating _ | created _ _ => simp [hpc] at hp

/-- The second critical section puts the value of a run that was in flight. -/
theorem Fresh.finish (h : Fresh n m k live s) (hc : s.calls[i]? = some c) {t : Nat}
    {r : Except (FromRun E) (FromRun V)} (hpc : c.pc = .created t r)
    {tok : CreationToken K (FromRun V) (FromRun E)} (htok : s.tokens[t]? = some tok)
    (heptr : tok.eptr = none) (now : Nat) :
    Fresh n m k live (s.finish i c t tok r now) := by
  have hrun := h.made c (List.mem_of_getElem? hc) t r hpc
  have hlive : t < n → live t := h.joined c (List.mem_of_getElem? hc) t (by rw [hpc]; rfl)
  have hleave : ∀ (cache : SharedValueLruCache K (FromRun V)) (tok' : CreationToken K (FromRun V) (FromRun E)),
      tok'.result = some r → Fresh n m k live { s with internalCache := cache } → Fresh n m k live
        (({ s with internalCache := cache, tokens := s.tokens.set t tok' }.notifyAll t).leave i c t tok' r) := by
    intro cache tok' hres hcache
    have hset := (hcache.setToken htok tok'
      (fun r' hr' => by rw [hres] at hr'; cases hr'; exact hrun) s.ongoingCreation).notifyAll t
    refine hset.leave ?_ ?_ hres hlive
    · simp [FlightState.notifyAll, hc, hpc]
    · simp [FlightState.notifyAll, (List.getElem?_eq_some_iff.mp htok).1]
  cases r with
  | error e => exact hleave s.internalCache { tok with eptr := some e } rfl h
  | ok v =>
    refine hleave _ { tok with val := some v } (by simp [CreationToken.result, heptr]) ?_
    refine h.cache (SharedValueLruCache.put_ok h.cacheOK now c.key v) fun v' ts u hx hu => ?_
    rcases SharedValueLruCache.put_find? h.cacheOK hx with ⟨_, he⟩ | ⟨_, hold⟩
    · cases he
      rw [show v.run = some t from hrun] at hu
      exact Option.some.inj hu ▸ hlive
    · exact h.cached v' ts u hold hu

theorem Fresh.step (h : Fresh n m k live s) (hinv : s.Inv) {a : FlightAct K (FromRun V) (FromRun E)}
    (ha : s.Labelled a) (hs : s.step a = some s') : Fresh n m k live s' := by
  cases a with
  | call key =>
    cases hs
    refine ⟨h.cacheOK, h.cached, h.tokens, h.results, fun d hd => ?_, fun d hd => ?_, fun j d o r t hd => ?_⟩
    · rcases List.mem_append.mp hd with hd | hd
      · exact h.joined d hd
      · obtain rfl := List.mem_singleton.mp hd
        simp [CreatePc.token?]
    · rcases List.mem_append.mp hd with hd | hd
      · exact h.made d hd
      · obtain rfl := List.mem_singleton.mp hd
        simp
    · rcases getElem?_snoc_iff.mp hd with hd | ⟨_, rfl⟩
      · exact h.returned j d o r t hd
      · simp
  | enter i now =>
    obtain ⟨c, hc, hs⟩ := Option.bind_eq_some_iff.mp hs
    split at hs
    next => exact h.enter hinv hc hs
    next => cases hs
  | factory i r =>
    obtain ⟨c, hc, hs⟩ := Option.bind_eq_some_iff.mp hs
    split at hs
    next t hpc =>
      cases hs
      have hrun : runOf r = some t := by simpa [Labelled, hc, hpc, CreatePc.creates?] using ha
      refine h.setPc hc (fun u hu => ?_) (fun u r' hp => ?_) (by simp)
      · exact h.joined c (List.mem_of_getElem? hc) u (by rw [hpc]; exact hu)
      · cases hp
        exact hrun
    next => cases hs
  | finish i now =>
    obtain ⟨c, hc, hs⟩ := Option.bind_eq_some_iff.mp hs
    split at hs
    next t r hpc =>
      obtain ⟨tok, htok, rfl⟩ := Option.map_eq_some_iff.mp hs
      have hnone := hinv.unfinished hc (by rw [hpc]; rfl) htok
      refine h.finish hc hpc htok ?_ now
      cases he : tok.eptr with
      | none => rfl
      | some e => simp [CreationToken.result, he] at hnone
    next => cases hs
  | wake i =>
    obtain ⟨c, hc, hs⟩ := Option.bind_eq_some_iff.mp hs
    split at hs
    next t notified hpc =>
      obtain ⟨tok, htok, rfl⟩ := Option.map_eq_some_iff.mp hs
      have hlive : t < n → live t := h.joined c (List.mem_of_getElem? hc) t (by rw [hpc]; rfl)
      split
      next r hr => exact h.leave hc htok hr hlive
      next =>
        refine h.setPc hc (fun u hu => ?_) (by simp) (by simp)
        cases hu
        exact hlive
    next => cases hs
  | get key now =>
    cases hs
    exact h.get now key
  | put key v now =>
    cases hs
    refine h.cache (SharedValueLruCache.put_ok h.cacheOK now key v) fun v' ts t hx ht => ?_
    rcases SharedValueLruCache.put_find? h.cacheOK hx with ⟨_, he⟩ | ⟨_, hold⟩
    · cases he
      rw [show v.run = none from ha] at ht
      cases ht
    · exact h.cached v' ts t hold ht
  | delete key =>
    cases hs
    obtain ⟨hok, hnone, hrest⟩ := SharedValueLruCache.delete_spec h.cacheOK key
    refine h.shrink hok fun x hx => ?_
    by_cases hk : k = key
    · rw [hk, hnone] at hx
      cases hx
    · rw [← hrest k hk, hx]
  | clear =>
    cases hs
    obtain ⟨hok, hnone⟩ := SharedValueLruCache.clear_spec (c := s.internalCache)
    refine h.shrink hok fun x hx => ?_
    rw [hnone] at hx
    cases hx
  | clearFrom startKey filter =>
    cases hs
    obtain ⟨hok, hkeys⟩ := SharedValueLruCache.clearFrom_spec h.cacheOK startKey filter
    refine h.shrink hok fun x hx => ?_
    by_cases hk : k ∈ s.internalCache.keysFrom startKey filter
    · rw [(hkeys k).1 hk] at hx
      cases hx
    · rw [← (hkeys k).2 hk, hx]
  | take clock =>
    obtain ⟨r, hr, rfl⟩ := Option.map_eq_some_iff.mp hs
    obtain ⟨taken, c', htake, hok, hnone, _⟩ := SharedValueLruCache.take_spec h.cacheOK clock
    rw [htake] at hr
    cases hr
    refine h.shrink hok fun x hx => ?_
    rw [hnone] at hx
    cases hx

theorem invalidated (h : s.internalCache.OK) {a : FlightAct K (FromRun V) (FromRun E)} (ha : a.Invalidates k)
    (hs : s.step a = some s') : s'.internalCache.OK ∧ s'.internalCache.find? k = none ∧ s'.tokens = s.tokens ∧
      s'.calls = s.calls := by
  cases a with
  | delete key =>
    obtain rfl : key = k := ha
    cases hs
    obtain ⟨hok, hnone, _⟩ := SharedValueLruCache.delete_spec h key
    exact ⟨hok, hnone, rfl, rfl⟩
  | clear =>
    cases hs
    obtain ⟨hok, hnone⟩ := SharedValueLruCache.clear_spec (c := s.internalCache)
    exact ⟨hok, hnone k, rfl, rfl⟩
  | clearFrom startKey filter =>
    obtain ⟨rfl, hf⟩ := ha
    cases hs
    obtain ⟨hok, hkeys⟩ := SharedValueLruCache.clearFrom_spec h startKey filter
    refine ⟨hok, ?_, rfl, rfl⟩
    by_cases hk : startKey ∈ s.internalCache.entryMap.keys
    · exact (hkeys startKey).1 (mem_keysInRange_start Std.TreeMap.ordered_keys hk hf)
    · have hnot : startKey ∉ s.internalCache.keysFrom startKey filter := fun hm =>
        hk ((List.dropWhile_sublist _).subset ((List.takeWhile_sublist _).subset hm))
      rw [show _ = _ from (hkeys startKey).2 hnot, SharedValueLruCache.find?_none_iff,
        ← Option.not_isSome_iff_eq_none,
        Std.TreeMap.isSome_getElem?_iff_mem, ← Std.TreeMap.mem_keys]
      exact hk
  | call _ | enter _ _ | factory _ _ | finish _ _ | wake _ | get _ _ | put _ _ _ | take _ => exact ha.elim

/-- **An invalidation is undone only by creations in flight.** In any
interleaving: when a call on `k` that started after an invalidating call on
`k` returns a value, or rethrows an exception, of a factory run that started
before it, then some call was still creating or waiting on that run's token
when the invalidating call held the lock. -/
theorem invalidation_holds_unless_in_flight (maxEntries timeoutMillisec : Nat)
    (before after : List (FlightAct K (FromRun V) (FromRun E))) (a : FlightAct K (FromRun V) (FromRun E)) (k : K)
    (s₁ s₂ s₃ : FlightState K (FromRun V) (FromRun E))
    (h₁ : exec step { internalCache := { maxEntries, timeoutMillisec } } before = some s₁) (ha : a.Invalidates k)
    (h₂ : s₁.step a = some s₂) (h₃ : exec step s₂ after = some s₃)
    (hlab : Guarded step Labelled { internalCache := { maxEntries, timeoutMillisec } } (before ++ a :: after))
    (i : Nat) (c : CreateCall K (FromRun V) (FromRun E)) (hi : s₁.calls.length ≤ i) (hc : s₃.calls[i]? = some c)
    (hk : c.key = k) (o : Option Nat) (r : Except (FromRun E) (FromRun V)) (hdone : c.pc = .done o r)
    (t : Nat) (hr : runOf r = some t) (hold : t < s₁.tokens.length) : 0 < s₁.attached t := by
  have hstep : ∀ {n m k live} (s : FlightState K (FromRun V) (FromRun E)) a s', (s.Inv ∧ Fresh n m k live s) →
      Labelled s a → step s a = some s' → s'.Inv ∧ Fresh n m k live s' :=
    fun _ _ _ h hl hs => ⟨h.1.step hs, h.2.step h.1 hl hs⟩
  have hstart : Fresh 0 0 k (fun _ => False)
      ({ internalCache := { maxEntries, timeoutMillisec } } : FlightState K (FromRun V) (FromRun E)) := by
    refine ⟨Indexes.nil fun k => by simp, ?_, ?_, ?_, ?_, ?_, ?_⟩ <;> simp
  rw [guarded_append] at hlab
  obtain ⟨hlab₁, hlab⟩ := hlab
  obtain ⟨_, hlab₂⟩ := hlab s₁ h₁
  obtain ⟨hinv₁, hfresh₁⟩ := exec_guarded_invariant hstep hlab₁ h₁ ⟨.init _, hstart⟩
  obtain ⟨hok₂, hnone, htok₂, hcalls₂⟩ := invalidated hfresh₁.cacheOK ha h₂
  -- From here on: the runs there have been, and which of them are in flight.
  have hfresh₂ : Fresh s₁.tokens.length s₁.calls.length k (fun t => 0 < s₁.attached t) s₂ := by
    refine ⟨hok₂, fun v ts t hx => ?_, by rw [htok₂], htok₂ ▸ hfresh₁.results, fun d hd t ht _ => ?_,
      hcalls₂ ▸ hfresh₁.made,
      fun j d o r t hd hm => ?_⟩
    · rw [hnone] at hx
      cases hx
    · rw [hcalls₂] at hd
      exact List.countP_pos_iff.mpr ⟨d, hd, by simp [ht]⟩
    · rw [hcalls₂] at hd
      exact absurd (List.getElem?_eq_some_iff.mp hd).1 (Nat.not_lt.mpr hm)
  obtain ⟨_, hfresh₃⟩ := exec_guarded_invariant hstep (hlab₂ s₂ h₂) h₃ ⟨hinv₁.step h₂, hfresh₂⟩
  exact hfresh₃.returned i c o r t hc hi hk hdone hr hold

/-- A call whose factory is running, and a second one after a clear: the
clear finds nothing to take out. -/
def beforeClear : List (FlightAct Nat (FromRun Nat) (FromRun String)) := [.call 7, .enter 0 0]

def afterClear : List (FlightAct Nat (FromRun Nat) (FromRun String)) :=
  [.factory 0 (.ok ⟨some 0, 3⟩), .finish 0 1, .call 7, .enter 1 2]

theorem invalidation_holds_unless_in_flight_clear :
    ∃ s₁ s₂ s₃ : FlightState Nat (FromRun Nat) (FromRun String),
      exec step { internalCache := { maxEntries := 0, timeoutMillisec := 0 } } beforeClear = some s₁ ∧
      s₁.step .clear = some s₂ ∧ exec step s₂ afterClear = some s₃ ∧
      s₃.calls[1]? = some ⟨7, .done none (.ok ⟨some 0, 3⟩)⟩ ∧ 0 < s₁.attached 0 := by
  obtain ⟨s₁, s₂, s₃, h₁, h₂, h₃, hlen, htok, hc⟩ : ∃ s₁ s₂ s₃ : FlightState Nat (FromRun Nat) (FromRun String),
      exec step { internalCache := { maxEntries := 0, timeoutMillisec := 0 } } beforeClear = some s₁ ∧
      s₁.step .clear = some s₂ ∧ exec step s₂ afterClear = some s₃ ∧ s₁.calls.length ≤ 1 ∧ 0 < s₁.tokens.length ∧
      s₃.calls[1]? = some ⟨7, .done none (.ok ⟨some 0, 3⟩)⟩ := ⟨_, _, _, rfl, rfl, rfl, by decide, by decide, rfl⟩
  exact ⟨s₁, s₂, s₃, h₁, h₂, h₃, hc,
    invalidation_holds_unless_in_flight 0 0 beforeClear afterClear .clear 7 s₁ s₂ s₃ h₁ trivial
    h₂ h₃ (by decide) 1 _ hlen hc rfl none (.ok ⟨some 0, 3⟩) rfl 0 rfl htok⟩

/-- The second call starts after the clear has returned, and returns the
value of the run that started before it. -/
theorem clear_undone_in_flight :
    ∃ s₁ s₂ s₃ : FlightState Nat (FromRun Nat) (FromRun String),
      exec step { internalCache := { maxEntries := 0, timeoutMillisec := 0 } } beforeClear = some s₁ ∧
      s₁.step .clear = some s₂ ∧ exec step s₂ afterClear = some s₃ ∧
      Guarded step Labelled { internalCache := { maxEntries := 0, timeoutMillisec := 0 } }
        (beforeClear ++ .clear :: afterClear) ∧
      s₁.calls.length = 1 ∧ s₁.tokens.length = 1 ∧ s₃.calls[1]? = some ⟨7, .done none (.ok ⟨some 0, 3⟩)⟩ :=
  ⟨_, _, _, rfl, rfl, rfl, by decide, rfl, rfl, rfl⟩

end FlightState

end ReadCacheFs
