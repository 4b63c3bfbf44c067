/-
The contract of the in-memory backends: a map that may lose entries.

A run calls the storage's operations one after another, holds the pins a
`Get` returns as long as it likes, and lets the object cache drop what it
likes. What happened is kept in a log; the contract is a property of the
log alone.
-/
import ReadCacheFs.DataCacheStorage
import ReadCacheFs.Lib.LossyMap
import ReadCacheFs.Lib.Runs

namespace ReadCacheFs

open Lib

inductive CacheEvent
  | put (now : Nat) (key : InMemCacheBlock) (chunk : PageAlignedDataChunk) (versionTag : String)
  | get (now : Nat) (key : InMemCacheBlock) (expectedVersionTag : String) (result : Option PageAlignedDataChunk)
  | delete (key : InMemCacheBlock)
  | clear
  | clearFile (fname : String)
  | take
  deriving DecidableEq, Repr

def CacheEvent.Replaces (k : InMemCacheBlock) : CacheEvent → Prop
  | .put _ key _ _ | .delete key => key = k
  | .clear | .take => True
  | .clearFile fname => k.fname = fname
  | .get .. => False

/-- **The contract.** A hit returns the chunk of the latest `Put` on the
key, which nothing has removed since, of the tag asked for and within the
timeout. After a `Get` that returned nothing (which includes every `Get`
that finds a stale or mismatched entry, by the first part) only a new
`Put` makes the key hit again. -/
structure LossyContract (timeoutMillisec : Nat) (log : List CacheEvent) : Prop where
  hit : ∀ before now key tag data after, log = before ++ .get now key tag (some data) :: after →
    ∃ earlier putAt chunk putTag since, before = earlier ++ .put putAt key chunk putTag :: since ∧ data = chunk ∧
      (∀ ev ∈ since, ¬ ev.Replaces key) ∧ (tag = "" ∨ putTag = tag) ∧
      (timeoutMillisec ≠ 0 → steadyMillis now ≤ steadyMillis putAt + timeoutMillisec)
  miss : ∀ before now key tag between now' tag' data after,
    log = before ++ .get now key tag none :: between ++ .get now' key tag' (some data) :: after →
    ∃ putAt chunk putTag, .put putAt key chunk putTag ∈ between

/-! ## Runs -/

structure StorageRun where
  storage : DataCacheStorage
  clock : Nat := 0
  /-- The live `PinnedBlock`s, each with what `Data()` gave when `Get` returned it. -/
  pins : List (Nat × PageAlignedDataChunk) := []
  log : List CacheEvent := []

inductive StorageAct
  | put (now : Nat) (evicted : List String) (key : InMemCacheBlock) (chunk : PageAlignedDataChunk)
  (versionTag : String)
  | get (now : Nat) (key : InMemCacheBlock) (expectedVersionTag : String)
  | delete (key : InMemCacheBlock)
  | clear
  | clearFile (hash : PolicyHash) (fname : String)
  | take (clock : Nat → Nat) (hash : PolicyHash)
  | evict (objCacheKey : String)
  | release (i : Nat)

/-- One call. The clock does not go back; a `Put` or `Take` that fails an
assertion is no step. -/
def storageStep (s : StorageRun) : StorageAct → Option StorageRun
  | .put now evicted key chunk tag =>
    if s.clock ≤ now ∧ now < clockLimit then
      match s.storage.put now evicted key chunk tag with
      | .ok storage => some { s with storage, clock := now, log := s.log ++ [.put now key chunk tag] }
      | .error _ => none
    else none
  | .get now key tag =>
    if s.clock ≤ now ∧ now < clockLimit then
      match s.storage.get now key tag with
      | (none, storage) => some { s with storage, clock := now, log := s.log ++ [.get now key tag none] }
      | (some p, storage) =>
        let data := storage.pinnedData p
        some { s with storage, clock := now, pins := (p, data) :: s.pins, log := s.log ++ [.get now key tag (some data)] }
    else none
  | .delete key => some { s with storage := (s.storage.delete key).2, log := s.log ++ [.delete key] }
  | .clear => some { s with storage := s.storage.clear, log := s.log ++ [.clear] }
  | .clearFile hash fname => some { s with storage := s.storage.clearFile hash fname, log := s.log ++ [.clearFile fname] }
  | .take clock hash =>
    match s.storage.take clock hash with
    | .ok (_, storage) => some { s with storage, log := s.log ++ [.take] }
    | .error _ => none
  | .evict objCacheKey => some { s with storage := s.storage.evict objCacheKey }
  | .release i => (s.pins[i]?).map fun pin =>
      { s with storage := s.storage.release pin.1, pins := s.pins.eraseIdx i }

/-- The chunks put have the length and capacity their key's block size determines. -/
def StorageAct.Shaped (lengthOf capacityOf : Nat → Nat) : StorageAct → Prop
  | .put _ _ key chunk _ => chunk.length = lengthOf key.blkSize ∧ chunk.capacity = capacityOf key.blkSize
  | _ => True

/-! ## The log as the history of a map -/

def cacheReading (timeoutMillisec : Nat) : MapReading CacheEvent InMemCacheBlock HeldBlock where
  writes
    | .put now key chunk tag => some (key, ⟨chunk, tag, steadyMillis now⟩)
    | _ => none
  ends
    | .get _ key _ none, k => key = k
    | ev, k => ev.Replaces k
  answers
    | .get now key tag (some data) => some (key, fun x => x.data = data ∧ x.Serves timeoutMillisec now tag)
    | _ => none

variable {timeoutMillisec : Nat}

theorem writes_eq {ev : CacheEvent} {k : InMemCacheBlock} {x : HeldBlock}
    (h : (cacheReading timeoutMillisec).writes ev = some (k, x)) :
    ∃ now chunk tag, ev = .put now k chunk tag ∧ x = ⟨chunk, tag, steadyMillis now⟩ := by
  cases ev with
  | put now key chunk tag =>
    simp only [cacheReading, Option.some.injEq, Prod.mk.injEq] at h
    obtain ⟨rfl, rfl⟩ := h
    exact ⟨now, chunk, tag, rfl, rfl⟩
  | get | delete | clear | clearFile | take => cases h

theorem ends_of_replaces {ev : CacheEvent} {k : InMemCacheBlock} (h : ev.Replaces k) :
    (cacheReading timeoutMillisec).ends ev k := by
  cases ev with
  | get => exact h.elim
  | put | delete | clear | clearFile | take => exact h

theorem LossyContract.of_accounts {held : InMemCacheBlock → Option HeldBlock} {log : List CacheEvent}
    (h : (cacheReading timeoutMillisec).Accounts held log) : LossyContract timeoutMillisec log := by
  refine ⟨fun before now key tag data after hl => ?_,
    fun before now key tag between now' tag' data after hl => ?_⟩
  · obtain ⟨x, ⟨earlier, ev, since, hb, hw, hsince⟩, hdata, hserves⟩ := h.answered before _ after key _ hl rfl
    obtain ⟨putAt, chunk, putTag, rfl, rfl⟩ := writes_eq hw
    exact ⟨earlier, putAt, chunk, putTag, since, hb, hdata.symm,
      fun ev' hm hr => hsince ev' hm (ends_of_replaces hr),
      hserves.tag_eq, hserves.fresh⟩
  · obtain ⟨x, ⟨earlier, ev, since, hb, hw, hsince⟩, _⟩ := h.answered _ _ after key _ hl rfl
    obtain ⟨putAt, chunk, putTag, rfl, _⟩ := writes_eq hw
    refine ⟨putAt, chunk, putTag, ?_⟩
    -- The write is not before the miss: the miss would have ended it.
    rcases List.append_eq_append_iff.mp hb with ⟨l, _, hl'⟩ | ⟨l, _, hl'⟩
    · cases l with
      | nil => cases hl'
      | cons e l =>
        rw [List.cons_append, List.cons.injEq] at hl'
        rw [hl'.2]
        simp
    · cases l with
      | nil => cases hl'
      | cons e l =>
        rw [List.cons_append, List.cons.injEq] at hl'
        exact absurd rfl (hsince (.get now key tag none) (by rw [hl'.2]; simp))

/-! ## Every run keeps the account -/

/-- The bytes charged for a chunk of this length and capacity. -/
def charge (lengthOf capacityOf : Nat → Nat) (n : Nat) : Nat :=
  if 0 < capacityOf n then capacityOf n else lengthOf n

section Invariant

variable (lengthOf capacityOf : Nat → Nat)

structure StorageRun.OK (timeoutMillisec : Nat) (s : StorageRun) : Prop where
  ok : s.storage.OK
  timeout : s.storage.timeoutMillisec = timeoutMillisec
  accounts : (cacheReading timeoutMillisec).Accounts (fun k => s.storage.resident k) s.log
  past : ∀ k x, s.storage.resident k = some x → x.putMillis ≤ steadyMillis s.clock
  /-- A block that was taken in would be again. -/
  fits : ∀ k x, s.storage.resident k = some x → ¬ s.storage.Refuses k.fname (charge lengthOf capacityOf k.blkSize)

variable {lengthOf capacityOf} {s : StorageRun} {storage : DataCacheStorage}

/-- A step that only loses blocks, logged as `ev`. -/
theorem StorageRun.OK.lose (h : s.OK lengthOf capacityOf timeoutMillisec) (hl : s.storage.Loses storage)
    {clock : Nat} (hc : s.clock ≤ clock) {pins : List (Nat × PageAlignedDataChunk)} {ev : CacheEvent}
    (hends : ∀ k x, storage.resident k = some x → ¬ (cacheReading timeoutMillisec).ends ev k)
    (hanswer : ∀ k P, (cacheReading timeoutMillisec).answers ev = some (k, P) →
      ∃ x, s.storage.resident k = some x ∧ P x) :
    StorageRun.OK lengthOf capacityOf timeoutMillisec { storage, clock, pins, log := s.log ++ [ev] } :=
  { ok := hl.ok
    timeout := hl.timeout.trans h.timeout
    accounts := h.accounts.step ⟨fun k x hx => .inr ⟨hl.held k x hx, hends k x hx⟩, hanswer⟩
    past := fun k x hx => (h.past k x (hl.held k x hx)).trans (steadyMillis_mono hc)
    fits := fun k x hx hr => h.fits k x (hl.held k x hx) (hl.refuses _ _ hr) }

theorem StorageRun.OK.loseSilently (h : s.OK lengthOf capacityOf timeoutMillisec)
    (hl : s.storage.Loses storage) {pins : List (Nat × PageAlignedDataChunk)} :
    StorageRun.OK lengthOf capacityOf timeoutMillisec { s with storage, pins } :=
  { ok := hl.ok
    timeout := hl.timeout.trans h.timeout
    accounts := h.accounts.lose hl.held
    past := fun k x hx => h.past k x (hl.held k x hx)
    fits := fun k x hx hr => h.fits k x (hl.held k x hx) (hl.refuses _ _ hr) }

theorem StorageRun.OK.put (h : s.OK lengthOf capacityOf timeoutMillisec) {now : Nat} {evicted : List String}
    {key : InMemCacheBlock} {chunk : PageAlignedDataChunk} {tag : String}
    (hshape : (StorageAct.put now evicted key chunk tag).Shaped lengthOf capacityOf) (hc : s.clock ≤ now)
    (hp : s.storage.put now evicted key chunk tag = .ok storage) :
    StorageRun.OK lengthOf capacityOf timeoutMillisec
      { s with storage, clock := now, log := s.log ++ [.put now key chunk tag] } := by
  obtain ⟨hok, ht, href, hres⟩ := DataCacheStorage.put_spec h.ok hp
  have hcharge : chargedBytes chunk = charge lengthOf capacityOf key.blkSize := by
    rw [chargedBytes, charge, hshape.1, hshape.2]
  refine ⟨hok, ht.trans h.timeout, h.accounts.step ⟨fun k x hx => ?_, fun k P hP => by cases hP⟩,
    fun k x hx => ?_,
    fun k x hx hr => ?_⟩
  · rcases hres k x hx with ⟨rfl, rfl, _⟩ | ⟨hold, hk⟩
    · exact .inl rfl
    · refine .inr ⟨hold, fun he => ?_⟩
      obtain rfl : key = k := he
      exact h.fits key x hold (hcharge ▸ hk rfl)
  · rcases hres k x hx with ⟨_, rfl, _⟩ | ⟨hold, _⟩
    · exact Nat.le_refl _
    · exact (h.past k x hold).trans (steadyMillis_mono hc)
  · rcases hres k x hx with ⟨rfl, _, hn⟩ | ⟨hold, _⟩
    · exact hn (hcharge ▸ href _ _ hr)
    · exact h.fits k x hold (href _ _ hr)

theorem storageStep_ok {s' : StorageRun} {a : StorageAct} (h : s.OK lengthOf capacityOf timeoutMillisec)
    (hshape : a.Shaped lengthOf capacityOf) (hs : storageStep s a = some s') :
    s'.OK lengthOf capacityOf timeoutMillisec := by
  have hnone : ∀ {st : DataCacheStorage} {k x} {P : Prop}, st.resident k = none → st.resident k = some x → P := by
    intro st k x P hn hx
    rw [hn] at hx
    cases hx
  cases a with
  | put now evicted key chunk tag =>
    simp only [storageStep] at hs
    split at hs
    next hc =>
      split at hs
      next hp =>
        cases hs
        exact h.put hshape hc.1 hp
      next => cases hs
    next => cases hs
  | get now key tag =>
    simp only [storageStep] at hs
    split at hs
    next hc =>
      obtain ⟨hl, hr⟩ := DataCacheStorage.get_spec h.ok now key tag
      split at hs
      next storage hg =>
        cases hs
        rw [hg] at hl hr
        refine h.lose hl hc.1 (fun k x hx he => ?_) fun k P hP => by cases hP
        obtain rfl : key = k := he
        exact hnone hr hx
      next p storage hg =>
        cases hs
        rw [hg] at hl hr
        obtain ⟨x, hx, hd, hserves⟩ := hr
        refine h.lose hl hc.1 (fun k x hx he => he.elim) fun k P hP => ?_
        simp only [cacheReading, Option.some.injEq, Prod.mk.injEq] at hP
        obtain ⟨rfl, rfl⟩ := hP
        have hpast := (h.past key x hx).trans (steadyMillis_mono hc.1)
        exact ⟨x, hx, by rw [DataCacheStorage.pinnedData, hd]; rfl, h.timeout ▸ hserves hc.2 hpast⟩
    next => cases hs
  | delete key =>
    cases hs
    obtain ⟨hl, hn⟩ := DataCacheStorage.delete_spec h.ok key
    refine h.lose hl (Nat.le_refl _) (fun k x hx he => ?_) fun k P hP => by cases hP
    obtain rfl : key = k := he
    exact hnone hn hx
  | clear =>
    cases hs
    obtain ⟨hl, hn⟩ := DataCacheStorage.clear_spec h.ok
    exact h.lose hl (Nat.le_refl _) (fun k x hx => hnone (hn k) hx) fun k P hP => by cases hP
  | clearFile hash fname =>
    cases hs
    obtain ⟨hl, hn⟩ := DataCacheStorage.clearFile_spec h.ok hash fname
    exact h.lose hl (Nat.le_refl _) (fun k x hx he => hnone (hn k he) hx) fun k P hP => by cases hP
  | take clock hash =>
    obtain ⟨taken, storage, htake, hl, hn, _⟩ := DataCacheStorage.take_spec h.ok clock hash
    simp only [storageStep, htake] at hs
    cases hs
    exact h.lose hl (Nat.le_refl _) (fun k x hx => hnone (hn k) hx) fun k P hP => by cases hP
  | evict objCacheKey =>
    cases hs
    exact h.loseSilently (DataCacheStorage.evict_spec h.ok objCacheKey)
  | release i =>
    obtain ⟨pin, _, rfl⟩ := Option.map_eq_some_iff.mp hs
    exact h.loseSilently (DataCacheStorage.release_spec h.ok pin.1)

end Invariant

/-- **Each backend is a lossy map.** Whatever backend is built, with
whatever limits, and whatever run of operations follows, the log meets the
contract. -/
theorem storage_lossy_contract (mode : StorageMode) (maxEntries timeoutMillisec : Nat)
    (policyOptions : PolicyStorageOptions) (storage : DataCacheStorage)
    (hbuild : buildInMemoryDataCacheStorage mode maxEntries timeoutMillisec policyOptions = .ok storage)
    (lengthOf capacityOf : Nat → Nat) (as : List StorageAct) (hshape : ∀ a ∈ as, a.Shaped lengthOf capacityOf)
    (s : StorageRun) (hx : exec storageStep { storage } as = some s) : LossyContract timeoutMillisec s.log := by
  obtain ⟨hok, hn, ht⟩ := DataCacheStorage.build_spec hbuild
  have hnone : ∀ {k x} {P : Prop}, storage.resident k = some x → P := by
    intro k x P hx
    rw [hn k] at hx
    cases hx
  have h₀ : StorageRun.OK lengthOf capacityOf timeoutMillisec { storage } :=
    ⟨hok, ht, .nil hn, fun _ _ => hnone, fun _ _ => hnone⟩
  have h : s.OK lengthOf capacityOf timeoutMillisec :=
    exec_guarded_invariant (G := fun _ a => a.Shaped lengthOf capacityOf)
      (fun _ _ _ h hg hs => storageStep_ok h hg hs)
      (Guarded.of_forall hshape) hx h₀
  exact .of_accounts h.accounts

/-- A block found, found stale under another tag, and no longer found. -/
def contractActs : List StorageAct :=
  [.put 0 [] ⟨"f", 0, 2⟩ ⟨some [1, 2], 2, 4⟩ "v1", .get 1 ⟨"f", 0, 2⟩ "v1", .get 2 ⟨"f", 0, 2⟩ "v2",
    .get 3 ⟨"f", 0, 2⟩ "v1"]

theorem storage_lossy_contract_object :
    ∃ storage s, buildInMemoryDataCacheStorage .object 0 10 ⟨0, .lru, []⟩ = .ok storage ∧
      exec storageStep { storage } contractActs = some s ∧
      s.log = [.put 0 ⟨"f", 0, 2⟩ ⟨some [1, 2], 2, 4⟩ "v1", .get 1 ⟨"f", 0, 2⟩ "v1" (some ⟨some [1, 2], 2, 4⟩),
        .get 2 ⟨"f", 0, 2⟩ "v2" none, .get 3 ⟨"f", 0, 2⟩ "v1" none] ∧ LossyContract 10 s.log := by
  obtain ⟨storage, hbuild, hrun⟩ : ∃ storage, buildInMemoryDataCacheStorage .object 0 10 ⟨0, .lru, []⟩ =
    .ok storage ∧
      (exec storageStep { storage } contractActs).map (·.log) =
        some [.put 0 ⟨"f", 0, 2⟩ ⟨some [1, 2], 2, 4⟩ "v1", .get 1 ⟨"f", 0, 2⟩ "v1" (some ⟨some [1, 2], 2, 4⟩),
          .get 2 ⟨"f", 0, 2⟩ "v2" none, .get 3 ⟨"f", 0, 2⟩ "v1" none] :=
    ⟨_, rfl, by decide +kernel⟩
  obtain ⟨s, hs, hlog⟩ := Option.map_eq_some_iff.mp hrun
  refine ⟨storage, s, hbuild, hs, hlog, ?_⟩
  refine storage_lossy_contract .object 0 10 _ storage hbuild (fun n => n) (fun _ => 4) contractActs ?_ s hs
  simp [contractActs, StorageAct.Shaped]

end ReadCacheFs
