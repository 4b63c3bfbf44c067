/-
The metadata and glob caches of `CacheFileSystem` over a remote that changes
with time.

`Stats`, `GetFileSize` and `GetLastModifiedTime` go through one cache, whose
factory calls `Stats` of the internal filesystem and, where that throws, its
`GetFileSize` and then its `GetLastModifiedTime`. The factory of `Glob` puts
what the listing says of each file into the metadata cache, one entry after
another, before its own result is cached. The machine takes one of these
operations at a time, whatever the calls.
-/
import ReadCacheFs.Basic
import ReadCacheFs.FlightTimes

namespace ReadCacheFs

open Lib

structure FileMetadata where
  fileSize : Int
  lastModificationTime : Int
  deriving DecidableEq, Repr

structure OpenFileInfo where
  path : String
  /-- `extended_info->options`. -/
  extendedInfo : Option (List (String × Int)) := none
  deriving DecidableEq, Repr

def fileSizeInfoKey : String := "file_size"

def lastModTimestampKey : String := "last_modified"

/-- What a listing says of a file, where it says both. -/
def OpenFileInfo.metadata (info : OpenFileInfo) : Option FileMetadata := do
  let options ← info.extendedInfo
  let fileSize ← options.lookup fileSizeInfoKey
  let lastModificationTime ← options.lookup lastModTimestampKey
  return { fileSize, lastModificationTime }

/-- The internal filesystem, by the time of the clock. -/
structure RemoteFiles where
  files : Nat → String → FileMetadata
  listing : Nat → String → List OpenFileInfo

/-- A listing says of a file what the file itself does. -/
def RemoteFiles.Exact (remote : RemoteFiles) : Prop :=
  ∀ t pattern, ∀ info ∈ remote.listing t pattern, ∀ m, info.metadata = some m → m = remote.files t info.path

/-! ## The machine -/

/-- A running factory of the metadata cache, before its next operation. -/
inductive StatPc
  | stats
  /-- `GetMetadataFallback`. -/
  | fileSize
  | lastModifiedTime (fileSize : Int)
  deriving DecidableEq, Repr

structure MetadataState where
  clock : Nat := 0
  metadataCache : TimedFlight String FileMetadata Fault
  globCache : TimedFlight String (List OpenFileInfo) Fault
  /-- By the call whose factory it is. -/
  stats : Nat → StatPc := fun _ => .stats
  /-- What a running `GlobImpl` has listed, and the files it has not looked at. -/
  globs : Nat → Option (List OpenFileInfo × List OpenFileInfo) := fun _ => none

/-- A critical section of `GetOrCreate`. -/
inductive FlightSection
  | enter (i : Nat)
  | finish (i : Nat)
  | wake (i : Nat)

def FlightSection.act {K V E : Type} : FlightSection → TimedAct K V E
  | .enter i => .enter i
  | .finish i => .finish i
  | .wake i => .wake i

inductive MetadataAct
  /-- `Stats`, `GetFileSize` or `GetLastModifiedTime`, of a handle on the path. -/
  | stats (path : String)
  /-- `Glob`, of a path with a glob expression. -/
  | glob (path : String)
  | metadataSection (a : FlightSection)
  | globSection (a : FlightSection)
  /-- An operation of the internal filesystem, for the call whose factory runs. It may throw. -/
  | internalStats (i : Nat) (throws : Bool)
  | internalFileSize (i : Nat) (throws : Option Fault)
  | internalLastModifiedTime (i : Nat) (throws : Option Fault)
  | internalGlob (i : Nat) (throws : Option Fault)
  | fill (i : Nat)
  | globReturns (i : Nat)
  /-- The parts of `ClearCache()`. -/
  | clearMetadata
  | clearGlobs
  /-- The parts of `ClearCache(filepath)`. -/
  | clearMetadataOf (filepath : String)
  | clearGlobsOf (filepath : String)

namespace TimedFlight

variable {K V E : Type} [Ord K]

def creatingKey (s : TimedFlight K V E) (i : Nat) : Option K :=
  (s.flight.calls[i]?).bind fun c => match c.pc with
    | .creating _ => some c.key
    | _ => none

def Returned (s : TimedFlight K V E) (i : Nat) (key : K) (value : V) : Prop :=
  ∃ c token, s.flight.calls[i]? = some c ∧ c.key = key ∧ c.pc = .done token (.ok value)

variable {s : TimedFlight K V E} {i : Nat} {key key' : K} {entered entered' : Nat}

theorem begun_of_creatingKey (h : s.creatingKey i = some key) : s.Begun i key (s.enteredAt i) := by
  obtain ⟨c, hc, h⟩ := Option.bind_eq_some_iff.mp h
  split at h
  next t hpc =>
    cases h
    exact ⟨⟨c, hc, rfl, by simp [hpc]⟩, rfl⟩
  next => cases h

theorem creatingKey_eq (h : s.creatingKey i = some key) {c : CreateCall K V E}
    (hc : s.flight.calls[i]? = some c) :
    c.key = key := by
  obtain ⟨⟨c', hc', hkey, _⟩, _⟩ := begun_of_creatingKey h
  obtain rfl := Option.some.inj (hc.symm.trans hc')
  exact hkey

theorem Begun.unique (h : s.Begun i key entered) (h' : s.Begun i key' entered') :
    key = key' ∧ entered = entered' := by
  obtain ⟨⟨c, hc, hkey, _⟩, htime⟩ := h
  obtain ⟨⟨c', hc', hkey', _⟩, htime'⟩ := h'
  obtain rfl := Option.some.inj (hc.symm.trans hc')
  exact ⟨hkey.symm.trans hkey', htime.symm.trans htime'⟩

end TimedFlight

namespace MetadataState

open TimedFlight

variable (remote : RemoteFiles)

def stepMetadata (s : MetadataState) (a : TimedAct String FileMetadata Fault) : Option MetadataState :=
  (s.metadataCache.step s.clock a).map fun metadataCache => { s with metadataCache }

def stepGlobs (s : MetadataState) (a : TimedAct String (List OpenFileInfo) Fault) : Option MetadataState :=
  (s.globCache.step s.clock a).map fun globCache => { s with globCache }

def setStats (s : MetadataState) (i : Nat) (pc : StatPc) : MetadataState :=
  { s with stats := Function.update s.stats i pc }

def setGlobs (s : MetadataState) (i : Nat) (listing rest : List OpenFileInfo) : MetadataState :=
  { s with globs := Function.update s.globs i (some (listing, rest)) }

def internalStats (i : Nat) (throws : Bool) (s : MetadataState) : Option MetadataState :=
  (s.metadataCache.creatingKey i).bind fun path => match s.stats i with
    | .stats =>
      if throws then some (s.setStats i .fileSize)
      else s.stepMetadata (.factory i (.ok (remote.files s.clock path)))
    | _ => none

def internalFileSize (i : Nat) (throws : Option Fault) (s : MetadataState) : Option MetadataState :=
  (s.metadataCache.creatingKey i).bind fun path => match s.stats i, throws with
    | .fileSize, some e => s.stepMetadata (.factory i (.error e))
    | .fileSize, none => some (s.setStats i (.lastModifiedTime (remote.files s.clock path).fileSize))
    | _, _ => none

def internalLastModifiedTime (i : Nat) (throws : Option Fault) (s : MetadataState) : Option MetadataState :=
  (s.metadataCache.creatingKey i).bind fun path => match s.stats i, throws with
    | .lastModifiedTime _, some e => s.stepMetadata (.factory i (.error e))
    | .lastModifiedTime fileSize, none =>
      let lastModificationTime := (remote.files s.clock path).lastModificationTime
      s.stepMetadata (.factory i (.ok { fileSize, lastModificationTime }))
    | _, _ => none

def internalGlob (i : Nat) (throws : Option Fault) (s : MetadataState) : Option MetadataState :=
  (s.globCache.creatingKey i).bind fun path => match s.globs i, throws with
    | none, some e => s.stepGlobs (.factory i (.error e))
    | none, none => some (s.setGlobs i (remote.listing s.clock path) (remote.listing s.clock path))
    | some _, _ => none

def fill (i : Nat) (s : MetadataState) : Option MetadataState :=
  (s.globCache.creatingKey i).bind fun _ => match s.globs i with
    | some (listing, info :: rest) => match info.metadata with
      | none => some (s.setGlobs i listing rest)
      | some m => (s.setGlobs i listing rest).stepMetadata (.put info.path m)
    | _ => none

def globReturns (i : Nat) (s : MetadataState) : Option MetadataState :=
  (s.globCache.creatingKey i).bind fun _ => match s.globs i with
    | some (listing, []) => s.stepGlobs (.factory i (.ok listing))
    | _ => none

/-- One operation, at the time of the clock. -/
def stepNow (s : MetadataState) : MetadataAct → Option MetadataState
  | .stats path => s.stepMetadata (.call path)
  | .glob path => s.stepGlobs (.call path)
  | .metadataSection a => s.stepMetadata a.act
  | .globSection a => s.stepGlobs a.act
  | .internalStats i throws => s.internalStats remote i throws
  | .internalFileSize i throws => s.internalFileSize remote i throws
  | .internalLastModifiedTime i throws => s.internalLastModifiedTime remote i throws
  | .internalGlob i throws => s.internalGlob remote i throws
  | .fill i => s.fill i
  | .globReturns i => s.globReturns i
  | .clearMetadata => s.stepMetadata .clear
  | .clearGlobs => s.stepGlobs .clear
  | .clearMetadataOf filepath => s.stepMetadata (.clearFrom filepath (· == filepath))
  | .clearGlobsOf filepath => s.stepGlobs (.clearFrom filepath (· == filepath))

/-- One operation, at a time not before the last one's. -/
def step (s : MetadataState) (a : Nat × MetadataAct) : Option MetadataState :=
  if s.clock ≤ a.1 ∧ a.1 < 2 ^ 64 then stepNow remote { s with clock := a.1 } a.2 else none

/-! ## What is returned is recent -/

/-- How long factories, those that wait for one, and the entries of the two caches may last. -/
structure Delays where
  creation : Nat
  waiting : Nat
  metadataTimeout : Nat
  globTimeout : Nat

/-- The file's size and modification time, since a time; of one moment unless a `Stats` has thrown. -/
def MetadataSource (Threw : Prop) (clock : Nat) (path : String) (m : FileMetadata) (since : Nat) : Prop :=
  ∃ t₁ t₂, since ≤ t₁ ∧ t₁ ≤ t₂ ∧ t₂ ≤ clock ∧ m.fileSize = (remote.files t₁ path).fileSize ∧
    m.lastModificationTime = (remote.files t₂ path).lastModificationTime ∧ (t₁ = t₂ ∨ Threw)

def ListingSource (clock : Nat) (path : String) (listing : List OpenFileInfo) (since : Nat) : Prop :=
  ∃ t, since ≤ t ∧ t ≤ clock ∧ listing = remote.listing t path

/-- A factory takes no longer than `creation`, those that wait for one no
longer than `waiting` after its end. -/
def Prompt (delays : Delays) (s : MetadataState) (a : Nat × MetadataAct) : Prop :=
  match a.2 with
  | .metadataSection act => s.metadataCache.Prompt delays.creation delays.waiting a.1 act.act
  | .globSection act => s.globCache.Prompt delays.creation delays.waiting a.1 act.act
  | .fill i => a.1 ≤ s.globCache.enteredAt i + delays.creation
  | _ => True

instance (delays : Delays) (s : MetadataState) (a : Nat × MetadataAct) : Decidable (s.Prompt delays a) :=
  match a with
  | (_, .metadataSection _) | (_, .globSection _) => inferInstanceAs (Decidable (TimedFlight.Prompt ..))
  | (_, .fill _) => inferInstanceAs (Decidable (_ ≤ _))
  | (_, .stats _) | (_, .glob _) | (_, .internalStats ..) | (_, .internalFileSize ..) | (_, .internalLastModifiedTime ..)
  | (_, .internalGlob ..) | (_, .globReturns _) | (_, .clearMetadata) | (_, .clearGlobs) | (_, .clearMetadataOf _)
  | (_, .clearGlobsOf _) => .isTrue trivial

variable (Threw : Prop) (delays : Delays)

/-- What a factory of the metadata cache has from the internal filesystem. -/
def StatRecent (metadataCache : TimedFlight String FileMetadata Fault) (clock i : Nat) : StatPc → Prop
  | .stats => True
  | .fileSize => Threw
  | .lastModifiedTime fileSize => Threw ∧ ∃ path entered t, metadataCache.Begun i path entered ∧ entered ≤ t ∧
      t ≤ clock ∧ fileSize = (remote.files t path).fileSize

/-- What a factory of the glob cache has listed. -/
def ListingRecent (globCache : TimedFlight String (List OpenFileInfo) Fault) (clock i : Nat)
    (listing : List OpenFileInfo) :
    Prop :=
  ∃ path entered t, globCache.Begun i path entered ∧ entered ≤ t ∧ t ≤ clock ∧ listing = remote.listing t path

structure Recent (s : MetadataState) : Prop where
  metadata : s.metadataCache.Recent (MetadataSource remote Threw s.clock) delays.creation delays.waiting
    delays.metadataTimeout s.clock
  globs : s.globCache.Recent (ListingSource remote s.clock) delays.creation delays.waiting delays.globTimeout s.clock
  stats : ∀ i, StatRecent remote Threw s.metadataCache s.clock i (s.stats i)
  listings : ∀ i listing rest, s.globs i = some (listing, rest) →
    ListingRecent remote s.globCache s.clock i listing ∧ rest ⊆ listing

variable {remote : RemoteFiles} {Threw : Prop} {delays : Delays} {i : Nat} {s s' : MetadataState}

theorem MetadataSource.anti {clock since since' : Nat} {path : String} {m : FileMetadata} (hle : since' ≤ since)
    (h : MetadataSource remote Threw clock path m since) : MetadataSource remote Threw clock path m since' := by
  obtain ⟨t₁, t₂, hsince, hrest⟩ := h
  exact ⟨t₁, t₂, hle.trans hsince, hrest⟩

theorem ListingSource.anti {clock since since' : Nat} {path : String} {listing : List OpenFileInfo}
    (hle : since' ≤ since) (h : ListingSource remote clock path listing since) :
    ListingSource remote clock path listing since' := by
  obtain ⟨t, hsince, hrest⟩ := h
  exact ⟨t, hle.trans hsince, hrest⟩

theorem Recent.tick (h : s.Recent remote Threw delays) {now : Nat} (hle : s.clock ≤ now) :
    Recent remote Threw delays { s with clock := now } := by
  refine ⟨(h.metadata.imp ?_).mono hle, (h.globs.imp ?_).mono hle, fun i => ?_, fun i listing rest hi => ?_⟩
  · rintro path m since ⟨t₁, t₂, hsince, h12, hclock, hrest⟩
    exact ⟨t₁, t₂, hsince, h12, hclock.trans hle, hrest⟩
  · rintro path listing since ⟨t, hsince, hclock, heq⟩
    exact ⟨t, hsince, hclock.trans hle, heq⟩
  · have hi := h.stats i
    dsimp only
    unfold StatRecent at hi ⊢
    split at hi
    · trivial
    · exact hi
    · obtain ⟨hthrew, path, entered, t, hbegun, het, hclock, heq⟩ := hi
      exact ⟨hthrew, path, entered, t, hbegun, het, hclock.trans hle, heq⟩
  · obtain ⟨⟨path, entered, t, hbegun, het, hclock, heq⟩, hrest⟩ := h.listings i listing rest hi
    exact ⟨⟨path, entered, t, hbegun, het, hclock.trans hle, heq⟩, hrest⟩

theorem Recent.stepMetadata (h : s.Recent remote Threw delays) (hlt : s.clock < 2 ^ 64)
    (hpos : 0 < delays.metadataTimeout) {a : TimedAct String FileMetadata Fault} (hs : s.stepMetadata a = some s')
    (hprompt : s.metadataCache.Prompt delays.creation delays.waiting s.clock a)
    (hsource : s.metadataCache.Sourced (MetadataSource remote Threw s.clock) delays.creation s.clock a) :
    s'.Recent remote Threw delays := by
  obtain ⟨metadataCache, hstep, rfl⟩ := Option.map_eq_some_iff.mp hs
  refine ⟨h.metadata.step (fun _ _ _ _ hle => .anti hle) hlt hpos hprompt hsource hstep, h.globs, fun i => ?_,
    h.listings⟩
  have hi := h.stats i
  dsimp only
  unfold StatRecent at hi ⊢
  split at hi
  · trivial
  · exact hi
  · obtain ⟨hthrew, path, entered, t, hbegun, hrest⟩ := hi
    exact ⟨hthrew, path, entered, t, hbegun.step hstep, hrest⟩

theorem Recent.stepGlobs (h : s.Recent remote Threw delays) (hlt : s.clock < 2 ^ 64)
    (hpos : 0 < delays.globTimeout) {a : TimedAct String (List OpenFileInfo) Fault} (hs : s.stepGlobs a = some s')
    (hprompt : s.globCache.Prompt delays.creation delays.waiting s.clock a)
    (hsource : s.globCache.Sourced (ListingSource remote s.clock) delays.creation s.clock a) :
    s'.Recent remote Threw delays := by
  obtain ⟨globCache, hstep, rfl⟩ := Option.map_eq_some_iff.mp hs
  have hglobs := h.globs.step (fun _ _ _ _ hle => .anti hle) hlt hpos hprompt hsource hstep
  refine ⟨h.metadata, hglobs, h.stats, fun i listing rest hi => ?_⟩
  obtain ⟨⟨path, entered, t, hbegun, hrest⟩, hsub⟩ := h.listings i listing rest hi
  exact ⟨⟨path, entered, t, hbegun.step hstep, hrest⟩, hsub⟩

theorem Recent.setStats (h : s.Recent remote Threw delays) {pc : StatPc}
    (hpc : StatRecent remote Threw s.metadataCache s.clock i pc) :
    (s.setStats i pc).Recent remote Threw delays := by
  refine ⟨h.metadata, h.globs, fun j => ?_, h.listings⟩
  by_cases hj : j = i
  · subst hj
    simpa [MetadataState.setStats] using hpc
  · simpa [MetadataState.setStats, hj] using h.stats j

theorem Recent.setGlobs (h : s.Recent remote Threw delays) {listing rest : List OpenFileInfo}
    (hlisting : ListingRecent remote s.globCache s.clock i listing) (hsub : rest ⊆ listing) :
    (s.setGlobs i listing rest).Recent remote Threw delays := by
  refine ⟨h.metadata, h.globs, h.stats, fun j listing' rest' hj => ?_⟩
  by_cases hji : j = i
  · subst hji
    simp only [MetadataState.setGlobs, Function.update_self, Option.some.injEq, Prod.mk.injEq] at hj
    obtain ⟨rfl, rfl⟩ := hj
    exact ⟨hlisting, hsub⟩
  · exact h.listings j listing' rest' (by simpa [MetadataState.setGlobs, hji] using hj)

/-! ## The operations of the internal filesystem -/

theorem Recent.internalStats (h : s.Recent remote Threw delays) (hlt : s.clock < 2 ^ 64)
    (hpos : 0 < delays.metadataTimeout) {throws : Bool} (hthrew : throws = true → Threw)
    (hs : s.internalStats remote i throws = some s') :
    s'.Recent remote Threw delays := by
  obtain ⟨path, hpath, hs⟩ := Option.bind_eq_some_iff.mp hs
  split at hs
  · split at hs
    next ht =>
      cases hs
      exact h.setStats (hthrew ht)
    next =>
      refine h.stepMetadata hlt hpos hs trivial fun c v hc hv => ?_
      cases hv
      rw [creatingKey_eq hpath hc]
      exact ⟨s.clock, s.clock, h.metadata.entered i, le_refl _, le_refl _, rfl, rfl, .inl rfl⟩
  · cases hs

theorem Recent.internalFileSize (h : s.Recent remote Threw delays) (hlt : s.clock < 2 ^ 64)
    (hpos : 0 < delays.metadataTimeout) {throws : Option Fault}
    (hs : s.internalFileSize remote i throws = some s') :
    s'.Recent remote Threw delays := by
  obtain ⟨path, hpath, hs⟩ := Option.bind_eq_some_iff.mp hs
  have hpc := h.stats i
  split at hs
  next => exact h.stepMetadata hlt hpos hs trivial fun _ _ _ hv => by cases hv
  next hi _ =>
    cases hs
    rw [hi] at hpc
    exact h.setStats ⟨hpc, path, _, s.clock, begun_of_creatingKey hpath, h.metadata.entered i, le_refl _, rfl⟩
  next => cases hs

theorem Recent.internalLastModifiedTime (h : s.Recent remote Threw delays)
    (hlt : s.clock < 2 ^ 64) (hpos : 0 < delays.metadataTimeout) {throws : Option Fault}
    (hs : s.internalLastModifiedTime remote i throws = some s') :
    s'.Recent remote Threw delays := by
  obtain ⟨path, hpath, hs⟩ := Option.bind_eq_some_iff.mp hs
  have hpc := h.stats i
  split at hs
  next => exact h.stepMetadata hlt hpos hs trivial fun _ _ _ hv => by cases hv
  next fileSize hi _ =>
    rw [hi] at hpc
    obtain ⟨hthrew, path', entered, t, hbegun, het, hclock, rfl⟩ := hpc
    obtain ⟨rfl, rfl⟩ := hbegun.unique (begun_of_creatingKey hpath)
    refine h.stepMetadata hlt hpos hs trivial fun c v hc hv => ?_
    cases hv
    rw [creatingKey_eq hpath hc]
    exact ⟨t, s.clock, het, hclock, le_refl _, rfl, rfl, .inr hthrew⟩
  next => cases hs

theorem Recent.internalGlob (h : s.Recent remote Threw delays) (hlt : s.clock < 2 ^ 64)
    (hpos : 0 < delays.globTimeout) {throws : Option Fault} (hs : s.internalGlob remote i throws = some s') :
    s'.Recent remote Threw delays := by
  obtain ⟨path, hpath, hs⟩ := Option.bind_eq_some_iff.mp hs
  split at hs
  · exact h.stepGlobs hlt hpos hs trivial fun _ _ _ hv => by cases hv
  · cases hs
    exact h.setGlobs ⟨path, _, s.clock, begun_of_creatingKey hpath, h.globs.entered i, le_refl _, rfl⟩
      (List.Subset.refl _)
  · cases hs

theorem Recent.fill (hexact : remote.Exact) (h : s.Recent remote Threw delays) (hlt : s.clock < 2 ^ 64)
    (hpos : 0 < delays.metadataTimeout) (hprompt : s.clock ≤ s.globCache.enteredAt i + delays.creation)
    (hs : s.fill i = some s') : s'.Recent remote Threw delays := by
  obtain ⟨path, hpath, hs⟩ := Option.bind_eq_some_iff.mp hs
  split at hs
  next listing info rest hi =>
    obtain ⟨hlisting, hsub⟩ := h.listings i listing (info :: rest) hi
    have hset := h.setGlobs hlisting fun x hx => hsub (List.mem_cons_of_mem info hx)
    split at hs
    · cases hs
      exact hset
    next m hm =>
      refine hset.stepMetadata hlt hpos hs trivial ?_
      obtain ⟨path', entered, t, hbegun, het, hclock, rfl⟩ := hlisting
      obtain ⟨_, rfl⟩ := hbegun.unique (begun_of_creatingKey hpath)
      obtain rfl := hexact t path' info (hsub List.mem_cons_self) m hm
      exact ⟨t, t, by change s.clock - delays.creation ≤ t; omega, le_refl _, hclock, rfl, rfl, .inl rfl⟩
  next => cases hs

theorem Recent.globReturns (h : s.Recent remote Threw delays) (hlt : s.clock < 2 ^ 64)
    (hpos : 0 < delays.globTimeout) (hs : s.globReturns i = some s') :
    s'.Recent remote Threw delays := by
  obtain ⟨path, hpath, hs⟩ := Option.bind_eq_some_iff.mp hs
  split at hs
  next listing hi =>
    obtain ⟨⟨path', entered, t, hbegun, het, hclock, rfl⟩, _⟩ := h.listings i listing [] hi
    obtain ⟨rfl, rfl⟩ := hbegun.unique (begun_of_creatingKey hpath)
    refine h.stepGlobs hlt hpos hs trivial fun c v hc hv => ?_
    cases hv
    rw [creatingKey_eq hpath hc]
    exact ⟨t, het, hclock, rfl⟩
  next => cases hs

theorem Recent.step (hexact : remote.Exact) (hm : 0 < delays.metadataTimeout) (hg : 0 < delays.globTimeout)
    (h : s.Recent remote Threw delays) {a : Nat × MetadataAct} (hprompt : s.Prompt delays a)
    (hthrew : ∀ i, a.2 = .internalStats i true → Threw) (hs : s.step remote a = some s') :
    s'.Recent remote Threw delays := by
  obtain ⟨now, act⟩ := a
  unfold MetadataState.step at hs
  split at hs
  next hnow =>
    have ht := h.tick hnow.1
    cases act with
    | stats path => exact ht.stepMetadata hnow.2 hm hs trivial trivial
    | glob path => exact ht.stepGlobs hnow.2 hg hs trivial trivial
    | metadataSection a =>
      refine ht.stepMetadata hnow.2 hm hs hprompt ?_
      cases a <;> trivial
    | globSection a =>
      refine ht.stepGlobs hnow.2 hg hs hprompt ?_
      cases a <;> trivial
    | internalStats i throws => exact ht.internalStats hnow.2 hm (fun hthrows => hthrew i (hthrows ▸ rfl)) hs
    | internalFileSize i throws => exact ht.internalFileSize hnow.2 hm hs
    | internalLastModifiedTime i throws => exact ht.internalLastModifiedTime hnow.2 hm hs
    | internalGlob i throws => exact ht.internalGlob hnow.2 hg hs
    | fill i => exact ht.fill hexact hnow.2 hm hprompt hs
    | globReturns i => exact ht.globReturns hnow.2 hg hs
    | clearMetadata | clearMetadataOf => exact ht.stepMetadata hnow.2 hm hs trivial trivial
    | clearGlobs | clearGlobsOf => exact ht.stepGlobs hnow.2 hg hs trivial trivial
  next => cases hs

def start (maxMetadataEntries maxGlobEntries : Nat) (delays : Delays) : MetadataState :=
  { metadataCache.flight.internalCache := { maxEntries := maxMetadataEntries, timeoutMillisec := delays.metadataTimeout }
    globCache.flight.internalCache := { maxEntries := maxGlobEntries, timeoutMillisec := delays.globTimeout } }

theorem Recent.start (maxMetadataEntries maxGlobEntries : Nat) :
    (start maxMetadataEntries maxGlobEntries delays).Recent remote Threw delays :=
  ⟨.init .., .init .., fun _ => trivial, fun _ _ _ hi => by cases hi⟩

end MetadataState

open MetadataState

/-- **What the metadata and glob caches return is recent**: it is the remote's
of a moment no longer before the call looked into the cache than a creation
and the longer of the timeout and the wait for others to leave. Size and
modification time are of one moment unless a `Stats` of the internal
filesystem has thrown. -/
theorem metadata_recent (remote : RemoteFiles) (hexact : remote.Exact) (delays : Delays)
    (hm : 0 < delays.metadataTimeout) (hg : 0 < delays.globTimeout)
    (maxMetadataEntries maxGlobEntries : Nat) (as : List (Nat × MetadataAct))
    (hprompt : Guarded (MetadataState.step remote) (Prompt delays)
      (start maxMetadataEntries maxGlobEntries delays) as)
    (s : MetadataState)
    (hrun : exec (MetadataState.step remote) (start maxMetadataEntries maxGlobEntries delays) as = some s) :
    (∀ i path m, s.metadataCache.Returned i path m → ∃ t₁ t₂, t₁ ≤ t₂ ∧ t₂ ≤ s.clock ∧
      s.metadataCache.enteredAt i ≤ t₁ + delays.creation + max delays.metadataTimeout delays.waiting ∧
      m.fileSize = (remote.files t₁ path).fileSize ∧
      m.lastModificationTime = (remote.files t₂ path).lastModificationTime ∧
      ((∀ now j, (now, .internalStats j true) ∉ as) → t₁ = t₂)) ∧
    ∀ i path listing, s.globCache.Returned i path listing → ∃ t, t ≤ s.clock ∧
      s.globCache.enteredAt i ≤ t + delays.creation + max delays.globTimeout delays.waiting ∧
      listing = remote.listing t path := by
  have hguard : Guarded (MetadataState.step remote)
      (fun s a => s.Prompt delays a ∧ ∀ i, a.2 = .internalStats i true →
        ∃ now j, (now, .internalStats j true) ∈ as)
      (start maxMetadataEntries maxGlobEntries delays) as := by
    refine Guarded.imp (fun s a ha h => ⟨h, fun i hi => ⟨a.1, i, ?_⟩⟩) hprompt
    rw [← hi]
    exact ha
  have hrecent : s.Recent remote (∃ now j, (now, .internalStats j true) ∈ as) delays :=
    exec_guarded_invariant (fun t a t' ht hg' hs => Recent.step hexact hm hg ht hg'.1 hg'.2 hs) hguard hrun
      (Recent.start ..)
  constructor
  · rintro i path m ⟨c, token, hc, rfl, hpc⟩
    obtain ⟨t₁, t₂, hsince, h12, hclock, hsize, htime, hone⟩ := hrecent.metadata.answer hc hpc
    refine ⟨t₁, t₂, h12, hclock, by omega, hsize, htime, fun hno => ?_⟩
    rcases hone with heq | ⟨now, j, hmem⟩
    · exact heq
    · exact absurd hmem (hno now j)
  · rintro i path listing ⟨c, token, hc, rfl, hpc⟩
    obtain ⟨t, hsince, hclock, heq⟩ := hrecent.globs.answer hc hpc
    exact ⟨t, hclock, by omega, heq⟩

/-- Two files, of which one changes between the two calls of a fallback. -/
def changingFiles : RemoteFiles where
  files t path := if path = "s3://b/y" ∧ 10 ≤ t then ⟨6, 200⟩ else ⟨4, 100⟩
  listing t _ := [{ path := "s3://b/x", extendedInfo := some [(fileSizeInfoKey, 4), (lastModTimestampKey, 100)] }
    , { path := "s3://b/y", extendedInfo := some [(fileSizeInfoKey, if 10 ≤ t then 6 else 4)] }]

/-- A listing fills in the first file, not the second; the second is then asked for by two calls. -/
def metadataSession : List (Nat × MetadataAct) :=
  [ (1, .glob "s3://b/*"), (1, .globSection (.enter 0)), (2, .internalGlob 0 none), (2, .fill 0), (3, .fill 0)
  , (3, .globReturns 0), (4, .globSection (.finish 0))
  , (5, .stats "s3://b/x"), (5, .metadataSection (.enter 0))
  , (8, .stats "s3://b/y"), (8, .metadataSection (.enter 1)), (8, .stats "s3://b/y"), (9, .metadataSection (.enter 2))
  , (9, .internalStats 1 true), (9, .internalFileSize 1 none), (11, .internalLastModifiedTime 1 none)
  , (12, .metadataSection (.finish 1)), (13, .metadataSection (.wake 2)), (14, .clearMetadataOf "s3://b/y") ]

theorem metadata_recent_listed :
    ∃ s, exec (MetadataState.step changingFiles) (start 2 2 ⟨5, 1, 20, 20⟩) metadataSession = some s ∧
      s.metadataCache.Returned 0 "s3://b/x" ⟨4, 100⟩ ∧ s.metadataCache.Returned 2 "s3://b/y" ⟨4, 200⟩ ∧
      ∃ t₁ t₂, t₁ ≤ t₂ ∧ s.metadataCache.enteredAt 2 ≤ t₁ + 5 + max 20 1 ∧
        (changingFiles.files t₁ "s3://b/y").fileSize = 4 ∧
        (changingFiles.files t₂ "s3://b/y").lastModificationTime = 200 := by
  have hexact : changingFiles.Exact := by
    intro t pattern info hinfo m hm
    simp only [changingFiles, List.mem_cons, List.not_mem_nil, or_false] at hinfo
    rcases hinfo with rfl | rfl
    · simpa [OpenFileInfo.metadata, List.lookup_cons, fileSizeInfoKey, lastModTimestampKey, changingFiles,
        eq_comm] using hm
    · simp [OpenFileInfo.metadata, List.lookup_cons, fileSizeInfoKey, lastModTimestampKey] at hm
  have hprompt : Guarded (MetadataState.step changingFiles) (Prompt ⟨5, 1, 20, 20⟩) (start 2 2 ⟨5, 1, 20, 20⟩)
      metadataSession := by
    decide +kernel
  have hrun : ((exec (MetadataState.step changingFiles) (start 2 2 ⟨5, 1, 20, 20⟩) metadataSession).map fun s =>
      s.metadataCache.flight.calls.map fun c => (c.key, c.pc)) =
      some [("s3://b/x", .done none (.ok ⟨4, 100⟩)), ("s3://b/y", .done (some 0) (.ok ⟨4, 200⟩)),
        ("s3://b/y", .done (some 0) (.ok ⟨4, 200⟩))] := by
    decide +kernel
  obtain ⟨s, hs, hcalls⟩ := Option.map_eq_some_iff.mp hrun
  have hreturned : ∀ (i : Nat) path m token,
      (s.metadataCache.flight.calls.map fun c => (c.key, c.pc))[i]? = some (path, .done token (.ok m)) →
      s.metadataCache.Returned i path m := by
    intro i path m token hi
    rw [List.getElem?_map] at hi
    obtain ⟨c, hc, hi⟩ := Option.map_eq_some_iff.mp hi
    exact ⟨c, token, hc, congrArg Prod.fst hi, congrArg Prod.snd hi⟩
  have hlate := hreturned 2 "s3://b/y" ⟨4, 200⟩ (some 0) (by rw [hcalls]; rfl)
  obtain ⟨t₁, t₂, hle, _, hage, hsize, htime, _⟩ :=
    (metadata_recent changingFiles hexact ⟨5, 1, 20, 20⟩ (by decide)
    (by decide) 2 2 metadataSession hprompt s hs).1 2 "s3://b/y" ⟨4, 200⟩ hlate
  exact ⟨s, hs, hreturned 0 "s3://b/x" ⟨4, 100⟩ none (by rw [hcalls]; rfl), hlate, t₁, t₂, hle, hage,
    hsize.symm, htime.symm⟩

end ReadCacheFs
