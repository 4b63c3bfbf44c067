/-
Cache files on disk, written and read by any number of threads and
processes.

`StoreLocalCacheFile` writes a file at a temporary path of its own, tags it
with its version and renames it to its destination; `ReadLocalCacheFile`
opens the destination, validates the tag and reads. The machine here takes
one filesystem operation a step. An open handle keeps to the file it
opened, attributes are looked up by path, `rename` replaces its target.

A store writes one file, so a file is named by the number of the store that
created it, and a store's temporary path by that number too (its UUID).

The open goes through the path and so does the validation, the read goes
through the handle: `hit_of_tag` says when the two name files of one tag,
`republish_mixes` what happens when they do not.
-/
import Mathlib.Data.List.Basic
import Mathlib.Logic.Function.Basic
import ReadCacheFs.Basic
import ReadCacheFs.Lib.Runs

namespace ReadCacheFs

open Lib

/-- A file: what was written to it, and its version attribute (empty when
there is none). -/
structure CacheFile where
  content : Bytes := []
  version : String := ""
  deriving DecidableEq, Repr

inductive LocalPath
  | dest (name : String)
  | temp (store : Nat)
  deriving DecidableEq, Repr

/-- The next operation of a `StoreLocalCacheFile` call. -/
inductive StorePc
  | start
  | create
  | write
  | tag
  | attrs
  | move
  /-- The removal of the temporary file when the scope ends. -/
  | cleanup
  | done
  deriving DecidableEq, Repr

structure StoreCall where
  dest : String
  content : Bytes
  versionTag : String
  pc : StorePc := .start
  file : CacheFile := {}
  deriving DecidableEq, Repr

/-- The next operation of a `ReadLocalCacheFile` call, or its result. -/
inductive ReadPc
  | start
  /-- Before `ValidateCacheFile`, with a handle to a file. -/
  | opened (file : Nat)
  /-- Before `TryRemoveFile` of a file found invalid. -/
  | invalid
  /-- Before the read through the handle. -/
  | valid (file : Nat)
  | miss
  | hit (content : Bytes)
  /-- The read came up short and threw. -/
  | failed
  deriving DecidableEq, Repr

structure ReadCall where
  path : String
  chunkSize : Nat
  versionTag : String
  pc : ReadPc := .start
  deriving DecidableEq, Repr

structure DiskState where
  paths : LocalPath → Option Nat := fun _ => none
  stores : List StoreCall := []
  reads : List ReadCall := []

namespace DiskState

def file? (s : DiskState) (f : Nat) : Option CacheFile := (s.stores[f]?).map (·.file)

/-- The version attribute of a file. -/
def versionOf (s : DiskState) (f : Nat) : String := ((s.file? f).map (·.version)).getD ""

/-- `GetCacheVersion`: empty when there is no such file. -/
def getCacheVersion (s : DiskState) (path : String) : String :=
  ((s.paths (.dest path)).map s.versionOf).getD ""

def tryRemoveFile (s : DiskState) (p : LocalPath) : DiskState :=
  { s with paths := Function.update s.paths p none }

def modifyStore (s : DiskState) (i : Nat) (g : StoreCall → StoreCall) : DiskState :=
  { s with stores := s.stores.modify i g }

def gotoStore (s : DiskState) (i : Nat) (pc : StorePc) : DiskState := s.modifyStore i ({ · with pc })

def gotoRead (s : DiskState) (i : Nat) (pc : ReadPc) : DiskState :=
  { s with reads := s.reads.modify i ({ · with pc }) }

end DiskState

/-- `ValidateCacheFile`, of the version attribute it finds. -/
def validateCacheFile (cachedVersionTag versionTag : String) : Bool :=
  if versionTag = "" then true
  else if cachedVersionTag = "" then false
  else cachedVersionTag = versionTag

/-- The next operation of store `i`; `ok` is false where the filesystem
reports a failure (no space left, an attribute refused, an I/O error). The
evictions of a store that finds no space are `remove` actions of their own. -/
def storeStep (s : DiskState) (i : Nat) (st : StoreCall) (ok : Bool) : Option DiskState :=
  match st.pc with
  | .start => some (s.gotoStore i (if ok then .create else .done))
  | .create =>
    if ok then some ({ s with paths := Function.update s.paths (.temp i) (some i) }.gotoStore i .write)
    else some (s.gotoStore i .cleanup)
  | .write =>
    if ok then some (s.modifyStore i fun st => { st with pc := .tag, file := { st.file with content := st.content } })
    else some (s.gotoStore i .cleanup)
  | .tag =>
    if st.versionTag = "" then some (s.gotoStore i .attrs)
    else match s.paths (.temp i) with
      | some f =>
        if ok then
          some ((s.modifyStore f fun st' => { st' with file := { st'.file with version := st.versionTag } }).gotoStore i .attrs)
        else some (s.gotoStore i .cleanup)
      | none => some (s.gotoStore i .cleanup)
  | .attrs => some (s.gotoStore i (if ok then .move else .cleanup))
  | .move =>
    match s.paths (.temp i) with
    | some f =>
      if ok then
        some ({ s with paths := Function.update (Function.update s.paths (.dest st.dest) (some f)) (.temp i) none
                }.gotoStore i .cleanup)
      else some (s.gotoStore i .cleanup)
    | none => some (s.gotoStore i .cleanup)
  | .cleanup => some ((s.tryRemoveFile (.temp i)).gotoStore i .done)
  | .done => none

def readStep (s : DiskState) (i : Nat) (r : ReadCall) : Option DiskState :=
  match r.pc with
  | .start => some (s.gotoRead i (match s.paths (.dest r.path) with | some f => .opened f | none => .miss))
  | .opened f =>
    some (s.gotoRead i (if validateCacheFile (s.getCacheVersion r.path) r.versionTag then .valid f else .invalid))
  | .invalid => some ((s.tryRemoveFile (.dest r.path)).gotoRead i .miss)
  | .valid f =>
    (s.file? f).map fun file =>
      s.gotoRead i (if file.content.length < r.chunkSize then .failed else .hit (file.content.take r.chunkSize))
  | .miss | .hit _ | .failed => none

inductive DiskAct
  | startStore (dest : String) (content : Bytes) (versionTag : String)
  | store (i : Nat) (ok : Bool)
  | startRead (path : String) (chunkSize : Nat) (versionTag : String)
  | read (i : Nat)
  /-- An eviction or a cleanup, of whichever file. -/
  | remove (p : LocalPath)

def diskStep (s : DiskState) : DiskAct → Option DiskState
  | .startStore dest content versionTag => some { s with stores := s.stores ++ [{ dest, content, versionTag }] }
  | .store i ok => (s.stores[i]?).bind fun st => storeStep s i st ok
  | .startRead path chunkSize versionTag => some { s with reads := s.reads ++ [{ path, chunkSize, versionTag }] }
  | .read i => (s.reads[i]?).bind fun r => readStep s i r
  | .remove p => some (s.tryRemoveFile p)

/-! ## What stays true of the files -/

/-- A store that has moved its file in place, or given up. -/
def StorePc.Closed (pc : StorePc) : Prop := pc = .cleanup ∨ pc = .done

/-- File `f` was stored whole at `path`, with its tag. -/
def Published (stores : List StoreCall) (path : String) (f : Nat) : Prop :=
  ∃ st, stores[f]? = some st ∧ st.dest = path ∧ st.pc.Closed ∧ st.file = ⟨st.content, st.versionTag⟩

/-- What a store has written by the time it gets to an operation. -/
def StoreCall.OK (st : StoreCall) : Prop :=
  match st.pc with
  | .start | .create | .write => st.file = {}
  | .tag => st.file = ⟨st.content, ""⟩
  | .attrs | .move => st.file = ⟨st.content, st.versionTag⟩
  | .cleanup | .done => True

def StoredUnder (stores : List StoreCall) (r : ReadCall) (bs : Bytes) : Prop :=
  ∃ st ∈ stores, st.dest = r.path ∧ st.versionTag = r.versionTag ∧ r.chunkSize ≤ st.content.length ∧
    bs = st.content.take r.chunkSize

/-- What a read knows of the file it has a handle to. -/
def ReadCall.OK (stores : List StoreCall) (r : ReadCall) : Prop :=
  match r.pc with
  | .opened f => Published stores r.path f
  | .valid f => Published stores r.path f ∧
      (r.versionTag ≠ "" → ∀ st, stores[f]? = some st → st.versionTag = r.versionTag)
  | .hit bs => r.versionTag ≠ "" → StoredUnder stores r bs
  | .start | .invalid | .miss | .failed => True

/-- A call's parameters stay, and a closed store's file. -/
structure Keeps (st st' : StoreCall) : Prop where
  dest : st'.dest = st.dest
  content : st'.content = st.content
  versionTag : st'.versionTag = st.versionTag
  closed : st.pc.Closed → st'.pc.Closed ∧ st'.file = st.file

theorem Keeps.refl (st : StoreCall) : Keeps st st := ⟨rfl, rfl, rfl, fun h => ⟨h, rfl⟩⟩

/-- Every store call is still there, and keeps what it has to. -/
def Frame (stores stores' : List StoreCall) : Prop :=
  ∀ (f : Nat) st, stores[f]? = some st → ∃ st', stores'[f]? = some st' ∧ Keeps st st'

theorem Frame.append (stores more : List StoreCall) : Frame stores (stores ++ more) := by
  intro f st h
  obtain ⟨hlt, _⟩ := List.getElem?_eq_some_iff.mp h
  exact ⟨st, by rw [List.getElem?_append_left hlt, h], .refl st⟩

theorem Frame.modify {stores : List StoreCall} {i : Nat} {st : StoreCall} (hi : stores[i]? = some st)
    {g : StoreCall → StoreCall} (hk : Keeps st (g st)) : Frame stores (stores.modify i g) := by
  intro f st' h
  rw [List.getElem?_modify]
  by_cases hf : i = f
  · subst hf
    rw [hi] at h
    cases h
    exact ⟨g st, by rw [hi]; simp, hk⟩
  · exact ⟨st', by rw [h]; simp [hf], .refl st'⟩

theorem Frame.published {stores stores' : List StoreCall} (h : Frame stores stores') {path : String} {f : Nat}
    (hp : Published stores path f) : Published stores' path f := by
  obtain ⟨st, hst, hdest, hpc, hfile⟩ := hp
  obtain ⟨st', hst', hk⟩ := h f st hst
  obtain ⟨hpc', hfile'⟩ := hk.closed hpc
  exact ⟨st', hst', by rw [hk.dest, hdest], hpc', by rw [hfile', hfile, hk.content, hk.versionTag]⟩

theorem Frame.storedUnder {stores stores' : List StoreCall} (h : Frame stores stores') {r : ReadCall} {bs : Bytes}
    (hs : StoredUnder stores r bs) : StoredUnder stores' r bs := by
  obtain ⟨st, hst, hdest, htag, hlen, hbs⟩ := hs
  obtain ⟨f, hf⟩ := List.mem_iff_getElem?.mp hst
  obtain ⟨st', hst', hk⟩ := h f st hf
  exact ⟨st', List.mem_of_getElem? hst', by rw [hk.dest, hdest], by rw [hk.versionTag, htag],
    by rw [hk.content]; exact hlen, by rw [hk.content, hbs]⟩

theorem Frame.readOK {stores stores' : List StoreCall} (h : Frame stores stores') {r : ReadCall}
    (hr : r.OK stores) : r.OK stores' := by
  obtain ⟨path, chunkSize, tag, pc⟩ := r
  cases pc with
  | opened f => exact h.published hr
  | valid f =>
    refine ⟨h.published hr.1, fun ht st' hst' => ?_⟩
    obtain ⟨st, hst, _⟩ := hr.1
    obtain ⟨st'', hst'', hk⟩ := h f st hst
    rw [hst''] at hst'
    cases hst'
    rw [hk.versionTag, hr.2 ht st hst]
  | hit bs => exact fun ht => h.storedUnder (hr ht)
  | start | invalid | miss | failed => trivial

structure DiskInv (s : DiskState) : Prop where
  temp : ∀ i f, s.paths (.temp i) = some f → f = i
  dest : ∀ path f, s.paths (.dest path) = some f → Published s.stores path f
  stores : ∀ (i : Nat) st, s.stores[i]? = some st → st.OK
  reads : ∀ r ∈ s.reads, r.OK s.stores

theorem DiskInv.init : DiskInv {} := ⟨by simp, by simp, by simp, by simp⟩

/-- A store call's step: what it does to its own record and to the paths. -/
theorem DiskInv.modify {s : DiskState} (h : DiskInv s) {i : Nat} {st : StoreCall} (hi : s.stores[i]? = some st)
    {g : StoreCall → StoreCall} (hk : Keeps st (g st)) (hok : (g st).OK) {paths : LocalPath → Option Nat}
    (htemp : ∀ j f, paths (.temp j) = some f → f = j)
    (hdest : ∀ path f, paths (.dest path) = some f →
      s.paths (.dest path) = some f ∨ Published (s.stores.modify i g) path f) :
    DiskInv { paths, stores := s.stores.modify i g, reads := s.reads } := by
  have hf : Frame s.stores (s.stores.modify i g) := .modify hi hk
  refine ⟨htemp, fun path f hp => ?_, fun j st' hst' => ?_, fun r hr => hf.readOK (h.reads r hr)⟩
  · rcases hdest path f hp with hp | hp
    · exact hf.published (h.dest path f hp)
    · exact hp
  · dsimp only at hst'
    rw [List.getElem?_modify] at hst'
    by_cases hij : i = j
    · subst hij
      rw [hi] at hst'
      simp only [if_true, Option.map_eq_map, Option.map_some, Option.some.injEq] at hst'
      exact hst' ▸ hok
    · simp only [if_neg hij, Option.map_eq_map, Option.map_id'] at hst'
      exact h.stores j st' hst'

theorem keeps_goto {st : StoreCall} {pc : StorePc} (h : st.pc.Closed → pc.Closed) : Keeps st { st with pc } :=
  ⟨rfl, rfl, rfl, fun hc => ⟨h hc, rfl⟩⟩

/-- A step that only moves a call on, and changes the paths. -/
theorem DiskInv.gotoPaths {s : DiskState} (h : DiskInv s) {i : Nat} {st : StoreCall} (hi : s.stores[i]? = some st)
    {pc : StorePc} (hc : st.pc.Closed → pc.Closed) (hok : ({ st with pc } : StoreCall).OK)
    {paths : LocalPath → Option Nat} (htemp : ∀ j f, paths (.temp j) = some f → f = j)
    (hdest : ∀ path f, paths (.dest path) = some f →
      s.paths (.dest path) = some f ∨ Published (s.gotoStore i pc).stores path f) :
    DiskInv ({ s with paths }.gotoStore i pc) :=
  h.modify hi (keeps_goto hc) hok htemp hdest

theorem DiskInv.goto {s : DiskState} (h : DiskInv s) {i : Nat} {st : StoreCall} (hi : s.stores[i]? = some st)
    {pc : StorePc} (hc : st.pc.Closed → pc.Closed) (hok : ({ st with pc } : StoreCall).OK) :
    DiskInv (s.gotoStore i pc) :=
  h.gotoPaths hi hc hok h.temp fun _ _ hp => .inl hp

theorem update_some {α β : Type*} [DecidableEq α] {m : α → Option β} {a b : α} {o : Option β} {v : β}
    (h : Function.update m a o b = some v) : (b = a ∧ o = some v) ∨ (b ≠ a ∧ m b = some v) := by
  by_cases hb : b = a
  · subst hb; exact .inl ⟨rfl, by simpa using h⟩
  · exact .inr ⟨hb, by simpa [hb] using h⟩

theorem DiskInv.remove {s : DiskState} (h : DiskInv s) (p : LocalPath) : DiskInv (s.tryRemoveFile p) := by
  refine ⟨fun i f hp => ?_, fun path f hp => ?_, h.stores, h.reads⟩
  · rcases update_some hp with ⟨_, ho⟩ | ⟨_, hp⟩
    · cases ho
    · exact h.temp i f hp
  · rcases update_some hp with ⟨_, ho⟩ | ⟨_, hp⟩
    · cases ho
    · exact h.dest path f hp

theorem storeStep_inv {s s' : DiskState} (h : DiskInv s) {i : Nat} {st : StoreCall} (hi : s.stores[i]? = some st)
    {ok : Bool} (hs : storeStep s i st ok = some s') : DiskInv s' := by
  have hst := h.stores i st hi
  have hfail : DiskInv (s.gotoStore i .cleanup) := h.goto hi (fun _ => .inl rfl) trivial
  unfold storeStep at hs
  cases hpc : st.pc with
  | start =>
    simp only [StoreCall.OK, hpc] at hst
    simp only [hpc, Option.some.injEq] at hs
    subst hs
    cases ok
    · exact h.goto hi (fun _ => .inr rfl) trivial
    · exact h.goto hi (by simp [hpc, StorePc.Closed]) hst
  | create =>
    simp only [StoreCall.OK, hpc] at hst
    simp only [hpc] at hs
    split at hs
    · cases hs
      have hw : ({ st with pc := .write } : StoreCall).OK := hst
      refine h.gotoPaths hi (by simp [hpc, StorePc.Closed]) hw (fun j f hp => ?_) (fun path f hp => ?_)
      · rcases update_some hp with ⟨hj, ho⟩ | ⟨_, hp⟩
        · cases hj; cases ho; rfl
        · exact h.temp j f hp
      · rcases update_some hp with ⟨hj, _⟩ | ⟨_, hp⟩
        · cases hj
        · exact .inl hp
    · cases hs; exact hfail
  | write =>
    simp only [StoreCall.OK, hpc] at hst
    simp only [hpc] at hs
    split at hs
    · cases hs
      refine h.modify hi ⟨rfl, rfl, rfl, by simp [hpc, StorePc.Closed]⟩ ?_ h.temp fun _ _ hp => .inl hp
      simp [StoreCall.OK, hst]
    · cases hs; exact hfail
  | tag =>
    simp only [StoreCall.OK, hpc] at hst
    simp only [hpc] at hs
    split at hs
    next ht =>
      cases hs
      exact h.goto hi (by simp [hpc, StorePc.Closed]) (by simpa [StoreCall.OK, ht] using hst)
    split at hs
    next f hf =>
      split at hs
      · cases hs
        obtain rfl := h.temp i f hf
        have hmod : (s.modifyStore f fun st' =>
            { st' with file := { st'.file with version := st.versionTag } }).gotoStore
            f .attrs = { s with stores := s.stores.modify f fun st' =>
              { st' with pc := .attrs, file := { st'.file with version := st.versionTag } } } := by
          simp only [DiskState.gotoStore, DiskState.modifyStore, List.modify_modify_eq]
          rfl
        rw [hmod]
        refine h.modify hi ⟨rfl, rfl, rfl, by simp [hpc, StorePc.Closed]⟩ ?_ h.temp fun _ _ hp => .inl hp
        simp [StoreCall.OK, hst]
      · cases hs; exact hfail
    next => cases hs; exact hfail
  | attrs =>
    simp only [StoreCall.OK, hpc] at hst
    simp only [hpc, Option.some.injEq] at hs
    subst hs
    cases ok
    · exact hfail
    · exact h.goto hi (by simp [hpc, StorePc.Closed]) hst
  | move =>
    simp only [StoreCall.OK, hpc] at hst
    simp only [hpc] at hs
    split at hs
    next f hf =>
      split at hs
      · cases hs
        obtain rfl := h.temp i f hf
        refine h.gotoPaths hi (fun _ => .inl rfl) trivial (fun j g hp => ?_) (fun path g hp => ?_)
        · rcases update_some hp with ⟨_, ho⟩ | ⟨_, hp⟩
          · cases ho
          rcases update_some hp with ⟨hj, _⟩ | ⟨_, hp⟩
          · cases hj
          · exact h.temp j g hp
        · rcases update_some hp with ⟨hj, _⟩ | ⟨_, hp⟩
          · cases hj
          rcases update_some hp with ⟨hj, ho⟩ | ⟨_, hp⟩
          · -- The file just moved in place is whole and tagged.
            cases hj; cases ho
            refine .inr ⟨{ st with pc := .cleanup }, ?_, rfl, .inl rfl, hst⟩
            simp [DiskState.gotoStore, DiskState.modifyStore, hi]
          · exact .inl hp
      · cases hs; exact hfail
    next => cases hs; exact hfail
  | cleanup =>
    simp only [hpc] at hs
    cases hs
    exact (h.remove _).goto hi (fun _ => .inr rfl) trivial
  | done => simp [hpc] at hs

/-! ## Reads -/

/-- When a read validates the file it opened, its path does not name a file
of the read's tag unless the opened one has that tag as well. -/
def NotRepublished (s : DiskState) : DiskAct → Prop
  | .read i => ∀ r f, s.reads[i]? = some r → r.pc = .opened f → r.versionTag ≠ "" →
      s.getCacheVersion r.path = r.versionTag → s.versionOf f = r.versionTag
  | _ => True

instance (s : DiskState) (a : DiskAct) : Decidable (NotRepublished s a) :=
  match a with
  | .read i => match hr : s.reads[i]? with
    | none => .isTrue fun r f h => by rw [hr] at h; cases h
    | some r => match hpc : r.pc with
      | .opened f => decidable_of_iff (r.versionTag ≠ "" → s.getCacheVersion r.path = r.versionTag →
          s.versionOf f = r.versionTag)
          ⟨fun h r' f' hr' hpc' => by rw [hr] at hr'; cases hr'; rw [hpc] at hpc'; cases hpc'; exact h,
            fun h => h r f hr hpc⟩
      | .start | .invalid | .valid _ | .miss | .hit _ | .failed => .isTrue fun r' f' hr' hpc' => by
          rw [hr] at hr'; cases hr'; rw [hpc] at hpc'; cases hpc'
  | .startStore .. | .store .. | .startRead .. | .remove _ => .isTrue trivial

theorem DiskInv.gotoRead {s : DiskState} (h : DiskInv s) {i : Nat} {r : ReadCall} (hr : s.reads[i]? = some r)
    {pc : ReadPc} (hok : ({ r with pc } : ReadCall).OK s.stores) : DiskInv (s.gotoRead i pc) := by
  refine ⟨h.temp, h.dest, h.stores, fun q hq => ?_⟩
  obtain ⟨j, hj⟩ := List.mem_iff_getElem?.mp hq
  rw [DiskState.gotoRead, List.getElem?_modify] at hj
  by_cases hij : i = j
  · subst hij
    rw [hr] at hj
    simp only [if_true, Option.map_eq_map, Option.map_some, Option.some.injEq] at hj
    exact hj ▸ hok
  · simp only [if_neg hij, Option.map_eq_map, Option.map_id'] at hj
    exact h.reads q (List.mem_of_getElem? hj)

theorem validateCacheFile_eq {cached tag : String} (ht : tag ≠ "") (h : validateCacheFile cached tag = true) :
    cached = tag := by
  simp only [validateCacheFile, if_neg ht] at h
  split at h
  · cases h
  · simpa using h

theorem readStep_inv {s s' : DiskState} (h : DiskInv s) {i : Nat} {r : ReadCall} (hr : s.reads[i]? = some r)
    (hg : NotRepublished s (.read i)) (hs : readStep s i r = some s') : DiskInv s' := by
  have hok := h.reads r (List.mem_of_getElem? hr)
  unfold readStep at hs
  cases hpc : r.pc with
  | start =>
    simp only [hpc, Option.some.injEq] at hs
    subst hs
    cases hp : s.paths (.dest r.path) with
    | none => exact h.gotoRead hr trivial
    | some f => exact h.gotoRead hr (h.dest _ f hp)
  | opened f =>
    simp only [ReadCall.OK, hpc] at hok
    simp only [hpc, Option.some.injEq] at hs
    subst hs
    split
    next hv =>
      refine h.gotoRead hr ⟨hok, fun ht st hst => ?_⟩
      have hver := hg r f hr hpc ht (validateCacheFile_eq ht hv)
      obtain ⟨st', hst', _, _, hfile⟩ := hok
      rw [hst] at hst'
      cases hst'
      simpa [DiskState.versionOf, DiskState.file?, hst, hfile] using hver
    next => exact h.gotoRead hr trivial
  | invalid =>
    simp only [hpc, Option.some.injEq] at hs
    subst hs
    exact (h.remove _).gotoRead hr trivial
  | valid f =>
    simp only [ReadCall.OK, hpc] at hok
    obtain ⟨⟨st, hst, hdest, _, hfile⟩, htag⟩ := hok
    simp only [hpc, DiskState.file?, hst, hfile, Option.map_some, Option.some.injEq] at hs
    subst hs
    split
    · exact h.gotoRead hr trivial
    next hlen =>
      refine h.gotoRead hr fun ht => ?_
      exact ⟨st, List.mem_of_getElem? hst, hdest, htag ht st hst, by simpa using hlen, rfl⟩
  | miss => simp [hpc] at hs
  | hit bs => simp [hpc] at hs
  | failed => simp [hpc] at hs

theorem diskStep_inv {s s' : DiskState} {a : DiskAct} (h : DiskInv s) (hg : NotRepublished s a)
    (hs : diskStep s a = some s') : DiskInv s' := by
  cases a with
  | startStore dest content tag =>
    simp only [diskStep, Option.some.injEq] at hs
    subst hs
    have hf : Frame s.stores (s.stores ++ [{ dest, content, versionTag := tag }]) := .append _ _
    refine ⟨h.temp, fun p f hp => hf.published (h.dest p f hp), fun i st hst => ?_,
      fun r hr => hf.readOK (h.reads r hr)⟩
    dsimp only at hst
    rw [List.getElem?_append] at hst
    split at hst
    · exact h.stores i st hst
    · obtain rfl := List.mem_singleton.mp (List.mem_of_getElem? hst)
      rfl
  | store i ok =>
    simp only [diskStep, Option.bind_eq_some_iff] at hs
    obtain ⟨st, hst, hs⟩ := hs
    exact storeStep_inv h hst hs
  | startRead path chunkSize tag =>
    simp only [diskStep, Option.some.injEq] at hs
    subst hs
    refine ⟨h.temp, h.dest, h.stores, fun r hr => ?_⟩
    rcases List.mem_append.mp hr with hr | hr
    · exact h.reads r hr
    · obtain rfl := List.mem_singleton.mp hr
      trivial
  | read i =>
    simp only [diskStep, Option.bind_eq_some_iff] at hs
    obtain ⟨r, hr, hs⟩ := hs
    exact readStep_inv h hr hg hs
  | remove p =>
    simp only [diskStep, Option.some.injEq] at hs
    exact hs ▸ h.remove p

/-- **Hits under a tag.** Whatever stores, reads and removals interleave:
as long as no read validates a path that was republished under its tag over
the file it opened, a hit under a non-empty tag returns what was stored at
that path under that tag. -/
theorem hit_of_tag (as : List DiskAct) (s : DiskState) (hx : exec diskStep {} as = some s)
    (hg : Guarded diskStep NotRepublished {} as) :
    ∀ r ∈ s.reads, ∀ bs, r.pc = .hit bs → r.versionTag ≠ "" → StoredUnder s.stores r bs := by
  have hinv : DiskInv s := exec_guarded_invariant (fun _ _ _ hi hg hs => diskStep_inv hi hg hs) hg hx .init
  intro r hr bs hpc ht
  have hok := hinv.reads r hr
  simp only [ReadCall.OK, hpc] at hok
  exact hok ht

/-- One store of tag `tag`, to its end. -/
def wholeStore (i : Nat) (content : Bytes) (tag : String) : List DiskAct :=
  .startStore "p" content tag :: List.replicate 7 (.store i true)

/-- A read between two stores of different tags, begun after the first. -/
def quietActs : List DiskAct :=
  wholeStore 0 [1] "v1" ++ [.startRead "p" 1 "v1", .read 0, .read 0, .read 0] ++ wholeStore 1 [2] "v2"

theorem hit_of_tag_quiet :
    ∃ s, exec diskStep {} quietActs = some s ∧ s.reads = [⟨"p", 1, "v1", .hit [1]⟩] ∧
      ∀ r ∈ s.reads, ∀ bs, r.pc = .hit bs → r.versionTag ≠ "" → StoredUnder s.stores r bs := by
  obtain ⟨s, hs, hr⟩ : ∃ s, exec diskStep {} quietActs = some s ∧ s.reads = [⟨"p", 1, "v1", .hit [1]⟩] :=
    ⟨_, rfl, rfl⟩
  exact ⟨s, hs, hr, hit_of_tag quietActs s hs (by decide +kernel)⟩

/-- The second store ends between the read's open and its validation. -/
def republishActs : List DiskAct :=
  wholeStore 0 [1] "v1" ++ [.startRead "p" 1 "v2", .read 0] ++ wholeStore 1 [2] "v2" ++ [.read 0, .read 0]

/-- **A version mix-up.** The read under `v2` returns what was stored under `v1`. -/
theorem republish_mixes :
    ¬ ∀ as s, exec diskStep {} as = some s →
      ∀ r ∈ s.reads, ∀ bs, r.pc = .hit bs → r.versionTag ≠ "" → StoredUnder s.stores r bs := by
  intro h
  obtain ⟨s, hs, hr, hst⟩ : ∃ s, exec diskStep {} republishActs = some s ∧ s.reads = [⟨"p", 1, "v2", .hit [1]⟩] ∧
      s.stores = [⟨"p", [1], "v1", .done, ⟨[1], "v1"⟩⟩, ⟨"p", [2], "v2", .done, ⟨[2], "v2"⟩⟩] :=
        ⟨_, rfl, rfl, rfl⟩
  have hbad := h republishActs s hs ⟨"p", 1, "v2", .hit [1]⟩ (by simp [hr]) [1] rfl (by decide)
  revert hbad
  rw [StoredUnder, hst]
  decide

end ReadCacheFs
