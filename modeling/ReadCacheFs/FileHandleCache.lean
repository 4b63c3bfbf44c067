/-
The file handle cache of `CacheFileSystem`, and who closes what.

A handle opened for reading wraps one of the internal filesystem. Its
destructor puts that one into the cache that was there when it was opened,
and its own `Close` does nothing; what the cache evicts or is cleared of is
closed. `file_handle_cache` is a `shared_ptr`, here a position in the list
of all the caches made: `ClearFileHandleCache()` drops it, and a handle
opened before keeps it.

A handle whose cache is not there any more, or never was, is let go without
being closed. `handles_closed_once_iff`: nothing else goes wrong.
-/
import Mathlib.Logic.Function.Basic
import ReadCacheFs.ExclusiveMultiLru
import ReadCacheFs.Lib.Runs

namespace ReadCacheFs

open Lib

structure FileHandleCacheKey where
  path : String
  flags : Nat
  deriving DecidableEq, Repr

/-- `FileHandleCacheKeyLess`. -/
instance : Ord FileHandleCacheKey where
  compare := compareLex (compareOn (·.path)) (compareOn (·.flags))

theorem FileHandleCacheKey.compare_def (a b : FileHandleCacheKey) :
    compare a b = (compare a.path b.path).then (compare a.flags b.flags) := rfl

instance : Std.TransOrd FileHandleCacheKey :=
  inferInstanceAs (Std.TransCmp (compareLex (compareOn FileHandleCacheKey.path) (compareOn FileHandleCacheKey.flags)))

instance : Std.LawfulEqOrd FileHandleCacheKey where
  eq_of_compare {a b} h := by
    rw [FileHandleCacheKey.compare_def] at h
    simp only [Ordering.then_eq_eq, Std.compare_eq_iff_eq] at h
    obtain ⟨h1, h2⟩ := h
    cases a; cases b; simp_all
  compare_self {a} := by simp

structure HandleConfig where
  enableFileHandleCache : Bool
  maxFileHandleCacheEntry : Nat
  fileHandleCacheEntryTimeoutMillisec : Nat
  clearCacheOnWrite : Bool
  deriving DecidableEq, Repr

/-- A handle of the internal filesystem, with what has been done to it. -/
structure InternalHandle where
  path : String
  flags : Nat
  closes : Nat := 0
  destroyed : Bool := false
  usedAfterClose : Bool := false
  deriving DecidableEq, Repr

/-- `CacheFileSystemHandle`: the internal handle, and what the destructor callback has captured. -/
structure CacheFileSystemHandle where
  internal : Nat
  cacheKey : FileHandleCacheKey
  fileHandleCache : Option Nat
  inUseFileHandleCounter : Option Nat
  alive : Bool := true
  deriving DecidableEq, Repr

/-- Values are internal handles, named by number. -/
abbrev FileHandleCache := ExclusiveMultiLruCache FileHandleCacheKey Nat

abbrev InUseFileHandleCounter := FileHandleCacheKey → Nat

/-- `Decrement`; a key that is not there is an assertion failure. -/
def InUseFileHandleCounter.decrement (c : InUseFileHandleCounter) (key : FileHandleCacheKey) :
    Except Fault InUseFileHandleCounter :=
  if c key = 0 then .error .assertFailed else .ok (Function.update c key (c key - 1))

structure HandleState where
  config : HandleConfig
  alive : Bool := true
  fileHandleCache : Option Nat := none
  inUseFileHandleCounter : Option Nat := none
  /-- Every internal handle there has been. -/
  handles : List InternalHandle := []
  caches : List FileHandleCache := []
  counters : List InUseFileHandleCounter := []
  /-- Every handle returned. -/
  files : List CacheFileSystemHandle := []

def newCache (config : HandleConfig) : FileHandleCache :=
  { maxEntries := config.maxFileHandleCacheEntry, timeoutMillisec := config.fileHandleCacheEntryTimeoutMillisec }

namespace HandleState

def modifyHandle (s : HandleState) (h : Nat) (g : InternalHandle → InternalHandle) : HandleState :=
  { s with handles := s.handles.modify h g }

/-- A call on the internal handle. -/
def touch (s : HandleState) (h : Nat) : HandleState :=
  s.modifyHandle h fun x => { x with usedAfterClose := x.usedAfterClose || decide (0 < x.closes) || x.destroyed }

def destroyInternal (s : HandleState) (h : Nat) : HandleState := s.modifyHandle h ({ · with destroyed := true })

/-- `Close()`, and the `unique_ptr` goes. -/
def closeInternal (s : HandleState) (h : Nat) : HandleState :=
  s.modifyHandle h fun x => { x with closes := x.closes + 1, destroyed := true }

def closeAll (s : HandleState) (hs : List Nat) : HandleState := hs.foldl closeInternal s

def setCache (s : HandleState) (r : Nat) (c : FileHandleCache) : HandleState :=
  { s with caches := s.caches.set r c }

def clearFileHandleCache (s : HandleState) : HandleState :=
  match s.fileHandleCache with
  | none => s
  | some r =>
    match s.caches[r]? with
    | none => s
    | some c =>
      let (fileHandles, c') := c.clearAndGetValues
      { (s.setCache r c').closeAll fileHandles with fileHandleCache := none, inUseFileHandleCounter := none }

def setFileHandleCache (s : HandleState) : HandleState :=
  if s.config.enableFileHandleCache then
    let s := match s.fileHandleCache with
      | some _ => s
      | none =>
        { s with
          fileHandleCache := some s.caches.length
          caches := s.caches ++ [newCache s.config] }
    match s.inUseFileHandleCounter with
    | some _ => s
    | none =>
      { s with inUseFileHandleCounter := some s.counters.length, counters := s.counters ++ [fun _ => 0] }
  else s.clearFileHandleCache

section Keys

-- `FILE_FLAGS_PARALLEL_ACCESS`.
variable (parallelAccess : Nat)

/-- `FileHandleCacheKey(path, flags)`. -/
def cacheKey (path : String) (flags : Nat) : FileHandleCacheKey := ⟨path, flags ||| parallelAccess⟩

/-- `ClearFileHandleCache(filepath)`. -/
def clearFileHandleCachePath (s : HandleState) (filepath : String) : Except Fault HandleState :=
  match s.fileHandleCache with
  | none => .ok s
  | some r =>
    match s.caches[r]? with
    | none => .ok s
    | some c =>
      (c.clearAndGetValuesFrom (cacheKey parallelAccess filepath 0) (·.path == filepath)).map fun (fileHandles, c') =>
        (s.setCache r c').closeAll fileHandles

def createCacheFileHandleForRead (s : HandleState) (h : Nat) : HandleState :=
  match s.handles[h]? with
  | none => s
  | some x =>
    let s := s.touch h
    let key := cacheKey parallelAccess x.path x.flags
    { s with
      counters := match s.inUseFileHandleCounter with
        | some q => s.counters.modify q fun c => Function.update c key (c key + 1)
        | none => s.counters
      files := s.files ++
        [{ internal := h, cacheKey := key, fileHandleCache := s.fileHandleCache
           inUseFileHandleCounter := s.inUseFileHandleCounter }] }

/-- `OpenFile` of the internal filesystem, which may throw or give no handle, and the handle around it. -/
def openInternal (s : HandleState) (path : String) (flags : Nat) (opens : Bool) : HandleState :=
  if opens then
    createCacheFileHandleForRead parallelAccess
      { s with handles := s.handles ++ [{ path, flags := flags ||| parallelAccess }] } s.handles.length
  else s

def getOrCreateFileHandleForRead (s : HandleState) (path : String) (flags now : Nat) (opens : Bool) :
    Except Fault HandleState :=
  match s.fileHandleCache with
  | none => .ok (s.openInternal parallelAccess path flags opens)
  | some r =>
    match s.caches[r]? with
    | none => .error .assertFailed
    | some c =>
      match c.getAndPop now (cacheKey parallelAccess path flags) with
      | .error e => .error e
      | .ok (evicted, target, c') =>
        let s := (s.setCache r c').closeAll evicted
        match target with
        | some h => .ok (s.createCacheFileHandleForRead parallelAccess h)
        | none =>
          -- `GetCount`, for the profile, goes through the pointer.
          if s.inUseFileHandleCounter = none then .error .assertFailed
          else .ok (s.openInternal parallelAccess path flags opens)

/-- `OpenFileExtended`, for reading. -/
def openFileExtended (s : HandleState) (path : String) (flags now : Nat) (opens : Bool) :
    Except Fault HandleState :=
  let s := s.setFileHandleCache
  (if s.config.clearCacheOnWrite then s.clearFileHandleCachePath parallelAccess path else .ok s) >>= fun s =>
    s.getOrCreateFileHandleForRead parallelAccess path flags now opens

end Keys

/-- A captured cache goes with its last `shared_ptr`, and what it holds with it. -/
def dropCache (s : HandleState) (r : Nat) : HandleState :=
  if s.fileHandleCache = some r ∨ s.files.any fun f => f.alive && f.fileHandleCache == some r then s
  else match s.caches[r]? with
    | none => s
    | some c => c.values.foldl destroyInternal (s.setCache r c.clearAndGetValues.2)

/-- `dtor_callback`, after `Reset`. -/
def dtorCallback (s : HandleState) (f : CacheFileSystemHandle) (now : Nat) : Except Fault HandleState :=
  match f.fileHandleCache with
  | none => if f.inUseFileHandleCounter = none then .ok (s.destroyInternal f.internal) else .error .assertFailed
  | some r =>
    match s.caches[r]?, f.inUseFileHandleCounter.bind fun q => (s.counters[q]?).map (q, ·) with
    | some c, some (q, counter) =>
      c.put now f.cacheKey f.internal >>= fun (evicted, c') =>
        (counter.decrement f.cacheKey).map fun counter =>
          { (s.setCache r c').closeAll evicted.toList with counters := s.counters.set q counter }.dropCache r
    | _, _ => .error .assertFailed

/-- Handle `i` is no more. -/
def disown (s : HandleState) (i : Nat) (f : CacheFileSystemHandle) : HandleState :=
  { s with files := s.files.set i { f with alive := false } }

/-- The destructor of handle `i`. -/
def destroyFile (s : HandleState) (i : Nat) (f : CacheFileSystemHandle) (now : Nat) : Except Fault HandleState :=
  ((s.touch f.internal).disown i f).dtorCallback f now

inductive Act
  | setConfig (config : HandleConfig)
  | open (path : String) (flags now : Nat) (opens : Bool)
  /-- A call on handle `i` that goes to the internal handle. -/
  | use (i : Nat)
  | destroy (i now : Nat)
  | clearFileHandleCache
  | clearFileHandleCachePath (filepath : String)
  /-- `~CacheFileSystem`. -/
  | destroyFileSystem

def step (parallelAccess : Nat) (s : HandleState) : Act → Option HandleState
  | .setConfig config => some { s with config }
  | .open path flags now opens =>
    if s.alive then (s.openFileExtended parallelAccess path flags now opens).toOption else none
  | .use i => (s.files[i]?).bind fun f => if f.alive then some (s.touch f.internal) else none
  | .destroy i now => (s.files[i]?).bind fun f => if f.alive then (s.destroyFile i f now).toOption else none
  | .clearFileHandleCache => some s.clearFileHandleCache
  | .clearFileHandleCachePath filepath => (s.clearFileHandleCachePath parallelAccess filepath).toOption
  | .destroyFileSystem => if s.alive then some { s.clearFileHandleCache with alive := false } else none

/-! ## Owners -/

def owns (h : Nat) (f : CacheFileSystemHandle) : Bool := f.alive && f.internal == h

/-- How many live handles own it. -/
def owners (s : HandleState) (h : Nat) : Nat := s.files.countP (owns h)

def liveValues (s : HandleState) : List Nat :=
  (s.fileHandleCache.bind fun r => (s.caches[r]?).map (·.values)).getD []

/-- How often it is in the live cache. -/
def resident (s : HandleState) (h : Nat) : Nat := s.liveValues.count h

/-- Closed at most once and once by the time it is destroyed; until then
owned or in the live cache, once; never used after it was closed. -/
structure ClosedOnce (s : HandleState) : Prop where
  closes_le : ∀ x ∈ s.handles, x.closes ≤ 1
  destroyed : ∀ x ∈ s.handles, x.destroyed = true → x.closes = 1
  owned : ∀ (h : Nat) x, s.handles[h]? = some x → x.destroyed = false → s.owners h + s.resident h = 1
  unused : ∀ x ∈ s.handles, x.usedAfterClose = false

/-- A handle destroyed while the cache it was opened with is the live one. -/
def OpenedInLiveCache (s : HandleState) : Act → Prop
  | .destroy i _ => ∀ f ∈ s.files[i]?, f.fileHandleCache.isSome ∧ f.fileHandleCache = s.fileHandleCache
  | _ => True

instance (s : HandleState) : (a : Act) → Decidable (OpenedInLiveCache s a)
  | .destroy i _ =>
    inferInstanceAs (Decidable (∀ f ∈ s.files[i]?, f.fileHandleCache.isSome ∧ f.fileHandleCache = s.fileHandleCache))
  | .setConfig _ | .open .. | .use _ | .clearFileHandleCache | .clearFileHandleCachePath _ | .destroyFileSystem =>
    .isTrue trivial

/-- A handle with `n` owners, the cache included. -/
def InternalHandle.OK (x : InternalHandle) (n : Nat) : Prop :=
  x.usedAfterClose = false ∧
    if x.destroyed then x.closes = 1 ∧ n = 0 else x.closes = 0 ∧ n = 1

/-- The ledger, while a call has some handles in its hands: each is owned
or in the live cache or in the call's hands, once, until it is closed. -/
structure Holding (s : HandleState) (held : List Nat) : Prop where
  caches : ∀ c ∈ s.caches, c.OK
  /-- Nothing is in a cache that is not there any more. -/
  dead : ∀ (r : Nat) c, s.caches[r]? = some c → s.fileHandleCache ≠ some r → c.items = []
  handles : ∀ (h : Nat) x, s.handles[h]? = some x → InternalHandle.OK x (s.owners h + s.resident h + held.count h)
  range : ∀ h, s.handles.length ≤ h → s.owners h + s.resident h + held.count h = 0

/-- Between calls. -/
abbrev Inv (s : HandleState) : Prop := s.Holding []

theorem Inv.init (config : HandleConfig) : Inv { config } :=
  ⟨by simp, by simp, by simp, by simp [owners, resident, liveValues]⟩

theorem Inv.closedOnce {s : HandleState} (hi : Inv s) : ClosedOnce s := by
  have hall : ∀ x ∈ s.handles, ∃ n, InternalHandle.OK x n := by
    intro x hx
    obtain ⟨h, hx⟩ := List.mem_iff_getElem?.mp hx
    exact ⟨_, hi.handles h x hx⟩
  refine ⟨fun x hx => ?_, fun x hx hd => ?_, fun h x hx hd => ?_, fun x hx => ?_⟩
  · obtain ⟨n, _, hn⟩ := hall x hx
    split at hn <;> omega
  · obtain ⟨n, _, hn⟩ := hall x hx
    rw [if_pos hd] at hn
    exact hn.1
  · have hn := (hi.handles h x hx).2
    rw [hd, if_neg Bool.false_ne_true] at hn
    exact hn.2
  · obtain ⟨n, hu, _⟩ := hall x hx
    exact hu

/-! ## The ledger, entry by entry -/

section Ledger

variable {s : HandleState} {held : List Nat} {r : Nat} {c c' : FileHandleCache}

theorem resident_of_none (hr : s.fileHandleCache = none) (h : Nat) : s.resident h = 0 := by
  simp [resident, liveValues, hr]

theorem resident_of_live (hr : s.fileHandleCache = some r) (hc : s.caches[r]? = some c) (h : Nat) :
    s.resident h = c.values.count h := by
  simp [resident, liveValues, hr, hc]

theorem values_nil_of_items (h : c.items = []) : c.values = [] := by
  rw [ExclusiveMultiLruCache.values, h]
  rfl

theorem Holding.perm (hi : s.Holding held) {held' : List Nat} (hp : held.Perm held') : s.Holding held' := by
  refine ⟨hi.caches, hi.dead, fun h x hx => ?_, fun h hh => ?_⟩
  · rw [← hp.count_eq]
    exact hi.handles h x hx
  · rw [← hp.count_eq]
    exact hi.range h hh

/-- A handle in hand is neither closed nor destroyed. -/
theorem Holding.fresh (hi : s.Holding held) {h : Nat} (hmem : h ∈ held) {x : InternalHandle}
    (hx : s.handles[h]? = some x) : x.closes = 0 ∧ x.destroyed = false := by
  have hpos := List.count_pos_iff.mpr hmem
  have hn := (hi.handles h x hx).2
  split at hn
  · omega
  · rename_i hd
    exact ⟨hn.1, by simpa using hd⟩

/-- A call on a handle in hand leaves no trace. -/
theorem Holding.touch_eq (hi : s.Holding held) {h : Nat} (hmem : h ∈ held) : s.touch h = s := by
  have hsame : s.handles.modify h (fun x =>
      { x with usedAfterClose := x.usedAfterClose || decide (0 < x.closes) || x.destroyed }) = s.handles := by
    refine List.ext_getElem? fun j => ?_
    rw [List.getElem?_modify]
    by_cases hj : h = j
    · subst hj
      cases hy : s.handles[h]? with
      | none => rfl
      | some x =>
        obtain ⟨path, flags, closes, destroyed, used⟩ := x
        obtain ⟨rfl, rfl⟩ : closes = 0 ∧ destroyed = false := hi.fresh hmem hy
        simp
    · simp [hj]
  rw [touch, modifyHandle, hsame]

/-- A handle in hand is closed. -/
theorem Holding.closeOne {h : Nat} (hi : s.Holding (h :: held)) : (s.closeInternal h).Holding held := by
  have hlt : ∀ j, j ≠ h → (h :: held).count j = held.count j := fun j hj => List.count_cons_of_ne hj.symm
  refine ⟨hi.caches, hi.dead, fun j x hx => ?_, fun j hj => ?_⟩
  · simp only [closeInternal, modifyHandle, List.getElem?_modify] at hx
    by_cases hjh : h = j
    · subst hjh
      simp only [if_true, Option.map_eq_map] at hx
      obtain ⟨y, hy, rfl⟩ := Option.map_eq_some_iff.mp hx
      have hn := hi.handles h y hy
      obtain ⟨hcloses, hd⟩ := hi.fresh (by simp) hy
      rw [InternalHandle.OK, hd, if_neg Bool.false_ne_true, List.count_cons_self] at hn
      refine ⟨hn.1, ?_⟩
      rw [if_pos rfl]
      change y.closes + 1 = 1 ∧ s.owners h + s.resident h + _ = 0
      omega
    · have hx : s.handles[j]? = some x := by simpa [hjh] using hx
      have hn := hi.handles j x hx
      rw [hlt j fun he => hjh he.symm] at hn
      exact hn
  · have hn := hi.range j (by simpa [closeInternal, modifyHandle] using hj)
    change s.owners j + s.resident j + _ = 0
    have hle : held.count j ≤ (h :: held).count j := List.count_le_count_cons
    omega

theorem Holding.closeAll {hs : List Nat} (hi : s.Holding (hs ++ held)) : (s.closeAll hs).Holding held := by
  induction hs generalizing s with
  | nil => exact hi
  | cons h hs ih => exact ih (hi.closeOne)

@[simp] theorem closeAll_fileHandleCache (s : HandleState) (hs : List Nat) :
    (s.closeAll hs).fileHandleCache = s.fileHandleCache := by
  induction hs generalizing s with
  | nil => rfl
  | cons h hs ih => exact ih (s.closeInternal h)

@[simp] theorem closeAll_caches (s : HandleState) (hs : List Nat) : (s.closeAll hs).caches = s.caches := by
  induction hs generalizing s with
  | nil => rfl
  | cons h hs ih => exact ih (s.closeInternal h)

theorem closeAll_frame (s : HandleState) (hs : List Nat) : ∃ handles, s.closeAll hs = { s with handles } := by
  induction hs generalizing s with
  | nil => exact ⟨s.handles, rfl⟩
  | cons h hs ih => exact ih (s.closeInternal h)

/-- The live cache takes some handles and gives up others. -/
theorem Holding.setCache (put gone : List Nat) (hi : s.Holding (put ++ held)) (hr : s.fileHandleCache = some r)
    (hc : s.caches[r]? = some c) (hok : c'.OK) (hperm : (gone ++ c'.values).Perm (put ++ c.values)) :
    (s.setCache r c').Holding (gone ++ held) := by
  have hcount : ∀ h, (s.setCache r c').resident h + (gone ++ held).count h =
      s.resident h + (put ++ held).count h := by
    intro h
    have hp := hperm.count_eq h
    have hself : (s.setCache r c').caches[r]? = some c' := (getElem?_set_iff hc).mpr (.inl ⟨rfl, rfl⟩)
    rw [resident_of_live hr hc, resident_of_live (s := s.setCache r c') hr hself]
    simp only [List.count_append] at hp ⊢
    omega
  refine ⟨fun d hd => ?_, fun j d hd hj => ?_, fun h x hx => ?_, fun h hh => ?_⟩
  · obtain ⟨j, hj⟩ := List.mem_iff_getElem?.mp hd
    rcases (getElem?_set_iff hc).mp hj with ⟨_, rfl⟩ | ⟨_, hj⟩
    · exact hok
    · exact hi.caches d (List.mem_of_getElem? hj)
  · rcases (getElem?_set_iff hc).mp hd with ⟨rfl, _⟩ | ⟨_, hd⟩
    · exact absurd hr hj
    · exact hi.dead j d hd hj
  · have hn := hi.handles h x hx
    rw [Nat.add_assoc, ← hcount h, ← Nat.add_assoc] at hn
    exact hn
  · have hn := hi.range h hh
    rw [Nat.add_assoc, ← hcount h, ← Nat.add_assoc] at hn
    exact hn

theorem Holding.own {f : CacheFileSystemHandle} (hi : s.Holding (f.internal :: held)) (ha : f.alive = true)
    (counters : List InUseFileHandleCounter) : Holding { s with counters, files := s.files ++ [f] } held := by
  have hcount : ∀ h, owners { s with counters, files := s.files ++ [f] } h + held.count h =
      s.owners h + (f.internal :: held).count h := by
    intro h
    simp only [owners, List.countP_append, List.countP_cons, List.countP_nil, List.count_cons, owns, ha,
      Bool.true_and]
    omega
  refine ⟨hi.caches, hi.dead, fun h x hx => ?_, fun h hh => ?_⟩
  · have hn := hi.handles h x hx
    rw [Nat.add_right_comm, ← hcount h, Nat.add_right_comm] at hn
    exact hn
  · have hn := hi.range h hh
    rw [Nat.add_right_comm, ← hcount h, Nat.add_right_comm] at hn
    exact hn

theorem Holding.disown (hi : s.Holding held) {i : Nat} {f : CacheFileSystemHandle} (hf : s.files[i]? = some f)
    (ha : f.alive = true) : (s.disown i f).Holding (f.internal :: held) := by
  have hcount : ∀ h, (s.disown i f).owners h + (f.internal :: held).count h =
      s.owners h + held.count h := by
    intro h
    have hset := countP_set_add (p := owns h) hf { f with alive := false }
    simp only [owns, ha, Bool.true_and, Bool.false_and, Bool.false_eq_true, if_false] at hset
    change (s.disown i f).owners h + _ = s.owners h + 0 at hset
    rw [List.count_cons]
    omega
  refine ⟨hi.caches, hi.dead, fun h x hx => ?_, fun h hh => ?_⟩
  · have hn := hi.handles h x hx
    rw [Nat.add_right_comm, ← hcount h, Nat.add_right_comm] at hn
    exact hn
  · have hn := hi.range h hh
    rw [Nat.add_right_comm, ← hcount h, Nat.add_right_comm] at hn
    exact hn

theorem Holding.opened (hi : s.Holding held) {x : InternalHandle}
    (hx : x.closes = 0 ∧ x.destroyed = false ∧ x.usedAfterClose = false) :
    Holding { s with handles := s.handles ++ [x] } (s.handles.length :: held) := by
  refine ⟨hi.caches, hi.dead, fun h y hy => ?_, fun h hh => ?_⟩
  · change InternalHandle.OK y (s.owners h + s.resident h + _)
    rcases getElem?_snoc_iff.mp hy with hy | ⟨rfl, rfl⟩
    · obtain ⟨hlt, _⟩ := List.getElem?_eq_some_iff.mp hy
      rw [List.count_cons_of_ne (by omega)]
      exact hi.handles h y hy
    · have hn := hi.range _ (Nat.le_refl s.handles.length)
      rw [InternalHandle.OK, hx.2.1, List.count_cons_self]
      exact ⟨hx.2.2, hx.1, by omega⟩
  · simp only [List.length_append, List.length_singleton] at hh
    change s.owners h + s.resident h + _ = 0
    rw [List.count_cons_of_ne (by omega)]
    exact hi.range h (by omega)

theorem Holding.dropLive (hi : s.Holding held) (hr : s.fileHandleCache = some r)
    (hempty : ∀ c, s.caches[r]? = some c → c.items = []) (counter : Option Nat) :
    Holding { s with fileHandleCache := none, inUseFileHandleCounter := counter } held := by
  have hres : ∀ h, s.resident h = 0 := by
    intro h
    cases hc : s.caches[r]? with
    | none => simp [resident, liveValues, hr, hc]
    | some c => simp [resident_of_live hr hc, values_nil_of_items (hempty c hc)]
  refine ⟨hi.caches, fun j d hd _ => ?_, fun h x hx => ?_, fun h hh => ?_⟩
  · by_cases hj : j = r
    · exact hempty d (hj ▸ hd)
    · exact hi.dead j d hd (by rw [hr]; simpa using fun he => hj he.symm)
  · have hn := hi.handles h x hx
    rw [hres h] at hn
    exact hn
  · have hn := hi.range h hh
    rw [hres h] at hn
    exact hn

end Ledger

/-! ## Calls -/

variable {parallelAccess : Nat} {s s' : HandleState}

theorem clearFileHandleCache_inv (hi : Inv s) : Inv s.clearFileHandleCache := by
  unfold clearFileHandleCache
  cases hr : s.fileHandleCache with
  | none => exact hi
  | some r =>
    cases hc : s.caches[r]? with
    | none => simpa only [hc] using hi
    | some c =>
      simp only [hc]
      have hset := Holding.setCache [] c.values hi hr hc (ExclusiveMultiLruCache.clearAndGetValues_ok c)
        (by simp [ExclusiveMultiLruCache.values])
      refine hset.closeAll.dropLive (by rw [closeAll_fileHandleCache]; exact hr) (fun d hd => ?_) none
      rw [closeAll_caches] at hd
      rcases (getElem?_set_iff hc).mp hd with ⟨_, rfl⟩ | ⟨hne, _⟩
      · rfl
      · exact absurd rfl hne

theorem clearFileHandleCachePath_inv (hi : Inv s) {filepath : String}
    (hs : s.clearFileHandleCachePath parallelAccess filepath = .ok s') : Inv s' := by
  unfold clearFileHandleCachePath at hs
  cases hr : s.fileHandleCache with
  | none => rw [hr] at hs; cases hs; exact hi
  | some r =>
    rw [hr] at hs
    cases hc : s.caches[r]? with
    | none => simp only [hc] at hs; cases hs; exact hi
    | some c =>
      simp only [hc] at hs
      obtain ⟨gone, c', hrun, hok, hitems, _⟩ := ExclusiveMultiLruCache.clearAndGetValuesFrom_spec
        (hi.caches c (List.mem_of_getElem? hc)) (cacheKey parallelAccess filepath 0) (·.path == filepath)
      rw [hrun] at hs
      cases hs
      have hvalues := hitems.map Prod.snd
      rw [List.map_append] at hvalues
      exact (Holding.setCache [] (gone.map Prod.snd) hi hr hc hok hvalues).closeAll

theorem setFileHandleCache_inv (hi : Inv s) : Inv s.setFileHandleCache := by
  unfold setFileHandleCache
  split
  · -- the counter is no matter
    have hcounter : ∀ {t : HandleState}, Inv t → Inv (match t.inUseFileHandleCounter with
        | some _ => t
        | none => { t with inUseFileHandleCounter := some t.counters.length, counters := t.counters ++ [fun _ => 0] }) := by
      intro t ht
      split
      · exact ht
      · exact ⟨ht.caches, ht.dead, ht.handles, ht.range⟩
    refine hcounter ?_
    cases hr : s.fileHandleCache with
    | some r => exact hi
    | none =>
      have hres : ∀ h, resident { s with
          fileHandleCache := some s.caches.length, caches := s.caches ++ [newCache s.config] } h = s.resident h := by
        intro h
        rw [resident_of_none hr, resident_of_live rfl (List.getElem?_concat_length ..)]
        rfl
      refine ⟨fun c hc => ?_, fun j c hc hj => ?_, fun h x hx => ?_, fun h hh => ?_⟩
      · rcases List.mem_append.mp hc with hc | hc
        · exact hi.caches c hc
        · rw [List.mem_singleton.mp hc]
          exact ⟨.refl _, by simp [newCache], rfl⟩
      · rcases getElem?_snoc_iff.mp hc with hc | ⟨rfl, _⟩
        · exact hi.dead j c hc (by simp [hr])
        · exact absurd rfl hj
      · rw [hres]
        exact hi.handles h x hx
      · rw [hres]
        exact hi.range h hh
  · exact clearFileHandleCache_inv hi

theorem createCacheFileHandleForRead_inv {h : Nat} (hi : s.Holding [h]) :
    Inv (s.createCacheFileHandleForRead parallelAccess h) := by
  unfold createCacheFileHandleForRead
  cases hx : s.handles[h]? with
  | none =>
    have hzero := hi.range h (List.getElem?_eq_none_iff.mp hx)
    rw [List.count_singleton_self] at hzero
    omega
  | some x =>
    simp only [hi.touch_eq (List.mem_singleton_self h)]
    exact hi.own rfl _

theorem openInternal_inv (hi : Inv s) (path : String) (flags : Nat) (opens : Bool) :
    Inv (s.openInternal parallelAccess path flags opens) := by
  unfold openInternal
  split
  · exact createCacheFileHandleForRead_inv (hi.opened ⟨rfl, rfl, rfl⟩)
  · exact hi

theorem getOrCreateFileHandleForRead_inv (hi : Inv s) {path : String} {flags now : Nat} {opens : Bool}
    (hs : s.getOrCreateFileHandleForRead parallelAccess path flags now opens = .ok s') : Inv s' := by
  unfold getOrCreateFileHandleForRead at hs
  cases hr : s.fileHandleCache with
  | none => rw [hr] at hs; cases hs; exact openInternal_inv hi path flags opens
  | some r =>
    rw [hr] at hs
    cases hc : s.caches[r]? with
    | none => simp only [hc] at hs; cases hs
    | some c =>
      obtain ⟨evicted, target, c', hrun, hok, hitems⟩ := ExclusiveMultiLruCache.getAndPop_spec
        (hi.caches c (List.mem_of_getElem? hc)) now (cacheKey parallelAccess path flags)
      simp only [hc, hrun] at hs
      have hvalues := hitems.map Prod.snd
      rw [List.map_append, List.map_map] at hvalues
      have hset := Holding.setCache [] (evicted ++ target.toList) hi hr hc hok
        (by simpa [Function.comp_def, ExclusiveMultiLruCache.values] using hvalues)
      rw [List.append_nil] at hset
      cases target with
      | some h => cases hs; exact createCacheFileHandleForRead_inv hset.closeAll
      | none =>
        dsimp only at hs
        split at hs
        · cases hs
        · cases hs
          rw [Option.toList_none, List.append_nil, ← List.append_nil evicted] at hset
          exact openInternal_inv hset.closeAll path flags opens

theorem openFileExtended_inv (hi : Inv s) {path : String} {flags now : Nat} {opens : Bool}
    (hs : s.openFileExtended parallelAccess path flags now opens = .ok s') : Inv s' := by
  unfold openFileExtended at hs
  obtain ⟨t, ht, hs⟩ := except_bind_eq_ok.mp hs
  refine getOrCreateFileHandleForRead_inv ?_ hs
  split at ht
  · exact clearFileHandleCachePath_inv (setFileHandleCache_inv hi) ht
  · cases ht
    exact setFileHandleCache_inv hi

theorem dropCache_of_live {r : Nat} (hr : s.fileHandleCache = some r) : s.dropCache r = s := if_pos (.inl hr)

/-- A handle destroyed while its cache is the live one is put back into it. -/
theorem destroyFile_inv (hi : Inv s) {i now : Nat} {f : CacheFileSystemHandle} (hf : s.files[i]? = some f)
    (ha : f.alive = true) {r : Nat} (hfr : f.fileHandleCache = some r) (hr : s.fileHandleCache = some r)
    (hs : s.destroyFile i f now = .ok s') : Inv s' := by
  have hdis := Holding.disown hi hf ha
  rw [destroyFile, show (s.touch f.internal).disown i f = (s.disown i f).touch f.internal from rfl,
    hdis.touch_eq (List.mem_cons_self ..), dtorCallback, hfr] at hs
  dsimp only at hs
  split at hs
  · rename_i c q counter hc hcounter
    have hok := hdis.caches c (List.mem_of_getElem? hc)
    obtain ⟨evicted, c', hput, hok', hitems⟩ := ExclusiveMultiLruCache.put_spec hok now f.cacheKey f.internal
    rw [hput, ok_bind] at hs
    have hvalues := hitems.map Prod.snd
    have hevicted : evicted.toList.map Prod.snd = (evicted.map Prod.snd).toList := by cases evicted <;> rfl
    rw [List.map_append, hevicted] at hvalues
    have hclosed := (Holding.setCache [f.internal] _ hdis hr hc hok' hvalues).closeAll
    obtain ⟨counter', _, hs⟩ := except_map_eq_ok.mp hs
    rw [← hs, dropCache_of_live]
    · exact ⟨hclosed.caches, hclosed.dead, hclosed.handles, hclosed.range⟩
    · exact (closeAll_fileHandleCache _ _).trans hr
  · cases hs

theorem destroyInternal_not_closedOnce {h : Nat} {x : InternalHandle} (hx : s.handles[h]? = some x)
    (hcloses : x.closes = 0) : ¬ClosedOnce (s.destroyInternal h) := by
  intro honce
  have hself : (s.destroyInternal h).handles[h]? = some { x with destroyed := true } := by
    simp [destroyInternal, modifyHandle, hx]
  have hone := honce.destroyed _ (List.mem_of_getElem? hself) rfl
  change x.closes = 1 at hone
  omega

/-- A handle destroyed otherwise is let go, or left in a cache that is not there any more. -/
theorem destroyFile_breaks (hi : Inv s) {i now : Nat} {f : CacheFileSystemHandle} (hf : s.files[i]? = some f)
    (ha : f.alive = true) (hg : ¬(f.fileHandleCache.isSome = true ∧ f.fileHandleCache = s.fileHandleCache))
    (hs : s.destroyFile i f now = .ok s') : ¬ClosedOnce s' := by
  have hdis := Holding.disown hi hf ha
  have hmem : f.internal ∈ [f.internal] := List.mem_cons_self ..
  rw [destroyFile, show (s.touch f.internal).disown i f = (s.disown i f).touch f.internal from rfl,
    hdis.touch_eq hmem, dtorCallback] at hs
  obtain ⟨x, hx⟩ : ∃ x, (s.disown i f).handles[f.internal]? = some x := by
    cases hx : (s.disown i f).handles[f.internal]? with
    | some x => exact ⟨x, rfl⟩
    | none =>
      have hzero := hdis.range _ (List.getElem?_eq_none_iff.mp hx)
      rw [List.count_singleton_self] at hzero
      omega
  obtain ⟨hcloses, hlive⟩ := hdis.fresh hmem hx
  have hunowned := (hdis.handles _ x hx).2
  rw [hlive, if_neg Bool.false_ne_true, List.count_singleton_self] at hunowned
  cases hr : f.fileHandleCache with
  | none =>
    rw [hr] at hs
    dsimp only at hs
    split at hs
    · cases hs
      exact destroyInternal_not_closedOnce hx hcloses
    · cases hs
  | some r =>
    rw [hr] at hs hg
    dsimp only at hs
    split at hs
    · rename_i c q counter hc hcounter
      have hne : s.fileHandleCache ≠ some r := fun he => hg ⟨rfl, he.symm⟩
      have hok := hdis.caches c (List.mem_of_getElem? hc)
      have hitems := ExclusiveMultiLruCache.emplace_items c now f.cacheKey f.internal
      rw [ExclusiveMultiLruCache.put_of_empty hok (hdis.dead r c hc hne), ok_bind] at hs
      rw [hdis.dead r c hc hne, List.perm_singleton] at hitems
      generalize c.emplace now f.cacheKey f.internal = c' at hs hitems
      obtain ⟨counter', _, rfl⟩ := except_map_eq_ok.mp hs
      unfold dropCache
      split
      · -- another handle has the cache still
        intro honce
        have howned := honce.owned f.internal x hx hlive
        have hres : resident
            { (s.disown i f).setCache r c' with counters := (s.disown i f).counters.set q counter' }
            f.internal = (s.disown i f).resident f.internal := by
          simp only [resident, liveValues, setCache]
          cases hr' : (s.disown i f).fileHandleCache with
          | none => rfl
          | some r' =>
            have hrr : r ≠ r' := fun he => hne (he ▸ hr')
            simp [List.getElem?_set_ne hrr]
        change (s.disown i f).owners f.internal + resident
          { (s.disown i f).setCache r c' with counters := (s.disown i f).counters.set q counter' } f.internal = 1 at howned
        omega
      · have hself : ((s.disown i f).setCache r c').caches[r]? = some c' :=
          (getElem?_set_iff hc).mpr (.inl ⟨rfl, rfl⟩)
        have hvalues : c'.values = [f.internal] := by rw [ExclusiveMultiLruCache.values, hitems]; rfl
        split
        · rename_i hnone
          exact absurd (hnone.symm.trans hself) (by simp)
        · rename_i d hd
          cases hd.symm.trans hself
          rw [hvalues]
          exact destroyInternal_not_closedOnce hx hcloses
    · cases hs

theorem Inv.touch_owned (hi : Inv s) {i : Nat} {f : CacheFileSystemHandle} (hf : s.files[i]? = some f)
    (ha : f.alive = true) : s.touch f.internal = s := by
  have htouch := (Holding.disown hi hf ha).touch_eq (List.mem_cons_self ..)
  exact congrArg (fun t : HandleState => { s with handles := t.handles }) htouch

theorem step_inv {a : Act} (hi : Inv s) (hg : OpenedInLiveCache s a)
    (hs : step parallelAccess s a = some s') : Inv s' := by
  cases a with
  | setConfig config => cases hs; exact ⟨hi.caches, hi.dead, hi.handles, hi.range⟩
  | «open» path flags now opens =>
    simp only [step] at hs
    split at hs
    · exact openFileExtended_inv hi (toOption_eq_some.mp hs)
    · cases hs
  | use i =>
    obtain ⟨f, hf, hs⟩ := Option.bind_eq_some_iff.mp hs
    split at hs
    · rename_i ha
      cases hs
      rw [hi.touch_owned hf ha]
      exact hi
    · cases hs
  | destroy i now =>
    obtain ⟨f, hf, hs⟩ := Option.bind_eq_some_iff.mp hs
    split at hs
    · rename_i ha
      obtain ⟨hsome, hsame⟩ := hg f hf
      obtain ⟨r, hr⟩ := Option.isSome_iff_exists.mp hsome
      exact destroyFile_inv hi hf ha hr (hsame ▸ hr) (toOption_eq_some.mp hs)
    · cases hs
  | clearFileHandleCache => cases hs; exact clearFileHandleCache_inv hi
  | clearFileHandleCachePath filepath => exact clearFileHandleCachePath_inv hi (toOption_eq_some.mp hs)
  | destroyFileSystem =>
    simp only [step] at hs
    split at hs
    · cases hs
      have hclear := clearFileHandleCache_inv hi
      exact ⟨hclear.caches, hclear.dead, hclear.handles, hclear.range⟩
    · cases hs

/-! ## No assertion fails

In any run, guarded or not: the caches and the counters are there in
pairs, and a counter has counted every live handle that will decrement it. -/

/-- Pointers to a cache and a counter that were made together. -/
def Pair (s : HandleState) (cache counter : Option Nat) : Prop :=
  (cache = none ∧ counter = none) ∨
    ∃ r q, cache = some r ∧ counter = some q ∧ r < s.caches.length ∧ q < s.counters.length

def counted (q : Nat) (key : FileHandleCacheKey) (f : CacheFileSystemHandle) : Bool :=
  f.alive && f.inUseFileHandleCounter == some q && f.cacheKey == key

structure Refs (s : HandleState) : Prop where
  caches : ∀ c ∈ s.caches, c.OK
  live : s.Pair s.fileHandleCache s.inUseFileHandleCounter
  files : ∀ f ∈ s.files, s.Pair f.fileHandleCache f.inUseFileHandleCounter
  counts : ∀ (q : Nat) c, s.counters[q]? = some c → ∀ key, s.files.countP (counted q key) ≤ c key

theorem Pair.mono {o p : Option Nat} (h : s.Pair o p) (hcaches : s.caches.length ≤ s'.caches.length)
    (hcounters : s.counters.length ≤ s'.counters.length) : s'.Pair o p := by
  rcases h with h | ⟨r, q, ho, hp, hr, hq⟩
  · exact .inl h
  · exact .inr ⟨r, q, ho, hp, by omega, by omega⟩

theorem Refs.init (config : HandleConfig) : Refs { config } := ⟨by simp, .inl ⟨rfl, rfl⟩, by simp, by simp⟩

theorem Refs.setHandles (hi : Refs s) (handles : List InternalHandle) : Refs { s with handles } :=
  ⟨hi.caches, hi.live, hi.files, hi.counts⟩

theorem Refs.closeAll (hi : Refs s) (hs : List Nat) : Refs (s.closeAll hs) := by
  induction hs generalizing s with
  | nil => exact hi
  | cons h hs ih => exact ih (hi.setHandles _)

theorem Refs.destroyAll (hi : Refs s) (hs : List Nat) : Refs (hs.foldl destroyInternal s) := by
  induction hs generalizing s with
  | nil => exact hi
  | cons h hs ih => exact ih (hi.setHandles _)

theorem Refs.setCache (hi : Refs s) (r : Nat) {c : FileHandleCache} (hok : c.OK) : Refs (s.setCache r c) := by
  have hlen : s.caches.length ≤ (s.setCache r c).caches.length := by simp [HandleState.setCache]
  have hfiles : ∀ f ∈ s.files, (s.setCache r c).Pair f.fileHandleCache f.inUseFileHandleCounter :=
    fun f hf => (hi.files f hf).mono hlen (Nat.le_refl _)
  refine ⟨fun d hd => ?_, hi.live.mono hlen (Nat.le_refl _), hfiles, hi.counts⟩
  rcases List.mem_or_eq_of_mem_set hd with hd | rfl
  · exact hi.caches d hd
  · exact hok

theorem Refs.clear (hi : Refs s) : Refs s.clearFileHandleCache := by
  unfold clearFileHandleCache
  split
  · exact hi
  split
  · exact hi
  · rename_i r _ _ c hc
    have h := (hi.setCache r (ExclusiveMultiLruCache.clearAndGetValues_ok c)).closeAll c.values
    exact ⟨h.caches, .inl ⟨rfl, rfl⟩, h.files, h.counts⟩

theorem Refs.clearPath (hi : Refs s) (parallelAccess : Nat) (filepath : String) :
    ∃ s', s.clearFileHandleCachePath parallelAccess filepath = .ok s' ∧ Refs s' := by
  unfold clearFileHandleCachePath
  split
  · exact ⟨s, rfl, hi⟩
  split
  · exact ⟨s, rfl, hi⟩
  · rename_i r _ _ c hc
    obtain ⟨gone, c', hrun, hok, _⟩ := ExclusiveMultiLruCache.clearAndGetValuesFrom_spec
      (hi.caches c (List.mem_of_getElem? hc)) (cacheKey parallelAccess filepath 0) (·.path == filepath)
    rw [hrun]
    exact ⟨_, rfl, (hi.setCache r hok).closeAll _⟩

theorem Refs.set (hi : Refs s) : Refs s.setFileHandleCache := by
  unfold setFileHandleCache
  split
  · rcases hi.live with ⟨hr, hq⟩ | ⟨r, q, hr, hq, _⟩
    · simp only [hr, hq]
      refine ⟨fun c hc => ?_, .inr ⟨_, _, rfl, rfl, by simp, by simp⟩, fun f hf => ?_, fun q c hc key => ?_⟩
      · rcases List.mem_append.mp hc with hc | hc
        · exact hi.caches c hc
        · rw [List.mem_singleton.mp hc]
          exact ⟨.refl _, by simp [newCache], rfl⟩
      · exact (hi.files f hf).mono (by simp) (by simp)
      · rcases getElem?_snoc_iff.mp hc with hc | ⟨rfl, rfl⟩
        · exact hi.counts q c hc key
        · -- nobody has captured the new counter
          rw [Nat.le_zero, List.countP_eq_zero]
          intro f hf
          rcases hi.files f hf with ⟨_, hp⟩ | ⟨_, q', _, hp, _, hlt⟩
          · simp [counted, hp]
          · have hne : q' ≠ s.counters.length := by omega
            simp [counted, hp, hne]
    · simp only [hr, hq]
      exact hi
  · exact hi.clear

theorem Refs.snoc (hi : Refs s) {f : CacheFileSystemHandle} {counters : List InUseFileHandleCounter}
    (hlen : counters.length = s.counters.length) (hp : s.Pair f.fileHandleCache f.inUseFileHandleCounter)
    (hcounts : ∀ (q : Nat) c, counters[q]? = some c → ∀ key,
      s.files.countP (counted q key) + (if counted q key f then 1 else 0) ≤ c key) :
    Refs { s with counters, files := s.files ++ [f] } := by
  have hmono : ∀ {o p : Option Nat}, s.Pair o p → Pair { s with counters, files := s.files ++ [f] } o p :=
    fun hp =>
    hp.mono (Nat.le_refl _) (Nat.le_of_eq hlen.symm)
  refine ⟨hi.caches, hmono hi.live, fun g hg => ?_, fun q c hc key => ?_⟩
  · rcases List.mem_append.mp hg with hg | hg
    · exact hmono (hi.files g hg)
    · rw [List.mem_singleton.mp hg]
      exact hmono hp
  · simpa [List.countP_append, List.countP_cons] using hcounts q c hc key

/-- A new handle is counted in the counter it captures. -/
theorem Refs.create (hi : Refs s) (h : Nat) : Refs (s.createCacheFileHandleForRead parallelAccess h) := by
  unfold createCacheFileHandleForRead
  cases hx : s.handles[h]? with
  | none => exact hi
  | some x =>
    refine Refs.snoc (hi.setHandles _) ?_ hi.live fun q c hc key => ?_
    · cases hq : s.inUseFileHandleCounter <;> simp [touch, modifyHandle, hq]
    · change s.files.countP (counted q key) + _ ≤ c key
      cases hq : s.inUseFileHandleCounter with
      | none =>
        have hc : s.counters[q]? = some c := by simpa [touch, modifyHandle, hq] using hc
        simpa [counted, touch, modifyHandle, hq] using hi.counts q c hc key
      | some q' =>
        let key' := cacheKey parallelAccess x.path x.flags
        have hc : (s.counters.modify q' fun c => Function.update c key' (c key' + 1))[q]? = some c := by
          simpa only [touch, modifyHandle, hq] using hc
        rw [List.getElem?_modify] at hc
        by_cases hqq : q' = q
        · subst hqq
          simp only [if_true, Option.map_eq_map] at hc
          obtain ⟨c₀, hc₀, rfl⟩ := Option.map_eq_some_iff.mp hc
          have hle := hi.counts q' c₀ hc₀ key
          by_cases hk : cacheKey parallelAccess x.path x.flags = key
          · subst hk
            simpa [counted, touch, modifyHandle, hq, key'] using hle
          · have hk' : key ≠ cacheKey parallelAccess x.path x.flags := fun he => hk he.symm
            simpa [counted, touch, modifyHandle, hq, key', hk, hk'] using hle
        · have hc : s.counters[q]? = some c := by simpa [hqq] using hc
          simpa [counted, touch, modifyHandle, hq, hqq] using hi.counts q c hc key

theorem Refs.openInternal (hi : Refs s) (path : String) (flags : Nat) (opens : Bool) :
    Refs (s.openInternal parallelAccess path flags opens) := by
  unfold HandleState.openInternal
  split
  · exact Refs.create (hi.setHandles _) _
  · exact hi

theorem Refs.open (hi : Refs s) (parallelAccess : Nat) (path : String) (flags now : Nat) (opens : Bool) :
    ∃ s', s.openFileExtended parallelAccess path flags now opens = .ok s' ∧ Refs s' := by
  have hget : ∀ {t : HandleState}, Refs t →
      ∃ s', t.getOrCreateFileHandleForRead parallelAccess path flags now opens = .ok s' ∧ Refs s' := by
    intro t ht
    unfold getOrCreateFileHandleForRead
    rcases ht.live with ⟨hr, _⟩ | ⟨r, q, hr, hq, hlt, _⟩
    · rw [hr]
      exact ⟨_, rfl, ht.openInternal ..⟩
    · have hc := List.getElem?_eq_getElem hlt
      obtain ⟨evicted, target, c', hrun, hok, _⟩ := ExclusiveMultiLruCache.getAndPop_spec
        (ht.caches _ (List.getElem_mem hlt)) now (cacheKey parallelAccess path flags)
      have hset := (ht.setCache r hok).closeAll evicted
      simp only [hr, hc, hrun]
      cases target with
      | some h => exact ⟨_, rfl, hset.create h⟩
      | none =>
        rcases hset.live with ⟨hnone, _⟩ | ⟨_, q', _, hq', _⟩
        · rw [closeAll_fileHandleCache] at hnone
          exact absurd (hr.symm.trans hnone) (by simp)
        · simp only [hq']
          exact ⟨_, rfl, hset.openInternal ..⟩
  obtain ⟨t, ht, hrefs⟩ : ∃ t, (if s.setFileHandleCache.config.clearCacheOnWrite then
      s.setFileHandleCache.clearFileHandleCachePath parallelAccess path else .ok s.setFileHandleCache) =
      .ok t ∧ Refs t := by
    split
    · exact hi.set.clearPath parallelAccess path
    · exact ⟨_, rfl, hi.set⟩
  rw [openFileExtended, ht, ok_bind]
  exact hget hrefs

theorem Refs.setCounters (hi : Refs s) {counters : List InUseFileHandleCounter}
    (hlen : s.counters.length ≤ counters.length)
    (hcounts : ∀ (q : Nat) c, counters[q]? = some c → ∀ key, s.files.countP (counted q key) ≤ c key) :
    Refs { s with counters } :=
  ⟨hi.caches, hi.live.mono (Nat.le_refl _) hlen, fun f hf => (hi.files f hf).mono (Nat.le_refl _) hlen, hcounts⟩

theorem Refs.dropCache (hi : Refs s) (r : Nat) : Refs (s.dropCache r) := by
  unfold HandleState.dropCache
  split
  · exact hi
  split
  · exact hi
  · rename_i c _
    exact (hi.setCache r (ExclusiveMultiLruCache.clearAndGetValues_ok c)).destroyAll c.values

/-- The counter has counted the handle. -/
theorem Refs.destroy (hi : Refs s) {i : Nat} {f : CacheFileSystemHandle} (hf : s.files[i]? = some f)
    (ha : f.alive = true) (now : Nat) : ∃ s', s.destroyFile i f now = .ok s' ∧ Refs s' := by
  have hset : ∀ q key, (s.files.set i { f with alive := false }).countP (counted q key) +
      (if counted q key f then 1 else 0) = s.files.countP (counted q key) := by
    intro q key
    have h := countP_set_add (p := counted q key) hf { f with alive := false }
    simpa [counted] using h
  have hfiles : ∀ g ∈ s.files.set i { f with alive := false },
      s.Pair g.fileHandleCache g.inUseFileHandleCounter := by
    intro g hg
    rcases List.mem_or_eq_of_mem_set hg with hg | rfl
    · exact hi.files g hg
    · exact hi.files f (List.mem_of_getElem? hf)
  have ht : Refs ((s.touch f.internal).disown i f) := by
    refine ⟨hi.caches, hi.live, hfiles, fun q c hc key => ?_⟩
    have hle := hi.counts q c hc key
    have hq := hset q key
    change (s.files.set i { f with alive := false }).countP _ ≤ _
    omega
  rw [destroyFile, dtorCallback]
  rcases hi.files f (List.mem_of_getElem? hf) with ⟨hr, hq⟩ | ⟨r, q, hr, hq, hlt, hlt'⟩
  · rw [hr, hq]
    exact ⟨_, rfl, ht.setHandles _⟩
  · have hc : ((s.touch f.internal).disown i f).caches[r]? = some s.caches[r] := List.getElem?_eq_getElem hlt
    have hcounter : ((s.touch f.internal).disown i f).counters[q]? = some s.counters[q] :=
      List.getElem?_eq_getElem hlt'
    have hcounted : counted q f.cacheKey f = true := by simp [counted, ha, hq]
    have hpos : s.counters[q] f.cacheKey ≠ 0 := by
      have hle := hi.counts q _ (List.getElem?_eq_getElem hlt') f.cacheKey
      have hmem := hset q f.cacheKey
      rw [if_pos hcounted] at hmem
      omega
    obtain ⟨evicted, c', hput, hok, _⟩ := ExclusiveMultiLruCache.put_spec
      (hi.caches _ (List.getElem_mem hlt)) now f.cacheKey f.internal
    rw [hr]
    simp only [hc, hq, Option.bind_some, hcounter, Option.map_some, hput, ok_bind,
      InUseFileHandleCounter.decrement,
      if_neg hpos, Except.map]
    refine ⟨_, rfl, Refs.dropCache ?_ r⟩
    obtain ⟨handles, hframe⟩ := closeAll_frame (((s.touch f.internal).disown i f).setCache r c')
      (evicted.map Prod.snd).toList
    rw [hframe]
    refine ((ht.setCache r hok).setHandles handles).setCounters
      (by simp [HandleState.setCache]) fun q' d hd key => ?_
    change (s.files.set i { f with alive := false }).countP _ ≤ _
    rcases (getElem?_set_iff hcounter).mp hd with ⟨rfl, rfl⟩ | ⟨_, hd⟩
    · have hle := hi.counts q' _ (List.getElem?_eq_getElem hlt') key
      have hq' := hset q' key
      by_cases hk : key = f.cacheKey
      · subst hk
        rw [if_pos hcounted] at hq'
        rw [Function.update_self]
        omega
      · rw [Function.update_of_ne hk]
        omega
    · exact ht.counts q' d hd key

theorem step_refs {a : Act} (hi : Refs s) (hs : step parallelAccess s a = some s') : Refs s' := by
  cases a with
  | setConfig config => cases hs; exact ⟨hi.caches, hi.live, hi.files, hi.counts⟩
  | «open» path flags now opens =>
    obtain ⟨t, ht, hrefs⟩ := hi.open parallelAccess path flags now opens
    simp only [step, ht] at hs
    split at hs
    · cases hs; exact hrefs
    · cases hs
  | use i =>
    obtain ⟨f, _, hs⟩ := Option.bind_eq_some_iff.mp hs
    split at hs
    · cases hs; exact hi.setHandles _
    · cases hs
  | destroy i now =>
    obtain ⟨f, hf, hs⟩ := Option.bind_eq_some_iff.mp hs
    split at hs
    · rename_i ha
      obtain ⟨t, ht, hrefs⟩ := hi.destroy hf ha now
      rw [ht] at hs
      cases hs
      exact hrefs
    · cases hs
  | clearFileHandleCache => cases hs; exact hi.clear
  | clearFileHandleCachePath filepath =>
    obtain ⟨t, ht, hrefs⟩ := hi.clearPath parallelAccess filepath
    simp only [step, ht] at hs
    cases hs
    exact hrefs
  | destroyFileSystem =>
    simp only [step] at hs
    split at hs
    · cases hs
      have hclear := hi.clear
      exact ⟨hclear.caches, hclear.live, hclear.files, hclear.counts⟩
    · cases hs

/-- What a caller may do: use what is there. -/
def Callable (s : HandleState) : Act → Prop
  | .open .. | .destroyFileSystem => s.alive = true
  | .use i | .destroy i _ => ∃ f, s.files[i]? = some f ∧ f.alive = true
  | _ => True

/-- No assertion fails: after any run, what may be called returns. -/
theorem step_total {config : HandleConfig} {acts : List Act}
    (hrun : exec (step parallelAccess) { config } acts = some s) {a : Act} (ha : s.Callable a) :
    ∃ s', step parallelAccess s a = some s' := by
  have hi : Refs s := exec_invariant (fun _ _ _ => step_refs) hrun (Refs.init config)
  cases a with
  | setConfig | clearFileHandleCache => exact ⟨_, rfl⟩
  | «open» path flags now opens =>
    obtain ⟨t, ht, _⟩ := hi.open parallelAccess path flags now opens
    exact ⟨t, by simp only [step, ht, if_pos (show s.alive = true from ha)]; rfl⟩
  | use i =>
    obtain ⟨f, hf, ha⟩ := ha
    exact ⟨s.touch f.internal, by simp [step, hf, ha]⟩
  | destroy i now =>
    obtain ⟨f, hf, ha⟩ := ha
    obtain ⟨t, ht, _⟩ := hi.destroy hf ha now
    exact ⟨t, by simp only [step, hf, Option.bind_some, if_pos ha, ht]; rfl⟩
  | clearFileHandleCachePath filepath =>
    obtain ⟨t, ht, _⟩ := hi.clearPath parallelAccess filepath
    exact ⟨t, by simp only [step, ht]; rfl⟩
  | destroyFileSystem => exact ⟨_, if_pos ha⟩

theorem step_breaks {a : Act} (hi : Inv s) (hg : ¬OpenedInLiveCache s a)
    (hs : step parallelAccess s a = some s') :
    ¬ClosedOnce s' := by
  cases a with
  | destroy i now =>
    obtain ⟨f, hf, hs⟩ := Option.bind_eq_some_iff.mp hs
    split at hs
    · rename_i ha
      refine destroyFile_breaks hi hf ha (fun h => hg fun g hgf => ?_) (toOption_eq_some.mp hs)
      cases hf.symm.trans hgf
      exact h
    · cases hs
  | setConfig | «open» | use | clearFileHandleCache | clearFileHandleCachePath | destroyFileSystem =>
    exact absurd trivial hg

/-- **Internal handles are closed exactly once** in the runs that destroy
each handle while the cache it was opened with is the live one, and in no
others. -/
theorem handles_closed_once_iff (parallelAccess : Nat) (config : HandleConfig) (acts : List Act) (s : HandleState)
    (hrun : exec (step parallelAccess) { config } acts = some s) :
    Guarded (step parallelAccess) OpenedInLiveCache { config } acts ↔
      ∀ pre, pre <+: acts → ∀ t, exec (step parallelAccess) { config } pre = some t → ClosedOnce t := by
  constructor
  · rintro hg pre ⟨rest, rfl⟩ t ht
    exact (exec_guarded_invariant (fun _ _ _ => step_inv) (guarded_append.mp hg).1 ht
      (Inv.init config)).closedOnce
  · exact guarded_of_prefixes (I := Inv) (fun _ _ _ => step_inv) (fun _ _ _ => step_breaks) hrun (Inv.init config)

/-- Two handles of one file, a cache for one: the second to go pushes the
first out, which is closed; the other is handed out again. -/
def reuseRun : List Act :=
  [.open "f" 1 0 true, .open "f" 1 0 true, .use 0, .destroy 0 1, .destroy 1 2, .open "f" 1 3 true, .use 2, .destroy 2 4,
    .clearFileHandleCachePath "f", .destroyFileSystem]

theorem handles_closed_once_iff_reuse :
    ∃ s, exec (step 256) { config := ⟨true, 1, 0, false⟩ } reuseRun = some s ∧ ClosedOnce s := by
  have hsome : (exec (step 256) { config := ⟨true, 1, 0, false⟩ } reuseRun).isSome = true := by decide +kernel
  obtain ⟨s, hs⟩ := Option.isSome_iff_exists.mp hsome
  exact ⟨s, hs, (handles_closed_once_iff 256 _ reuseRun s hs).mp (by decide +kernel) reuseRun
    (List.prefix_refl _) s hs⟩

/-- With the cache disabled, and with the cache cleared while the handle is
open, the internal handle is destroyed and was never closed. -/
theorem handle_never_closed :
    (∃ s, exec (step 256) { config := ⟨false, 1, 0, false⟩ } [.open "f" 1 0 true, .destroy 0 1] = some s ∧
      ¬ClosedOnce s) ∧
    ∃ s, exec (step 256) { config := ⟨true, 1, 0, false⟩ }
      [.open "f" 1 0 true, .clearFileHandleCache, .destroy 0 1] = some s ∧
      ¬ClosedOnce s := by
  have hbroken : ∀ {s : HandleState},
      s.handles = [{ path := "f", flags := 257, closes := 0, destroyed := true }] →
      ¬ClosedOnce s := by
    intro s hs honce
    have hone := honce.destroyed { path := "f", flags := 257, closes := 0, destroyed := true }
      (by rw [hs]; simp) rfl
    cases hone
  have hdisabled : (exec (step 256) { config := ⟨false, 1, 0, false⟩ }
      [.open "f" 1 0 true, .destroy 0 1]).map (·.handles) =
      some [{ path := "f", flags := 257, closes := 0, destroyed := true }] := by decide +kernel
  have hcleared : (exec (step 256) { config := ⟨true, 1, 0, false⟩ }
      [.open "f" 1 0 true, .clearFileHandleCache, .destroy 0 1]).map (·.handles) =
      some [{ path := "f", flags := 257, closes := 0, destroyed := true }] := by decide +kernel
  obtain ⟨s, hs, hh⟩ := Option.map_eq_some_iff.mp hdisabled
  obtain ⟨t, ht, ht'⟩ := Option.map_eq_some_iff.mp hcleared
  exact ⟨⟨s, hs, hbroken hh⟩, ⟨t, ht, hbroken ht'⟩⟩

end HandleState

end ReadCacheFs
