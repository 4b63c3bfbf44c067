/-
Removing a file while others open, query and read it.

`TryRemoveFile`, `RemoveFile` and `RemoveFiles` clear the caches of their
paths first, and only then have the internal filesystem remove the files.
The machine here takes one operation of one call at a time: a lookup, an
operation of the internal filesystem, a `Put`, the clear of one cache.
Which of its entries a cache keeps and for how long is left open.

A path has one file after another. A file is known by how many were removed
from its path before it.
-/
import Mathlib.Data.List.Basic
import ReadCacheFs.Lib.Runs
import ReadCacheFs.DiskInvalidation

namespace ReadCacheFs

open Lib

structure RemoteFile where
  path : String
  generation : Nat
  deriving DecidableEq, Repr

/-- The caches with entries for a file. -/
inductive CacheLayer
  | metadata
  | fileHandle
  | inMem
  | diskFile
  | diskMem
  deriving DecidableEq, Repr

/-- The order `ClearCache(filepath)` clears them in. -/
def clearOrder : List CacheLayer := [.metadata, .fileHandle, .inMem, .diskFile, .diskMem]

structure CacheEntry where
  /-- The file it was obtained from. -/
  file : RemoteFile
  /-- Of a local cache file: its name is hashed. -/
  hashed : Bool := false
  deriving DecidableEq, Repr

/-- A call, before its next operation. -/
inductive FsCall
  /-- `GetOrCreateFileHandleForRead`: before `GetAndPop`. -/
  | openFile (path : String)
  /-- Before `OpenFile` of the internal filesystem. -/
  | openInternal (path : String)
  | lookUp (layer : CacheLayer) (file : RemoteFile)
  /-- Before `Stats` or `Read` of the internal filesystem. -/
  | fetch (layer : CacheLayer) (file : RemoteFile)
  | put (layer : CacheLayer) (file : RemoteFile)
  /-- `ClearCache` of each path, `n` caches cleared. -/
  | clear (paths : List String) (n : Nat)
  /-- Removals of the internal filesystem, `n` done, and what they removed. -/
  | remove (paths : List String) (n : Nat) (removed : List RemoteFile)
  | done
  deriving DecidableEq, Repr

/-! ## The calls -/

/-- `GetFileSize`, `Stats` and `GetLastModifiedTime`. -/
def getFileSize (file : RemoteFile) : FsCall := .lookUp .metadata file

/-- `InMemoryCacheReader::ProcessCacheReadChunk`. -/
def inMemReadChunk (file : RemoteFile) : FsCall := .lookUp .inMem file

/-- `DiskCacheReader::ProcessCacheReadChunk`. -/
def diskReadChunk (file : RemoteFile) : FsCall := .lookUp .diskMem file

/-- `~CacheFileSystemHandle`: the internal handle goes back to the cache. -/
def closeFile (file : RemoteFile) : FsCall := .put .fileHandle file

def tryRemoveFile (filename : String) : FsCall := .clear [filename] 0

def removeFile (filename : String) : FsCall := .clear [filename] 0

def removeFiles (filenames : List String) : FsCall := .clear filenames 0

/-- The caches a removal clears, one after another. -/
def clears (paths : List String) : List (String × CacheLayer) :=
  paths.flatMap fun path => clearOrder.map (path, ·)

/-! ## The machine -/

/-- A removal that has returned successfully. -/
structure Removal where
  files : List RemoteFile
  started : Nat
  deriving DecidableEq, Repr

structure RemovalState where
  /-- How many files have been removed from a path. -/
  generation : String → Nat := fun _ => 0
  present : String → Bool := fun _ => false
  entries : CacheLayer → List CacheEntry := fun _ => []
  handles : List RemoteFile := []
  calls : List FsCall := []
  removals : List Removal := []

/-- How an operation goes. -/
inductive Outcome
  | hit (entry : CacheEntry)
  | miss
  | ok
  /-- An operation on a handle, with the file that is at its path now. -/
  | current
  | stored (hashed : Bool)
  /-- Nothing is put: another call's creation was joined, there is no space. -/
  | notStored
  | failed
  deriving DecidableEq, Repr

inductive RemovalAct
  | openFile (path : String)
  | closeFile (handle : Nat)
  | getFileSize (handle : Nat)
  | inMemReadChunk (handle : Nat)
  | diskReadChunk (handle : Nat)
  | tryRemoveFile (filename : String)
  | removeFile (filename : String)
  | removeFiles (filenames : List String)
  | step (i : Nat) (outcome : Outcome)
  | create (path : String)
  /-- An entry is evicted, expires or is cleared by another call. -/
  | drop (layer : CacheLayer) (entry : CacheEntry)

namespace RemovalState

def fileAt (s : RemovalState) (path : String) : RemoteFile := ⟨path, s.generation path⟩

def IsCurrent (s : RemovalState) (file : RemoteFile) : Prop :=
  s.present file.path = true ∧ file.generation = s.generation file.path

instance (s : RemovalState) (file : RemoteFile) : Decidable (s.IsCurrent file) :=
  inferInstanceAs (Decidable (_ ∧ _))

def goto (s : RemovalState) (i : Nat) (c : FsCall) : RemovalState := { s with calls := s.calls.set i c }

def start (s : RemovalState) (c : FsCall) : RemovalState := { s with calls := s.calls ++ [c] }

def opened (s : RemovalState) (file : RemoteFile) : RemovalState := { s with handles := s.handles ++ [file] }

def closed (s : RemovalState) (h : Nat) : RemovalState := { s with handles := s.handles.eraseIdx h }

def returned (s : RemovalState) (removed : List RemoteFile) : RemovalState :=
  { s with removals := s.removals ++ [⟨removed, s.calls.length⟩] }

def setEntries (s : RemovalState) (layer : CacheLayer) (entries : List CacheEntry) : RemovalState :=
  { s with entries := fun l => if l = layer then entries else s.entries l }

/-- The clear of one cache for one path. `DiskCacheReader::ClearCache` goes by
names, and does not find the hashed ones. -/
def clearLayer (s : RemovalState) (layer : CacheLayer) (path : String) : RemovalState :=
  s.setEntries layer ((s.entries layer).filter fun e => e.file.path ≠ path ∨ e.hashed)

def removeInternal (s : RemovalState) (path : String) : RemovalState :=
  { s with
    generation := fun p => if p = path then s.generation p + 1 else s.generation p
    present := fun p => p ≠ path && s.present p }

end RemovalState

/-- The internal filesystem removes a file where no cache has an entry for its
path any more; a `Put` stores what was obtained from a file that has not been
removed. -/
def FsCall.LeavesNoEntry (s : RemovalState) : FsCall → Outcome → Prop
  | .remove paths n _, .ok => ∀ path ∈ paths[n]?, ∀ layer ∈ clearOrder, ∀ e ∈ s.entries layer, e.file.path ≠ path
  | .put _ file, .stored _ => s.generation file.path ≤ file.generation
  | _, _ => True

instance FsCall.LeavesNoEntry.decidable (s : RemovalState) :
    (c : FsCall) → (outcome : Outcome) → Decidable (c.LeavesNoEntry s outcome)
  | .remove _ _ _, .ok => inferInstanceAs (Decidable (∀ _ ∈ _, ∀ _ ∈ _, ∀ _ ∈ _, _))
  | .put _ _, .stored _ => inferInstanceAs (Decidable (_ ≤ _))
  | .remove _ _ _, .hit _ | .remove _ _ _, .miss | .remove _ _ _, .current | .remove _ _ _, .stored _
  | .remove _ _ _, .notStored | .remove _ _ _, .failed | .put _ _, .hit _ | .put _ _, .miss | .put _ _, .ok
  | .put _ _, .current | .put _ _, .notStored | .put _ _, .failed | .openFile _, _ | .openInternal _, _ | .lookUp _ _, _
  | .fetch _ _, _ | .clear _ _, _ | .done, _ => inferInstanceAs (Decidable True)

def LeavesNoEntry (s : RemovalState) : RemovalAct → Prop
  | .step i outcome => ∀ c ∈ s.calls[i]?, c.LeavesNoEntry s outcome
  | _ => True

instance LeavesNoEntry.decidable (s : RemovalState) : (a : RemovalAct) → Decidable (LeavesNoEntry s a)
  | .step i outcome => inferInstanceAs (Decidable (∀ c ∈ s.calls[i]?, c.LeavesNoEntry s outcome))
  | .openFile _ | .closeFile _ | .getFileSize _ | .inMemReadChunk _ | .diskReadChunk _ | .tryRemoveFile _
  | .removeFile _ | .removeFiles _ | .create _ | .drop _ _ => inferInstanceAs (Decidable True)

/-! So it is where no `Put` comes in between: -/

/-- The call is going to remove the path, and has cleared the cache for it for the last time. -/
def FsCall.HasCleared (layer : CacheLayer) (path : String) : FsCall → Prop
  | .clear paths n => path ∈ paths ∧ (path, layer) ∉ (clears paths).drop n
  | .remove paths n _ => path ∈ paths.drop n
  | _ => False

instance FsCall.HasCleared.decidable (layer : CacheLayer) (path : String) :
    (c : FsCall) → Decidable (c.HasCleared layer path)
  | .clear _ _ => inferInstanceAs (Decidable (_ ∧ _))
  | .remove _ _ _ => inferInstanceAs (Decidable (_ ∈ _))
  | .openFile _ | .openInternal _ | .lookUp _ _ | .fetch _ _ | .put _ _ | .done => inferInstanceAs (Decidable False)

/-- What a `Put` stores was obtained from the file still at the path, no
removal in flight has already cleared the cache, and the clear will find it. -/
def FsCall.Undisturbed (s : RemovalState) (hashed : Bool) : FsCall → Prop
  | .put layer file =>
    s.IsCurrent file ∧ (∀ c ∈ s.calls, ¬c.HasCleared layer file.path) ∧ (layer = .diskFile → hashed = false)
  | _ => True

instance FsCall.Undisturbed.decidable (s : RemovalState) (hashed : Bool) :
    (c : FsCall) → Decidable (c.Undisturbed s hashed)
  | .put _ _ => inferInstanceAs (Decidable (_ ∧ _ ∧ _))
  | .openFile _ | .openInternal _ | .lookUp _ _ | .fetch _ _ | .clear _ _ | .remove _ _ _ | .done =>
    inferInstanceAs (Decidable True)

def Undisturbed (s : RemovalState) : RemovalAct → Prop
  | .step i (.stored hashed) => ∀ c ∈ s.calls[i]?, c.Undisturbed s hashed
  | _ => True

instance Undisturbed.decidable (s : RemovalState) : (a : RemovalAct) → Decidable (Undisturbed s a)
  | .step i (.stored hashed) => inferInstanceAs (Decidable (∀ c ∈ s.calls[i]?, c.Undisturbed s hashed))
  | .step _ (.hit _) | .step _ .miss | .step _ .ok | .step _ .current | .step _ .notStored | .step _ .failed
  | .openFile _ | .closeFile _ | .getFileSize _ | .inMemReadChunk _ | .diskReadChunk _ | .tryRemoveFile _
  | .removeFile _ | .removeFiles _ | .create _ | .drop _ _ => inferInstanceAs (Decidable True)

/-! ## What is removed is gone -/

/-- What a removal has removed so far. -/
def FsCall.removed : FsCall → List RemoteFile
  | .remove _ _ removed => removed
  | _ => []

namespace RemovalState

def Gone (s : RemovalState) (file : RemoteFile) : Prop := file.generation < s.generation file.path

structure Inv (s : RemovalState) : Prop where
  entries : ∀ layer, ∀ e ∈ s.entries layer, ¬s.Gone e.file
  removed : ∀ c ∈ s.calls, ∀ file ∈ c.removed, s.Gone file
  returned : ∀ r ∈ s.removals, ∀ file ∈ r.files, s.Gone file

variable {s s' : RemovalState} {c : FsCall} {layer : CacheLayer} {path : String} {file : RemoteFile}

theorem Inv.empty : ({} : RemovalState).Inv := by
  refine ⟨?_, ?_, ?_⟩
  · intro layer e he
    cases he
  · intro c hc
    cases hc
  · intro r hr
    cases hr

theorem Inv.goto (h : s.Inv) (hc : ∀ file ∈ c.removed, s.Gone file) (i : Nat) : (s.goto i c).Inv := by
  refine ⟨h.entries, ?_, h.returned⟩
  intro c' hc'
  rcases List.mem_or_eq_of_mem_set hc' with hc' | rfl
  · exact h.removed c' hc'
  · exact hc

theorem Inv.gotoPlain (h : s.Inv) (hc : c.removed = []) (i : Nat) : (s.goto i c).Inv := by
  refine h.goto ?_ i
  intro file hf
  rw [hc] at hf
  cases hf

theorem Inv.start (h : s.Inv) (hc : c.removed = []) : (s.start c).Inv := by
  refine ⟨h.entries, ?_, h.returned⟩
  intro c' hc' file hf
  rcases List.mem_append.mp hc' with hc' | hc'
  · exact h.removed c' hc' file hf
  · rw [List.mem_singleton.mp hc', hc] at hf
    cases hf

theorem setEntries_entries (s : RemovalState) (layer l : CacheLayer) (entries : List CacheEntry) :
    (s.setEntries layer entries).entries l = if l = layer then entries else s.entries l := rfl

theorem Inv.setEntries (h : s.Inv) {entries : List CacheEntry} (hnew : ∀ e ∈ entries, ¬s.Gone e.file) :
    (s.setEntries layer entries).Inv := by
  refine ⟨?_, h.removed, h.returned⟩
  intro l e he
  rw [setEntries_entries] at he
  split at he
  next => exact hnew e he
  next => exact h.entries l e he

theorem Inv.shrink (h : s.Inv) {entries : List CacheEntry} (hsub : entries ⊆ s.entries layer) :
    (s.setEntries layer entries).Inv :=
  h.setEntries fun e he => h.entries layer e (hsub he)

theorem Inv.put (h : s.Inv) {hashed : Bool} (hfile : ¬s.Gone file) :
    (s.setEntries layer (⟨file, hashed⟩ :: s.entries layer)).Inv := by
  refine h.setEntries ?_
  intro e he
  rcases List.mem_cons.mp he with rfl | he
  · exact hfile
  · exact h.entries layer e he

theorem Gone.removeInternal (h : s.Gone file) : (s.removeInternal path).Gone file := by
  unfold Gone RemovalState.removeInternal at *
  dsimp only
  split <;> omega

theorem gone_removeInternal (s : RemovalState) (path : String) :
    (s.removeInternal path).Gone (s.fileAt path) := by
  simp [Gone, RemovalState.removeInternal, fileAt]

theorem Inv.remove (h : s.Inv) {paths : List String} {n m : Nat} {removed : List RemoteFile}
    (hc : .remove paths n removed ∈ s.calls) (hno : ∀ layer, ∀ e ∈ s.entries layer, e.file.path ≠ path)
    (i : Nat) :
    ((s.removeInternal path).goto i (.remove paths m (removed ++ [s.fileAt path]))).Inv := by
  have hremoved : (s.removeInternal path).Inv := by
    refine ⟨?_, ?_, ?_⟩
    · intro layer e he hgone
      refine h.entries layer e he ?_
      have hne : e.file.path ≠ path := hno layer e he
      simpa [Gone, RemovalState.removeInternal, hne] using hgone
    · intro c hc file hf
      exact (h.removed c hc file hf).removeInternal
    · intro r hr file hf
      exact (h.returned r hr file hf).removeInternal
  refine hremoved.goto ?_ i
  intro file hf
  rcases List.mem_append.mp hf with hf | hf
  · exact (h.removed _ hc file hf).removeInternal
  · rw [List.mem_singleton.mp hf]
    exact gone_removeInternal s path

theorem Inv.return (h : s.Inv) {removed : List RemoteFile} (hr : ∀ file ∈ removed, s.Gone file) :
    (s.returned removed).Inv := by
  refine ⟨h.entries, h.removed, ?_⟩
  intro r hmem file hf
  rcases List.mem_append.mp hmem with hmem | hmem
  · exact h.returned r hmem file hf
  · rw [List.mem_singleton.mp hmem] at hf
    exact hr file hf

end RemovalState

section Steps

open RemovalState

variable {s s' : RemovalState}

end Steps

/-! ## Where nothing comes in between -/

namespace RemovalState

/-- A removal past clearing a cache has left no entry of its paths there. -/
def CallOK (s : RemovalState) (c : FsCall) : Prop :=
  ∀ layer path, c.HasCleared layer path → ∀ e ∈ s.entries layer, e.file.path ≠ path

structure Calm (s : RemovalState) : Prop where
  current : ∀ layer, ∀ e ∈ s.entries layer, s.IsCurrent e.file ∧ e.hashed = false
  calls : ∀ c ∈ s.calls, s.CallOK c

variable {s s' : RemovalState} {c : FsCall} {layer : CacheLayer} {path : String} {file : RemoteFile}

theorem Calm.empty : ({} : RemovalState).Calm := by
  refine ⟨?_, ?_⟩
  · intro layer e he
    cases he
  · intro c hc
    cases hc

theorem Calm.goto (h : s.Calm) (hc : s.CallOK c) (i : Nat) : (s.goto i c).Calm := by
  refine ⟨h.current, ?_⟩
  intro c' hc'
  rcases List.mem_or_eq_of_mem_set hc' with hc' | rfl
  · exact h.calls c' hc'
  · exact hc

theorem Calm.start (h : s.Calm) (hc : s.CallOK c) : (s.start c).Calm := by
  refine ⟨h.current, ?_⟩
  intro c' hc'
  rcases List.mem_append.mp hc' with hc' | hc'
  · exact h.calls c' hc'
  · rw [List.mem_singleton.mp hc']
    exact hc

theorem Calm.shrink (h : s.Calm) {entries : List CacheEntry} (hsub : entries ⊆ s.entries layer) :
    (s.setEntries layer entries).Calm := by
  have hmem : ∀ l, ∀ e ∈ (s.setEntries layer entries).entries l, e ∈ s.entries l := by
    intro l e he
    rw [setEntries_entries] at he
    split at he
    next hl => exact hl ▸ hsub he
    next => exact he
  refine ⟨?_, ?_⟩
  · intro l e he
    exact h.current l e (hmem l e he)
  · intro c hc l path hcl e he
    exact h.calls c hc l path hcl e (hmem l e he)

theorem Calm.put (h : s.Calm) (hcur : s.IsCurrent file) (hcl : ∀ c ∈ s.calls, ¬c.HasCleared layer file.path) :
    (s.setEntries layer (⟨file, false⟩ :: s.entries layer)).Calm := by
  have hmem : ∀ l, ∀ e ∈ (s.setEntries layer (⟨file, false⟩ :: s.entries layer)).entries l,
      e ∈ s.entries l ∨ l = layer ∧ e = ⟨file, false⟩ := by
    intro l e he
    rw [setEntries_entries] at he
    split at he
    next hl =>
      rcases List.mem_cons.mp he with rfl | he
      · exact .inr ⟨hl, rfl⟩
      · exact .inl (hl ▸ he)
    next => exact .inl he
  refine ⟨?_, ?_⟩
  · intro l e he
    rcases hmem l e he with he | ⟨_, rfl⟩
    · exact h.current l e he
    · exact ⟨hcur, rfl⟩
  · intro c hc l path hl e he
    rcases hmem l e he with he | ⟨rfl, rfl⟩
    · exact h.calls c hc l path hl e he
    · intro hp
      rw [← hp] at hl
      exact hcl c hc hl

/-- What a removal past the clears has yet to remove has no entry. -/
theorem Calm.noEntry (h : s.Calm) {paths : List String} {n : Nat} {removed : List RemoteFile}
    (hc : .remove paths n removed ∈ s.calls) (hn : paths[n]? = some path) (layer : CacheLayer) :
    ∀ e ∈ s.entries layer, e.file.path ≠ path := by
  refine h.calls _ hc layer path ?_
  show path ∈ paths.drop n
  obtain ⟨hlt, hget⟩ := List.getElem?_eq_some_iff.mp hn
  rw [← hget, ← List.getElem_cons_drop hlt]
  exact List.mem_cons_self

/-- The internal filesystem removes a file no cache has an entry of. -/
theorem Calm.removeInternal (h : s.Calm) (hno : ∀ layer, ∀ e ∈ s.entries layer, e.file.path ≠ path) :
    (s.removeInternal path).Calm := by
  refine ⟨?_, h.calls⟩
  intro layer e he
  obtain ⟨⟨hpres, hgen⟩, hh⟩ := h.current layer e he
  have hne := hno layer e he
  refine ⟨⟨?_, ?_⟩, hh⟩
  · simpa [RemovalState.removeInternal, hne] using hpres
  · simpa [RemovalState.removeInternal, hne] using hgen

/-! What a call goes on to. -/

theorem clearLayer_entries {e : CacheEntry} (he : e ∈ (s.clearLayer layer path).entries layer) :
    e ∈ s.entries layer ∧ (e.file.path ≠ path ∨ e.hashed) := by
  unfold clearLayer at he
  rw [setEntries_entries, if_pos rfl, List.mem_filter] at he
  simpa using he

theorem clearLayer_subset {l : CacheLayer} {e : CacheEntry} (he : e ∈ (s.clearLayer layer path).entries l) :
    e ∈ s.entries l := by
  by_cases hl : l = layer
  · rw [hl] at he ⊢
    exact (clearLayer_entries he).1
  · rw [clearLayer, setEntries_entries, if_neg hl] at he
    exact he

theorem Calm.clear (h : s.Calm) {paths : List String} {n : Nat} (hc : .clear paths n ∈ s.calls)
    (hn : (clears paths)[n]? = some (path, layer)) (i : Nat) :
    ((s.clearLayer layer path).goto i (.clear paths (n + 1))).Calm := by
  have hdrop : (clears paths).drop n = (path, layer) :: (clears paths).drop (n + 1) := by
    obtain ⟨hlt, hget⟩ := List.getElem?_eq_some_iff.mp hn
    rw [← hget, List.getElem_cons_drop]
  have hclear : (s.clearLayer layer path).Calm := h.shrink (List.filter_subset_self _)
  refine hclear.goto ?_ i
  intro l p hcl e he
  by_cases heq : (p, l) = (path, layer)
  · cases heq
    obtain ⟨hmem, hpath⟩ := clearLayer_entries he
    have hplain := (h.current layer e hmem).2
    simpa [hplain] using hpath
  · refine h.calls _ hc l p ⟨hcl.1, ?_⟩ e (clearLayer_subset he)
    rw [hdrop, List.mem_cons]
    rintro (hpl | hpl)
    · exact heq hpl
    · exact hcl.2 hpl

theorem Calm.cleared (h : s.Calm) {paths : List String} {n : Nat} (hc : .clear paths n ∈ s.calls)
    (hn : (clears paths)[n]? = none) : s.CallOK (.remove paths 0 []) := by
  intro layer path hcl
  refine h.calls _ hc layer path ⟨hcl, ?_⟩
  rw [List.drop_eq_nil_of_le (List.getElem?_eq_none_iff.mp hn)]
  exact List.not_mem_nil

theorem Calm.remove (h : s.Calm) {paths : List String} {n : Nat} {removed removed' : List RemoteFile}
    (hc : .remove paths n removed ∈ s.calls) (hn : paths[n]? = some path) (i : Nat) :
    ((s.removeInternal path).goto i (.remove paths (n + 1) removed')).Calm := by
  refine (h.removeInternal (h.noEntry hc hn)).goto ?_ i
  intro layer p hp
  have hdrop : paths.drop n = path :: paths.drop (n + 1) := by
    obtain ⟨hlt, hget⟩ := List.getElem?_eq_some_iff.mp hn
    rw [← hget, List.getElem_cons_drop]
  refine h.calls _ hc layer p ?_
  show p ∈ paths.drop n
  rw [hdrop]
  exact List.mem_cons_of_mem _ hp

theorem Calm.create (h : s.Calm) (path : String) :
    ({ s with present := fun p => p = path || s.present p } : RemovalState).Calm := by
  refine ⟨?_, h.calls⟩
  intro layer e he
  obtain ⟨⟨hpres, hgen⟩, hh⟩ := h.current layer e he
  exact ⟨⟨by simp [hpres], hgen⟩, hh⟩

theorem Calm.opened (h : s.Calm) (file : RemoteFile) : (s.opened file).Calm := ⟨h.current, h.calls⟩

theorem Calm.closed (h : s.Calm) (n : Nat) : (s.closed n).Calm := ⟨h.current, h.calls⟩

end RemovalState

open RemovalState

variable {s s' : RemovalState}

/-- A local cache file goes just where its entry does. -/
theorem clearLayer_diskFile_iff {p : Platform} (hp : p.OK) {dirs : List String} {filepath uuid : String}
    {off n : Nat} {info : RemoteFileCachePathInfo} {d : LocalCacheDestination} {e : CacheEntry}
    (hi : buildRemoteFileCachePathInfo p dirs e.file.path = .ok info)
    (hd : localCacheDestination p dirs uuid e.file.path off n = .ok d)
    (hh : e.hashed = true ↔ Oversized p uuid (getLocalCacheFile info off n)) (he : e ∈ s.entries .diskFile) :
    e ∈ (s.clearLayer .diskFile filepath).entries .diskFile ↔
      ¬ClearsFile p dirs filepath d.destLocalFilepath := by
  rw [clearsFile_destination_iff hp hi hd, clearLayer, setEntries_entries, if_pos rfl, List.mem_filter, ← hh]
  simp only [he, true_and, decide_eq_true_eq, not_and_or, not_not, ne_eq, eq_comm (a := filepath)]

/-- A data block goes just where its entry does. -/
theorem clearLayer_dataBlock {storage : DataCacheStorage} (hs : storage.OK) (hash : PolicyHash)
    {filepath : String} {key : InMemCacheBlock} {layer : CacheLayer} {e : CacheEntry}
    (hkey : key.fname = e.file.path) (hh : e.hashed = false) (he : e ∈ s.entries layer) :
    (storage.clearFile hash filepath).resident key =
      if e ∈ (s.clearLayer layer filepath).entries layer then storage.resident key else none := by
  have hmem : e ∈ (s.clearLayer layer filepath).entries layer ↔ e.file.path ≠ filepath := by
    rw [clearLayer, setEntries_entries, if_pos rfl, List.mem_filter]
    simp [he, hh]
  by_cases hf : e.file.path = filepath
  · rw [if_neg (by simp [hmem, hf])]
    exact (DataCacheStorage.clearFile_spec hs hash filepath).2 key (hkey.trans hf)
  · rw [if_pos (hmem.mpr hf)]
    exact DataCacheStorage.clearFile_keeps hs hash fun h => hf (hkey.symm.trans h)

/-! ## Two runs -/

/-- Call `i`, a removal of one file, clears its five caches and goes on to the removal. -/
def clearing (i : Nat) : List RemovalAct := List.replicate 6 (.step i .ok)

end ReadCacheFs
