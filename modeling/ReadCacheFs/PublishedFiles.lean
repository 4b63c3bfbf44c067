/-
What is found under the name of a cache file.

`StoreLocalCacheFile` one filesystem operation at a time: the bytes go to a
temporary file in as many writes as it takes, the version and the other
attributes are set one by one, and the rename comes last. A call may fail
or stop anywhere, and files are removed at any time, by reads that find them
invalid, by evictions and by `CleanupDeadTempFiles`.

Attributes are set by path. What carries the invariant is that a temporary
path names its own call's file or nothing: UUIDs are unique, and no
destination ends like a temporary name.
-/
import Mathlib.Data.List.Nodup
import Mathlib.Logic.Function.Basic
import ReadCacheFs.CachePaths
import ReadCacheFs.DiskFiles
import ReadCacheFs.Lib.Runs

namespace ReadCacheFs

open Lib

/-! ## Names -/

/-- `TEMP_CACHE_FILE_SUFFIX`. -/
def tempCacheFileSuffix : String := ".httpfs_local_cache"

def isTempCacheFile (filename : String) : Bool := tempCacheFileSuffix.toList.isSuffixOf filename.toList

/-- What `UUID::ToString` writes. -/
structure Uuid where
  text : String
  chars : text.toList.all ("0123456789abcdef-".toList.contains ·) = true
  deriving DecidableEq, Repr

theorem Uuid.notMem {c : Char} (hc : c ∉ "0123456789abcdef-".toList) (uuid : Uuid) : c ∉ uuid.text.toList := by
  intro h
  exact hc (by simpa using List.all_eq_true.mp uuid.chars c h)

theorem isTempCacheFile_iff {filename : String} :
    isTempCacheFile filename = true ↔ tempCacheFileSuffix.toList <:+ filename.toList := List.isSuffixOf_iff_suffix

theorem isTempCacheFile_append {a b : String} (h : isTempCacheFile b = true) :
    isTempCacheFile (a ++ b) = true := by
  rw [isTempCacheFile_iff] at h ⊢
  rw [String.toList_append]
  exact h.trans (List.suffix_append _ _)

/-- The suffix has no slash: with a directory before it a name is temporary or not as before. -/
theorem isTempCacheFile_of_path {dir name : String} (h : isTempCacheFile (dir ++ "/" ++ name) = true) :
    isTempCacheFile name = true := by
  have hslash : '/' ∉ tempCacheFileSuffix.toList := by decide
  have hname : '/' :: name.toList <:+ (dir ++ "/" ++ name).toList := ⟨dir.toList, by simp⟩
  rw [isTempCacheFile_iff] at h ⊢
  rcases List.suffix_or_suffix_of_suffix h hname with hs | hs
  · rcases List.suffix_cons_iff.mp hs with he | hs
    · exact absurd (by rw [he]; simp) hslash
    · exact hs
  · exact absurd (hs.mem (by simp)) hslash

theorem not_isTempCacheFile_of_dotless {name : String} (h : '.' ∉ name.toList) :
    isTempCacheFile name = false := by
  rw [Bool.eq_false_iff, ne_eq, isTempCacheFile_iff]
  intro hs
  exact h (hs.mem (by decide))

theorem not_isTempCacheFile_of_repr (a : String) (n : Nat) : isTempCacheFile (a ++ n.repr) = false := by
  rw [Bool.eq_false_iff, ne_eq, isTempCacheFile_iff]
  rintro ⟨front, hs⟩
  have hne : n.repr.toList ≠ [] := by
    rw [Nat.toList_repr]
    exact Nat.toDigits_ne_nil
  have hlast := congrArg List.getLast? hs
  rw [String.toList_append, List.getLast?_append, List.getLast?_append, List.getLast?_eq_getLast_of_ne_nil hne,
    show tempCacheFileSuffix.toList.getLast? = some 'e' from by decide, Option.some_or, Option.some_or] at hlast
  exact notMem_repr (c := 'e') (by decide) n (Option.some.inj hlast ▸ List.getLast_mem hne)

theorem getTempCacheFilePath_isTemp (uuid path : String) :
    isTempCacheFile (getTempCacheFilePath uuid path) = true :=
  isTempCacheFile_append (b := ".httpfs_local_cache") (by decide)

/-- A temporary path tells the UUID. -/
theorem getTempCacheFilePath_uuid {uuid uuid' : Uuid} {path path' : String}
    (h : getTempCacheFilePath uuid.text path = getTempCacheFilePath uuid'.text path') : uuid = uuid' := by
  have hdot : ∀ u : Uuid, '.' ∉ u.text.toList := fun u => u.notMem (by decide)
  have hl := congrArg String.toList h
  simp only [getTempCacheFilePath, String.toList_append, List.append_cancel_right_eq] at hl
  have hcut : path ++ "." ++ uuid.text = path' ++ "." ++ uuid'.text := String.toList_inj.mp (by simpa using hl)
  have htext := (append_sep_inj (c := '.') rfl (hdot uuid) (hdot uuid') hcut).2
  cases uuid
  cases uuid'
  simpa using htext

/-- Where a destination's name comes from. -/
theorem localCacheDestination_names {p : Platform} {dirs : List String} {uuid f : String} {off n : Nat}
    {d : LocalCacheDestination} (h : localCacheDestination p dirs uuid f off n = .ok d) :
    d.tempLocalFilepath = getTempCacheFilePath uuid d.destLocalFilepath ∧
      isTempCacheFile d.destLocalFilepath = false := by
  obtain ⟨info, _, hr⟩ := localCacheDestination_ok h
  have hdest := resolve_dest hr
  constructor
  · unfold resolveLocalCacheDestination at hr
    split at hr
    · cases hr
    dsimp only at hr
    split at hr
    · cases hr
      rfl
    · cases hr
      rfl
  · rcases hdest with he | he
    · rw [he]
      exact not_isTempCacheFile_of_repr _ n
    · rw [he, Bool.eq_false_iff]
      intro ht
      have hdot := not_isTempCacheFile_of_dotless
        (notMem_sha256ToHexString (c := '.') (by decide) (p.sha256 (getLocalCacheFile info off n)))
      exact Bool.false_ne_true (hdot.symm.trans (isTempCacheFile_of_path ht))

/-! ## Attribute keys -/

/-- `CACHE_VERSION_ATTR_KEY`. -/
def cacheVersionAttrKey : String := "user.cache_version"

theorem format03_injective : Function.Injective format03 := by
  intro m n h
  have hval : ∀ k, Nat.ofDigitChars 10 (format03 k).toList 0 = k := by
    intro k
    rw [format03, String.toList_append, String.toList_ofList, Nat.toList_repr, Nat.ofDigitChars_append,
      Nat.ofDigitChars_replicate_zero, Nat.mul_zero, Nat.ofDigitChars_toDigits (by decide) (by decide)]
  rw [← hval m, ← hval n, h]

theorem chunkedXattrEntries_nodup (p : Platform) (keyPrefix : String) (value : List Char) :
    ((chunkedXattrEntries p keyPrefix value).map (·.1)).Nodup := by
  rw [chunkedXattrEntries, List.map_map]
  refine List.Nodup.map (fun m n h => ?_) List.nodup_range
  have hl := congrArg String.toList h
  simp only [Function.comp_apply, String.toList_append, List.append_cancel_left_eq] at hl
  exact format03_injective (String.toList_inj.mp hl)

theorem chunkedXattrEntries_key {p : Platform} {keyPrefix : String} {value : List Char} {kv : String × String}
    (h : kv ∈ chunkedXattrEntries p keyPrefix value) : keyPrefix.toList <+: kv.1.toList := by
  obtain ⟨idx, _, rfl⟩ := List.mem_map.mp h
  exact ⟨('.' :: (format03 idx).toList), by simp⟩

theorem ne_of_prefixes {a b k k' : String} (ha : a.toList <+: k.toList) (hb : b.toList <+: k'.toList)
    (hab : ¬(a.toList <+: b.toList ∨ b.toList <+: a.toList)) : k ≠ k' := by
  rintro rfl
  exact hab (List.prefix_or_prefix_of_prefix ha hb)

/-- The attributes of a destination have keys of their own. -/
theorem localCacheDestination_attrs {p : Platform} {dirs : List String} {uuid f : String} {off n : Nat}
    {d : LocalCacheDestination} (h : localCacheDestination p dirs uuid f off n = .ok d) :
    (d.fileAttrs.map (·.1)).Nodup ∧ ∀ kv ∈ d.fileAttrs, kv.1 ≠ cacheVersionAttrKey := by
  have hcacheKey : ∀ {value kv}, kv ∈ chunkedXattrEntries p "user.cache_httpfs_cache_filepath" value →
      kv.1 ≠ cacheVersionAttrKey := fun hkv =>
    ne_of_prefixes (chunkedXattrEntries_key hkv) (List.prefix_refl _) (by decide)
  have hremoteKey : ∀ {value kv}, kv ∈ chunkedXattrEntries p "user.cache_httpfs_remote_path" value →
      kv.1 ≠ cacheVersionAttrKey := fun hkv =>
    ne_of_prefixes (chunkedXattrEntries_key hkv) (List.prefix_refl _) (by decide)
  let remoteAttrs := if f.isEmpty then [] else chunkedXattrEntries p "user.cache_httpfs_remote_path" f.toList
  have hremote : (remoteAttrs.map (·.1)).Nodup ∧
      ∀ kv ∈ remoteAttrs, kv ∈ chunkedXattrEntries p "user.cache_httpfs_remote_path" f.toList := by
    dsimp only [remoteAttrs]
    split
    · simp
    · exact ⟨chunkedXattrEntries_nodup p _ _, fun kv hkv => hkv⟩
  obtain ⟨info, _, hr⟩ := localCacheDestination_ok h
  unfold resolveLocalCacheDestination at hr
  split at hr
  · cases hr
  dsimp only at hr
  split at hr
  · cases hr
    exact ⟨hremote.1, fun kv hkv => hremoteKey (hremote.2 kv hkv)⟩
  · cases hr
    refine ⟨?_, fun kv hkv => ?_⟩
    · rw [List.map_append, List.nodup_append]
      refine ⟨chunkedXattrEntries_nodup p _ _, hremote.1, ?_⟩
      intro k hk k' hk'
      obtain ⟨kv, hkv, rfl⟩ := List.mem_map.mp hk
      obtain ⟨kv', hkv', rfl⟩ := List.mem_map.mp hk'
      exact ne_of_prefixes (chunkedXattrEntries_key hkv) (chunkedXattrEntries_key (hremote.2 kv' hkv'))
        (by decide)
    · rcases List.mem_append.mp hkv with hkv | hkv
      · exact hcacheKey hkv
      · exact hremoteKey (hremote.2 kv hkv)

/-! ## The machine -/

namespace CacheDirectory

/-- A file: its bytes and its extended attributes. -/
structure LocalFile where
  content : Bytes := []
  xattrs : String → Option String := fun _ => none

def LocalFile.setXattr (file : LocalFile) (key value : String) : LocalFile :=
  { file with xattrs := Function.update file.xattrs key (some value) }

@[simp] theorem LocalFile.setXattr_content (file : LocalFile) (key value : String) :
    (file.setXattr key value).content = file.content := rfl

@[simp] theorem LocalFile.setXattr_self (file : LocalFile) (key value : String) :
    (file.setXattr key value).xattrs key = some value := Function.update_self ..

theorem LocalFile.setXattr_other (file : LocalFile) {key key' : String} (value : String) (h : key' ≠ key) :
    (file.setXattr key value).xattrs key' = file.xattrs key' := Function.update_of_ne h ..

/-- What a `StoreLocalCacheFile` call is given. `fileAttrs` is the map of
the destination in the order it is iterated in. -/
structure StoreArgs (p : Platform) where
  cacheDirectories : List String
  uuid : Uuid
  remoteFile : String
  startOffset : Nat
  bytesToRead : Nat
  cacheDest : LocalCacheDestination
  resolved : localCacheDestination p cacheDirectories uuid.text remoteFile startOffset bytesToRead = .ok cacheDest
  fileAttrs : List (String × String)
  perm : fileAttrs.Perm cacheDest.fileAttrs
  content : Bytes
  versionTag : String

/-- The next operation of a `StoreLocalCacheFile` call. -/
inductive StorePc
  | start
  | create
  | write
  | sync
  | version
  /-- `SetFileXattrs`: what is still to set, and `all_ok`. -/
  | attrs (pending : List (String × String)) (allOk : Bool)
  | move
  /-- The removal of the temporary file when the scope ends. -/
  | cleanup
  | done

structure StoreCall (p : Platform) where
  args : StoreArgs p
  pc : StorePc := .start

/-- Store `i` writes file `i`. -/
structure State (p : Platform) where
  paths : String → Option Nat := fun _ => none
  files : Nat → LocalFile := fun _ => {}
  stores : List (StoreCall p) := []
  reads : List ReadCall := []
  /-- The files each `CleanupDeadTempFiles` run has still to look at. -/
  cleanups : List (List String) := []

section Machine

variable {p : Platform}

namespace State

/-- `GetCacheVersion`: empty when there is no such file or attribute. -/
def getCacheVersion (s : State p) (path : String) : String :=
  ((s.paths path).bind fun f => (s.files f).xattrs cacheVersionAttrKey).getD ""

def tryRemoveFile (s : State p) (path : String) : State p := { s with paths := Function.update s.paths path none }

def modifyFile (s : State p) (f : Nat) (g : LocalFile → LocalFile) : State p :=
  { s with files := Function.update s.files f (g (s.files f)) }

def gotoStore (s : State p) (i : Nat) (st : StoreCall p) (pc : StorePc) : State p :=
  { s with stores := s.stores.set i { st with pc } }

def gotoRead (s : State p) (i : Nat) (pc : ReadPc) : State p :=
  { s with reads := s.reads.modify i ({ · with pc }) }

/-- `SetSingleFileAttribute`: throws when the key or the value is too long,
otherwise says whether it was set. `ok` is false where the filesystem
refuses. A character stands for a byte, as where the values are cut. -/
def setSingleFileAttribute (s : State p) (path key value : String) (ok : Bool) : Option (State p × Bool) :=
  if p.maxXattrValueSize < key.length ∨ p.maxXattrValueSize < value.length then none
  else match s.paths path with
    | some f => if ok then some (s.modifyFile f (·.setXattr key value), true) else some (s, false)
    | none => some (s, false)

end State

/-- The next operation of store `i`. `ok` is false where the filesystem
reports a failure; `written` is how many bytes a write takes. The evictions
of a store that finds no space are `evict` actions of their own. -/
def storeStep (s : State p) (i : Nat) (st : StoreCall p) (ok : Bool) (written : Nat) : Option (State p) :=
  let tempPath := st.args.cacheDest.tempLocalFilepath
  match st.pc with
  | .start => some (s.gotoStore i st (if ok then .create else .done))
  | .create =>
    if ok then some ({ s with paths := Function.update s.paths tempPath (some i) }.gotoStore i st .write)
    else some (s.gotoStore i st .cleanup)
  | .write =>
    if ok then
      let content := st.args.content.take ((s.files i).content.length + written)
      some ((s.modifyFile i ({ · with content })).gotoStore i st
        (if content.length = st.args.content.length then .sync else .write))
    else some (s.gotoStore i st .cleanup)
  | .sync => some (s.gotoStore i st (if ok then .version else .cleanup))
  | .version =>
    if st.args.versionTag = "" then some (s.gotoStore i st (.attrs st.args.fileAttrs true))
    else match s.setSingleFileAttribute tempPath cacheVersionAttrKey st.args.versionTag ok with
      | some (s', true) => some (s'.gotoStore i st (.attrs st.args.fileAttrs true))
      | some (s', false) => some (s'.gotoStore i st .cleanup)
      | none => some (s.gotoStore i st .cleanup)
  | .attrs [] allOk => some (s.gotoStore i st (if allOk then .move else .cleanup))
  | .attrs (attr :: pending) allOk =>
    match s.setSingleFileAttribute tempPath attr.1 attr.2 ok with
    | some (s', set) => some (s'.gotoStore i st (.attrs pending (allOk && set)))
    | none => some (s.gotoStore i st .cleanup)
  | .move =>
    match s.paths tempPath with
    | some f =>
      if ok then
        let paths := Function.update (Function.update s.paths st.args.cacheDest.destLocalFilepath (some f)) tempPath none
        some ({ s with paths }.gotoStore i st .cleanup)
      else some (s.gotoStore i st .cleanup)
    | none => some (s.gotoStore i st .cleanup)
  | .cleanup => some ((if ok then s.tryRemoveFile tempPath else s).gotoStore i st .done)
  | .done => none

def readStep (s : State p) (i : Nat) (r : ReadCall) : Option (State p) :=
  match r.pc with
  | .start => some (s.gotoRead i (match s.paths r.path with | some f => .opened f | none => .miss))
  | .opened f =>
    some (s.gotoRead i (if validateCacheFile (s.getCacheVersion r.path) r.versionTag then .valid f else .invalid))
  | .invalid => some ((s.tryRemoveFile r.path).gotoRead i .miss)
  | .valid f =>
    let content := (s.files f).content
    some (s.gotoRead i (if content.length < r.chunkSize then .failed else .hit (content.take r.chunkSize)))
  | .miss | .hit _ | .failed => none

inductive Act (p : Platform)
  | startStore (args : StoreArgs p)
  | store (i : Nat) (ok : Bool) (written : Nat)
  | startRead (path : String) (chunkSize : Nat) (versionTag : String)
  | read (i : Nat)
  /-- An eviction, of whichever file. -/
  | evict (path : String)
  /-- `CleanupDeadTempFiles`, with what `ListFiles` finds: directories and names. -/
  | startCleanup (listed : List (String × String))
  /-- A scheduled task of cleanup `c`; `stale` is whether the file was old enough. -/
  | cleanup (c : Nat) (path : String) (stale : Bool)

/-- `temp_file_paths`. -/
def tempFilePaths (listed : List (String × String)) : List String :=
  (listed.filter fun l => isTempCacheFile l.2).map fun l => l.1 ++ "/" ++ l.2

def step (s : State p) : Act p → Option (State p)
  | .startStore args =>
    -- `GenerateRandomUUID` gives no UUID twice.
    if args.uuid ∈ s.stores.map (·.args.uuid) then none
    else some { s with stores := s.stores ++ [{ args }] }
  | .store i ok written => (s.stores[i]?).bind fun st => storeStep s i st ok written
  | .startRead path chunkSize versionTag => some { s with reads := s.reads ++ [{ path, chunkSize, versionTag }] }
  | .read i => (s.reads[i]?).bind fun r => readStep s i r
  | .evict path => some (s.tryRemoveFile path)
  | .startCleanup listed => some { s with cleanups := s.cleanups ++ [tempFilePaths listed] }
  | .cleanup c path stale =>
    (s.cleanups[c]?).bind fun paths =>
      if path ∈ paths then
        let s' := { s with cleanups := s.cleanups.set c (paths.erase path) }
        some (if stale then s'.tryRemoveFile path else s')
      else none

/-! ## What stays true -/

/-- The file has all that the call was given: its bytes, its version (none
for an empty tag) and its attributes. -/
structure StoreArgs.Complete (args : StoreArgs p) (file : LocalFile) : Prop where
  content : file.content = args.content
  version : file.xattrs cacheVersionAttrKey = if args.versionTag = "" then none else some args.versionTag
  attrs : ∀ kv ∈ args.cacheDest.fileAttrs, file.xattrs kv.1 = some kv.2

/-- A store that has moved its file in place, or given up. -/
def StorePc.Closed (pc : StorePc) : Prop := pc = .cleanup ∨ pc = .done

/-- What a store's file has by the time it gets to an operation. -/
def StoreArgs.OK (args : StoreArgs p) (pc : StorePc) (file : LocalFile) : Prop :=
  match pc with
  | .start | .create => file = {}
  | .write => file.xattrs = fun _ => none
  | .sync | .version => file = { content := args.content }
  | .attrs pending allOk =>
    file.content = args.content ∧
      file.xattrs cacheVersionAttrKey = (if args.versionTag = "" then none else some args.versionTag) ∧
      ∃ set, args.fileAttrs = set ++ pending ∧ (allOk = true → ∀ kv ∈ set, file.xattrs kv.1 = some kv.2)
  | .move => args.Complete file
  | .cleanup | .done => True

structure Inv (s : State p) : Prop where
  uuids : (s.stores.map (·.args.uuid)).Nodup
  /-- A path names a file under its temporary name, or a complete one at its destination. -/
  paths : ∀ path f, s.paths path = some f → ∃ st, s.stores[f]? = some st ∧
    (path = st.args.cacheDest.tempLocalFilepath ∨
      (path = st.args.cacheDest.destLocalFilepath ∧ st.pc.Closed ∧ st.args.Complete (s.files f)))
  fresh : ∀ f, s.stores.length ≤ f → s.files f = {}
  stores : ∀ (i : Nat) st, s.stores[i]? = some st → st.args.OK st.pc (s.files i)

theorem Inv.init : Inv ({} : State p) := ⟨by simp, by simp, by simp, by simp⟩

namespace StoreArgs

theorem keys_nodup (args : StoreArgs p) : (args.fileAttrs.map (·.1)).Nodup :=
  (args.perm.map _).nodup_iff.mpr (localCacheDestination_attrs args.resolved).1

theorem key_ne_version (args : StoreArgs p) {kv : String × String} (h : kv ∈ args.fileAttrs) :
    kv.1 ≠ cacheVersionAttrKey :=
  (localCacheDestination_attrs args.resolved).2 kv (args.perm.mem_iff.mp h)

theorem temp_ne_dest (args args' : StoreArgs p) :
    args.cacheDest.tempLocalFilepath ≠ args'.cacheDest.destLocalFilepath := by
  intro h
  have ht := (localCacheDestination_names args.resolved).1
  have hd := (localCacheDestination_names args'.resolved).2
  rw [← h, ht, getTempCacheFilePath_isTemp] at hd
  cases hd

theorem temp_inj {args args' : StoreArgs p}
    (h : args.cacheDest.tempLocalFilepath = args'.cacheDest.tempLocalFilepath) :
    args.uuid = args'.uuid := by
  rw [(localCacheDestination_names args.resolved).1, (localCacheDestination_names args'.resolved).1] at h
  exact getTempCacheFilePath_uuid h

end StoreArgs

theorem Inv.temp {s : State p} (h : Inv s) {i f : Nat} {st : StoreCall p} (hi : s.stores[i]? = some st)
    (hp : s.paths st.args.cacheDest.tempLocalFilepath = some f) : f = i := by
  obtain ⟨st', hf, ht | ⟨hd, _⟩⟩ := h.paths _ f hp
  · have hu := StoreArgs.temp_inj ht
    have hi' : (s.stores.map (·.args.uuid))[i]? = some st.args.uuid := by rw [List.getElem?_map, hi]; rfl
    have hf' : (s.stores.map (·.args.uuid))[f]? = some st.args.uuid := by rw [List.getElem?_map, hf, hu]; rfl
    obtain ⟨hilt, _⟩ := List.getElem?_eq_some_iff.mp hi'
    exact ((List.getElem?_inj hilt h.uuids).mp (hi'.trans hf'.symm)).symm
  · exact absurd hd (StoreArgs.temp_ne_dest _ _)

/-- A store's step: it moves on, and changes its own file and paths. -/
theorem Inv.advance {s : State p} (h : Inv s) {i : Nat} {st : StoreCall p} (hi : s.stores[i]? = some st)
    {pc : StorePc}
    {files : Nat → LocalFile} {paths : String → Option Nat} (hfiles : ∀ f, f ≠ i → files f = s.files f)
    (hclosed : st.pc.Closed → pc.Closed ∧ files i = s.files i) (hok : st.args.OK pc (files i))
    (hpaths : ∀ path f, paths path = some f → s.paths path = some f ∨ (f = i ∧
      (path = st.args.cacheDest.tempLocalFilepath ∨
        (path = st.args.cacheDest.destLocalFilepath ∧ pc.Closed ∧ st.args.Complete (files i))))) :
    Inv ({ s with files, paths }.gotoStore i st pc) := by
  have hself := (getElem?_set_iff hi (b := { st with pc })).mpr (.inl ⟨rfl, rfl⟩)
  refine ⟨?_, fun path f hp => ?_, fun f hf => ?_, fun j st' hj => ?_⟩
  · have hmap : (s.stores.set i { st with pc }).map (·.args.uuid) = s.stores.map (·.args.uuid) := by
      refine List.ext_getElem? fun j => ?_
      rw [List.getElem?_map, List.getElem?_map, List.getElem?_set]
      by_cases hj : i = j
      · subst hj
        obtain ⟨hlt, hget⟩ := List.getElem?_eq_some_iff.mp hi
        simp [hlt, hget]
      · simp [hj]
    exact hmap ▸ h.uuids
  · rcases hpaths path f hp with hp | ⟨rfl, hp⟩
    · obtain ⟨st', hf, hcase⟩ := h.paths path f hp
      by_cases hfi : f = i
      · subst hfi
        rw [hi] at hf
        cases hf
        refine ⟨_, hself, hcase.imp_right fun ⟨hd, hc, hcomp⟩ => ?_⟩
        obtain ⟨hc', hsame⟩ := hclosed hc
        exact ⟨hd, hc', show st.args.Complete (files f) from hsame ▸ hcomp⟩
      · refine ⟨st', (getElem?_set_iff hi).mpr (.inr ⟨hfi, hf⟩), ?_⟩
        change _ ∨ _ ∧ _ ∧ st'.args.Complete (files f)
        rwa [hfiles f hfi]
    · exact ⟨_, hself, hp⟩
  · obtain ⟨hlt, _⟩ := List.getElem?_eq_some_iff.mp hi
    change (s.stores.set i _).length ≤ f at hf
    rw [List.length_set] at hf
    exact (hfiles f (by omega)).trans (h.fresh f hf)
  · rcases (getElem?_set_iff hi).mp hj with ⟨rfl, rfl⟩ | ⟨hji, hj⟩
    · exact hok
    · change st'.args.OK st'.pc (files j)
      rw [hfiles j hji]
      exact h.stores j st' hj

theorem Inv.goto {s : State p} (h : Inv s) {i : Nat} {st : StoreCall p} (hi : s.stores[i]? = some st)
    {pc : StorePc} (hclosed : st.pc.Closed → pc.Closed) (hok : st.args.OK pc (s.files i)) :
    Inv (s.gotoStore i st pc) :=
  h.advance hi (fun _ _ => rfl) (fun hc => ⟨hclosed hc, rfl⟩) hok fun _ _ hp => .inl hp

theorem Inv.remove {s : State p} (h : Inv s) (path : String) : Inv (s.tryRemoveFile path) := by
  refine ⟨h.uuids, fun path' f hp => ?_, h.fresh, h.stores⟩
  rcases update_some hp with ⟨_, ho⟩ | ⟨_, hp⟩
  · cases ho
  · exact h.paths path' f hp

/-- Reads and cleanups have their own records only. -/
theorem Inv.records {s : State p} (h : Inv s) (reads : List ReadCall) (cleanups : List (List String)) :
    Inv { s with reads, cleanups } := ⟨h.uuids, h.paths, h.fresh, h.stores⟩

/-! ## Steps -/

theorem Inv.modify {s : State p} (h : Inv s) {i : Nat} {st : StoreCall p} (hi : s.stores[i]? = some st)
    {pc : StorePc} {g : LocalFile → LocalFile} (hopen : ¬st.pc.Closed) (hok : st.args.OK pc (g (s.files i))) :
    Inv ((s.modifyFile i g).gotoStore i st pc) :=
  h.advance hi (fun _ hf => Function.update_of_ne hf _ _) (fun hc => absurd hc hopen)
    (by rw [Function.update_self]; exact hok) fun _ _ hp => .inl hp

theorem Inv.setSingleFileAttribute {s s' : State p} (h : Inv s) {i : Nat} {st : StoreCall p}
    (hi : s.stores[i]? = some st) {key value : String} {ok set : Bool}
    (hs : s.setSingleFileAttribute st.args.cacheDest.tempLocalFilepath key value ok = some (s', set)) :
    (set = false ∧ s' = s) ∨ (set = true ∧ s' = s.modifyFile i (·.setXattr key value)) := by
  unfold State.setSingleFileAttribute at hs
  split at hs
  · cases hs
  split at hs
  · rename_i f hp
    have hf := h.temp hi hp
    subst hf
    split at hs <;> cases hs
    · exact .inr ⟨rfl, rfl⟩
    · exact .inl ⟨rfl, rfl⟩
  · cases hs
    exact .inl ⟨rfl, rfl⟩

theorem closed_cleanup : StorePc.cleanup.Closed := .inl rfl

theorem closed_done : StorePc.done.Closed := .inr rfl

theorem not_closed {pc : StorePc} (h : pc ≠ .cleanup) (h' : pc ≠ .done) : ¬pc.Closed := fun hc => hc.elim h h'

theorem Inv.giveUp {s : State p} (h : Inv s) {i : Nat} {st : StoreCall p} (hi : s.stores[i]? = some st) :
    Inv (s.gotoStore i st .cleanup) := h.goto hi (fun _ => closed_cleanup) trivial

/-- An attribute of its own leaves the version and the others alone. -/
theorem StoreArgs.OK.set {args : StoreArgs p} {attr : String × String} {pending : List (String × String)}
    {allOk : Bool} {file : LocalFile} (h : args.OK (.attrs (attr :: pending) allOk) file) :
    args.OK (.attrs pending allOk) (file.setXattr attr.1 attr.2) := by
  obtain ⟨hcontent, hversion, set, hsplit, hset⟩ := h
  have hne := args.key_ne_version (show attr ∈ args.fileAttrs by rw [hsplit]; simp)
  refine ⟨hcontent, ?_, set ++ [attr], by rw [hsplit, List.append_assoc, List.singleton_append],
    fun hall kv hkv => ?_⟩
  · rw [file.setXattr_other _ hne.symm, hversion]
  · rcases List.mem_append.mp hkv with hkv | hkv
    · have hnodup := args.keys_nodup
      rw [hsplit, List.map_append, List.nodup_append] at hnodup
      have hkey : kv.1 ≠ attr.1 := hnodup.2.2 _ (List.mem_map_of_mem hkv) _ (by simp)
      rw [file.setXattr_other _ hkey, hset hall kv hkv]
    · rw [List.mem_singleton.mp hkv, LocalFile.setXattr_self]

/-- Once none is pending and all were set. -/
theorem StoreArgs.OK.complete {args : StoreArgs p} {file : LocalFile} (h : args.OK (.attrs [] true) file) :
    args.Complete file := by
  obtain ⟨hcontent, hversion, set, hsplit, hset⟩ := h
  rw [List.append_nil] at hsplit
  exact ⟨hcontent, hversion, fun kv hkv => hset rfl kv (hsplit ▸ args.perm.mem_iff.mpr hkv)⟩

theorem storeStep_inv {s s' : State p} {i : Nat} {st : StoreCall p} {ok : Bool} {written : Nat} (h : Inv s)
    (hi : s.stores[i]? = some st) (hs : storeStep s i st ok written = some s') : Inv s' := by
  obtain ⟨args, pc⟩ := st
  have hst := h.stores i _ hi
  cases pc with
  | start =>
    cases ok with
    | true => cases hs; exact h.goto hi (by simp [StorePc.Closed]) hst
    | false => cases hs; exact h.goto hi (fun _ => closed_done) trivial
  | create =>
    cases ok with
    | true =>
      cases hs
      refine h.advance hi (fun _ _ => rfl) (by simp [StorePc.Closed])
        (by simp_all [StoreArgs.OK]) fun path f hp => ?_
      rcases update_some hp with ⟨hpath, hf⟩ | ⟨_, hp⟩
      · exact .inr ⟨(Option.some.inj hf).symm, .inl hpath⟩
      · exact .inl hp
    | false => cases hs; exact h.giveUp hi
  | write =>
    cases ok with
    | true =>
      cases hs
      refine h.modify hi (not_closed (by simp) (by simp)) ?_
      split
      · rename_i hlen
        have hfull : args.content.take ((s.files i).content.length + written) = args.content :=
          (List.take_prefix _ _).eq_of_length hlen
        have hattrs : (s.files i).xattrs = fun _ => none := hst
        simp only [StoreArgs.OK, hfull, hattrs]
      · exact hst
    | false => cases hs; exact h.giveUp hi
  | sync =>
    cases ok with
    | true => cases hs; exact h.goto hi (by simp [StorePc.Closed]) hst
    | false => cases hs; exact h.giveUp hi
  | version =>
    have hfile : s.files i = { content := args.content } := hst
    simp only [storeStep] at hs
    split at hs
    · rename_i htag
      cases hs
      exact h.goto hi (by simp [StorePc.Closed]) ⟨by rw [hfile], by simp [hfile, htag], [], rfl, by simp⟩
    · rename_i htag
      split at hs
      · rename_i s'' hset
        cases hs
        obtain ⟨hfalse, _⟩ | ⟨_, rfl⟩ := h.setSingleFileAttribute hi hset
        · cases hfalse
        · exact h.modify hi (not_closed (by simp) (by simp)) ⟨by simp [hfile], by simp [htag], [], rfl, by simp⟩
      · rename_i s'' hset
        cases hs
        obtain ⟨_, rfl⟩ | ⟨htrue, _⟩ := h.setSingleFileAttribute hi hset
        · exact h.giveUp hi
        · cases htrue
      · cases hs
        exact h.giveUp hi
  | attrs pending allOk =>
    cases pending with
    | nil =>
      cases allOk with
      | true => cases hs; exact h.goto hi (by simp [StorePc.Closed]) (StoreArgs.OK.complete hst)
      | false => cases hs; exact h.giveUp hi
    | cons attr pending =>
      simp only [storeStep] at hs
      split at hs
      · rename_i s'' set hset
        cases hs
        obtain ⟨rfl, rfl⟩ | ⟨rfl, rfl⟩ := h.setSingleFileAttribute hi hset
        · -- one that was not set: the file is never moved
          obtain ⟨hcontent, hversion, set, hsplit, _⟩ := hst
          exact h.goto hi (by simp [StorePc.Closed])
            ⟨hcontent, hversion, set ++ [attr], by rw [hsplit]; simp, by simp⟩
        · rw [Bool.and_true]
          exact h.modify hi (not_closed (by simp) (by simp)) (StoreArgs.OK.set hst)
      · cases hs
        exact h.giveUp hi
  | move =>
    simp only [storeStep] at hs
    split at hs
    · rename_i f hp
      have hf := h.temp hi hp
      subst hf
      cases ok with
      | false => cases hs; exact h.giveUp hi
      | true =>
        cases hs
        refine h.advance hi (fun _ _ => rfl) (fun _ => ⟨closed_cleanup, rfl⟩) trivial fun path f' hp' => ?_
        rcases update_some hp' with ⟨_, ho⟩ | ⟨_, hp'⟩
        · cases ho
        rcases update_some hp' with ⟨hpath, hf'⟩ | ⟨_, hp'⟩
        · exact .inr ⟨(Option.some.inj hf').symm, .inr ⟨hpath, closed_cleanup, hst⟩⟩
        · exact .inl hp'
    · cases hs
      exact h.giveUp hi
  | cleanup =>
    cases ok with
    | true => cases hs; exact (h.remove _).goto hi (fun _ => closed_done) trivial
    | false => cases hs; exact h.goto hi (fun _ => closed_done) trivial
  | done => cases hs

theorem readStep_inv {s s' : State p} {i : Nat} {r : ReadCall} (h : Inv s) (hs : readStep s i r = some s') :
    Inv s' := by
  obtain ⟨path, chunkSize, versionTag, pc⟩ := r
  cases pc with
  | start | opened f | valid f => cases hs; exact h.records _ _
  | invalid => cases hs; exact (h.remove path).records _ _
  | miss | hit bs | failed => cases hs

theorem step_inv {s s' : State p} {a : Act p} (h : Inv s) (hs : step s a = some s') : Inv s' := by
  cases a with
  | startStore args =>
    dsimp only [step] at hs
    split at hs
    · cases hs
    · rename_i hfresh
      cases hs
      refine ⟨?_, fun path f hp => ?_, fun f hf => h.fresh f (by simp at hf; omega), fun i st hi => ?_⟩
      · rw [List.map_append, List.nodup_append]
        refine ⟨h.uuids, by simp, fun u hu v hv huv => hfresh ?_⟩
        have hnew : v = args.uuid := List.mem_singleton.mp hv
        rwa [← hnew, ← huv]
      · obtain ⟨st, hf, hcase⟩ := h.paths path f hp
        exact ⟨st, getElem?_snoc_iff.mpr (.inl hf), hcase⟩
      · rcases getElem?_snoc_iff.mp hi with hi | ⟨rfl, rfl⟩
        · exact h.stores i st hi
        · exact h.fresh _ (Nat.le_refl _)
  | store i ok written =>
    obtain ⟨st, hi, hs⟩ := Option.bind_eq_some_iff.mp hs
    exact storeStep_inv h hi hs
  | startRead path chunkSize versionTag => cases hs; exact h.records _ _
  | read i =>
    obtain ⟨r, _, hs⟩ := Option.bind_eq_some_iff.mp hs
    exact readStep_inv h hs
  | evict path => cases hs; exact h.remove path
  | startCleanup listed => cases hs; exact h.records _ _
  | cleanup c path stale =>
    obtain ⟨paths, _, hs⟩ := Option.bind_eq_some_iff.mp hs
    dsimp only at hs
    split at hs
    · cases stale with
      | true => cases hs; exact (h.records _ _).remove path
      | false => cases hs; exact h.records _ _
    · cases hs

/-- **Published cache files are complete.** In every state a file under a
destination has the content, the version and the attributes of one store of
that destination. No destination is classified as temporary, by its path or
by its name, and every temporary file is. -/
theorem published_files_complete (p : Platform) :
    (∀ (acts : List (Act p)) (s : State p), exec step {} acts = some s →
      ∀ (dirs : List String) (uuid f : String) (off n : Nat) (d : LocalCacheDestination) (file : Nat),
        localCacheDestination p dirs uuid f off n = .ok d → s.paths d.destLocalFilepath = some file →
        ∃ st ∈ s.stores, st.args.cacheDest.destLocalFilepath = d.destLocalFilepath ∧
          st.args.Complete (s.files file)) ∧
    ∀ (dirs : List String) (uuid f : String) (off n : Nat) (d : LocalCacheDestination),
      localCacheDestination p dirs uuid f off n = .ok d →
        isTempCacheFile d.destLocalFilepath = false ∧ isTempCacheFile d.tempLocalFilepath = true ∧
        ∀ dir name : String,
          (d.destLocalFilepath = dir ++ "/" ++ name → isTempCacheFile name = false) ∧
          (d.tempLocalFilepath = dir ++ "/" ++ name → isTempCacheFile name = true) := by
  refine ⟨fun acts s hrun dirs uuid f off n d file hd hp => ?_, fun dirs uuid f off n d hd => ?_⟩
  · have hinv : Inv s := exec_invariant (fun _ _ _ => step_inv) hrun Inv.init
    obtain ⟨st, hst, ht | ⟨hdest, _, hcomp⟩⟩ := hinv.paths _ _ hp
    · have hfalse := (localCacheDestination_names hd).2
      rw [ht, (localCacheDestination_names st.args.resolved).1, getTempCacheFilePath_isTemp] at hfalse
      cases hfalse
    · exact ⟨st, List.mem_of_getElem? hst, hdest.symm, hcomp⟩
  · obtain ⟨htemp, hdest⟩ := localCacheDestination_names hd
    have htrue : isTempCacheFile d.tempLocalFilepath = true := htemp ▸ getTempCacheFilePath_isTemp _ _
    refine ⟨hdest, htrue, fun dir name => ⟨fun he => ?_, fun he => isTempCacheFile_of_path (he ▸ htrue)⟩⟩
    rw [he] at hdest
    rw [Bool.eq_false_iff]
    exact fun hname => Bool.false_ne_true (hdest.symm.trans (isTempCacheFile_append hname))

end Machine

/-! ## A race to look at -/

/-- Where the first four bytes of `s3://b/x` go. -/
def destX (uuid : Uuid) : LocalCacheDestination where
  destLocalFilepath := "/c/28b1755ca62c562b7e6cca7e49a8f63203a1ff8ef42eab991cc60893cd590cfe-x-0-4"
  tempLocalFilepath := getTempCacheFilePath uuid.text
    "/c/28b1755ca62c562b7e6cca7e49a8f63203a1ff8ef42eab991cc60893cd590cfe-x-0-4"
  fileAttrs := [("user.cache_httpfs_remote_path.000", "s3://b/x")]

theorem destX_resolved {uuid : Uuid} (hsize : uuid.text.utf8ByteSize = 36) :
    localCacheDestination (linuxPlatform knownSha256) ["/c"] uuid.text "s3://b/x" 0 4 = .ok (destX uuid) := by
  let info : RemoteFileCachePathInfo :=
    { cacheDirectoryIdx := 0, cacheDirectory := "/c"
      remoteFileSha256Hex := "28b1755ca62c562b7e6cca7e49a8f63203a1ff8ef42eab991cc60893cd590cfe", sanitizedFname := "x" }
  have hinfo : buildRemoteFileCachePathInfo (linuxPlatform knownSha256) ["/c"] "s3://b/x" = .ok info := by
    decide +kernel
  have hfile : getLocalCacheFile info 0 4 =
      "/c/28b1755ca62c562b7e6cca7e49a8f63203a1ff8ef42eab991cc60893cd590cfe-x-0-4" := by decide +kernel
  let name := "28b1755ca62c562b7e6cca7e49a8f63203a1ff8ef42eab991cc60893cd590cfe-x-0-4." ++ uuid.text ++
    ".httpfs_local_cache"
  have htemp : getTempCacheFilePath uuid.text (getLocalCacheFile info 0 4) = "/c" ++ "/" ++ name := by
    have hcut : getLocalCacheFile info 0 4 ++ "." =
        "/c" ++ "/" ++ "28b1755ca62c562b7e6cca7e49a8f63203a1ff8ef42eab991cc60893cd590cfe-x-0-4." := by
          decide +kernel
    rw [getTempCacheFilePath, hcut]
    simp only [name, String.append_assoc]
  have hname : '/' ∉ name.toList :=
    notMem_append (notMem_append (by decide +kernel) (uuid.notMem (by decide))) (by decide)
  have hattrs : chunkedXattrEntries
    (linuxPlatform knownSha256) "user.cache_httpfs_remote_path" "s3://b/x".toList =
      [("user.cache_httpfs_remote_path.000", "s3://b/x")] := by decide +kernel
  have hlen : name.utf8ByteSize = 126 := by
    simp only [name, String.utf8ByteSize_append, hsize]
    decide +kernel
  rw [localCacheDestination, hinfo, ok_bind, resolveLocalCacheDestination, if_neg (by decide)]
  dsimp only
  rw [htemp, linuxPlatform_getFileName hname, hattrs, if_pos, ← htemp, hfile]
  · rfl
  · have hpath : ("/c" ++ "/" ++ name).utf8ByteSize = 129 := by
      rw [String.utf8ByteSize_append, hlen]
      decide
    exact ⟨hlen ▸ by decide, hpath ▸ by decide⟩

def storeX (uuid : Uuid) (hsize : uuid.text.utf8ByteSize = 36) (content : Bytes) (versionTag : String) :
    StoreArgs (linuxPlatform knownSha256) where
  cacheDirectories := ["/c"]
  uuid := uuid
  remoteFile := "s3://b/x"
  startOffset := 0
  bytesToRead := 4
  cacheDest := destX uuid
  resolved := destX_resolved hsize
  fileAttrs := (destX uuid).fileAttrs
  perm := .refl _
  content := content
  versionTag := versionTag

def uuid1 : Uuid := ⟨"00000000-0000-4000-8000-000000000001", by decide +kernel⟩

def uuid2 : Uuid := ⟨"00000000-0000-4000-8000-000000000002", by decide +kernel⟩

/-- The second store publishes while the first is half way; a read of the
first one's version takes its file away, and the first publishes. -/
def raceX : List (Act (linuxPlatform knownSha256)) :=
  [.startStore (storeX uuid1 (by decide) [1, 2, 3, 4] "v1"), .startStore (storeX uuid2 (by decide) [5, 6, 7, 8] ""),
    .store 0 true 0, .store 0 true 0, .store 0 true 2] ++
    (List.replicate 8 (.store 1 true 4)) ++
    [.startRead (destX uuid1).destLocalFilepath 4 "v1", .read 0, .read 0, .read 0] ++
    (List.replicate 6 (.store 0 true 2))

theorem published_files_complete_race :
    ∃ s, exec step {} raceX = some s ∧ s.paths (destX uuid1).destLocalFilepath = some 0 ∧
      ∃ st ∈ s.stores, st.args.cacheDest.destLocalFilepath = (destX uuid1).destLocalFilepath ∧
        st.args.Complete (s.files 0) := by
  have hrun : (exec step {} raceX).map (fun s => s.paths (destX uuid1).destLocalFilepath) = some (some 0) := by
    decide +kernel
  obtain ⟨s, hs, hp⟩ := Option.map_eq_some_iff.mp hrun
  exact ⟨s, hs, hp,
    (published_files_complete _).1 raceX s hs _ _ _ _ _ (destX uuid1) 0 (destX_resolved (by decide)) hp⟩

end CacheDirectory

end ReadCacheFs
