/-
What a status query reports of the cache files while they are stored, read
and removed.

`DiskCacheReader::GetCacheEntriesInfo` takes each name `ListFiles` finds, and
reads the attributes of the file one after another, each by the path. The
file may be replaced between two of them, and what is read is then of both:
but every file under a destination has the same attributes. It may also be
removed. The attributes are then empty from there on, which cuts the remote
path short, and leaves nothing to make of a hashed name.
-/
import ReadCacheFs.CacheFileInfo
import ReadCacheFs.DiskInvalidation

namespace ReadCacheFs

open Lib

/-! ## Attributes by destination -/

section Destinations

variable {p : Platform}

/-- The name is a plain one, or a hash of it. -/
theorem resolve_attrs (hm : 0 < p.maxXattrValueSize) {uuid dir file f : String} {d : LocalCacheDestination}
    (h : resolveLocalCacheDestination p uuid dir file f = .ok d) :
    (d.destLocalFilepath = file ∧ d.fileAttrs = chunkedXattrEntries p "user.cache_httpfs_remote_path" f.toList) ∨
      (d.destLocalFilepath = dir ++ "/" ++ sha256ToHexString (p.sha256 file) ∧
        d.fileAttrs = chunkedXattrEntries p "user.cache_httpfs_cache_filepath" file.toList ++
          chunkedXattrEntries p "user.cache_httpfs_remote_path" f.toList) := by
  have hremote : (if f.isEmpty then [] else chunkedXattrEntries p "user.cache_httpfs_remote_path" f.toList) =
      chunkedXattrEntries p "user.cache_httpfs_remote_path" f.toList := by
    split
    next hempty =>
      rw [String.isEmpty_iff.mp hempty]
      exact (chunkedXattrEntries_nil hm _).symm
    · rfl
  unfold resolveLocalCacheDestination at h
  split at h
  · cases h
  simp only [hremote] at h
  split at h
  · cases h
    exact .inl ⟨rfl, rfl⟩
  · cases h
    exact .inr ⟨rfl, rfl⟩

/-- A plain name has a `-`, a hashed one has none. -/
theorem plain_ne_hashed (hp : ∀ path, '/' ∉ (p.getFileName path).toList) {dirs : List String} {f : String}
    {info : RemoteFileCachePathInfo} (hi : buildRemoteFileCachePathInfo p dirs f = .ok info) (off n : Nat)
    (dir : String) (sha256 : List UInt8) :
    getLocalCacheFile info off n ≠ dir ++ "/" ++ sha256ToHexString sha256 := by
  intro h
  rw [getLocalCacheFile_eq] at h
  have hslash : '/' ∉ (sha256ToHexString sha256).toList := notMem_sha256ToHexString (by decide) _
  have hname := (append_sep_inj rfl (fileName_notMem hp hi off n) hslash h).2
  have hdash : '-' ∈ (info.fileName off n).toList := by simp [RemoteFileCachePathInfo.fileName]
  exact notMem_sha256ToHexString (by decide) sha256 (hname ▸ hdash)

/-- Two destinations of one path are of one chunk, and have the same attributes. -/
theorem fileAttrs_of_dest (hp : p.OK) (hm : 0 < p.maxXattrValueSize) {dirs dirs' : List String}
    {uuid uuid' f f' : String} {off off' n n' : Nat} {d d' : LocalCacheDestination}
    (hd : localCacheDestination p dirs uuid f off n = .ok d)
    (hd' : localCacheDestination p dirs' uuid' f' off' n' = .ok d')
    (h : d.destLocalFilepath = d'.destLocalFilepath) :
    (f = f' ∧ off = off' ∧ n = n') ∧ d.fileAttrs = d'.fileAttrs := by
  obtain ⟨info, hi, hr⟩ := localCacheDestination_ok hd
  obtain ⟨info', hi', hr'⟩ := localCacheDestination_ok hd'
  have hchunk := dest_inj hp hi hi' hr hr' h
  refine ⟨hchunk, ?_⟩
  obtain ⟨rfl, rfl, rfl⟩ := hchunk
  rcases resolve_attrs hm hr with ⟨he, ha⟩ | ⟨he, ha⟩ <;> rcases resolve_attrs hm hr' with ⟨he', ha'⟩ |
    ⟨he', ha'⟩ <;>
    rw [he, he'] at h <;> rw [ha, ha']
  · exact absurd h (plain_ne_hashed hp.getFileName_notMem hi off n _ _)
  · exact absurd h.symm (plain_ne_hashed hp.getFileName_notMem hi' off n _ _)
  · have hslash : '/' ∉ (sha256ToHexString (p.sha256 (getLocalCacheFile info off n))).toList :=
      notMem_sha256ToHexString (by decide) _
    have hslash' : '/' ∉ (sha256ToHexString (p.sha256 (getLocalCacheFile info' off n))).toList :=
      notMem_sha256ToHexString (by decide) _
    rw [hp.sha256_injective (sha256ToHexString_injective (append_sep_inj rfl hslash hslash' h).2)]

/-- A file with just these attributes, and maybe a version. -/
structure CarriesAttrs (attrs : List (String × String)) (file : CacheDirectory.LocalFile) : Prop where
  set : ∀ attr ∈ attrs, file.xattrs attr.1 = some attr.2
  unset : ∀ key, key ≠ cacheVersionAttrKey → (∀ attr ∈ attrs, key ≠ attr.1) → file.xattrs key = none

/-- The attributes hold a value in chunks, whatever else they hold. -/
structure HoldsValue (p : Platform) (attrs : List (String × String)) (keyPrefix : String)
    (value : List Char) : Prop where
  chunks : ∀ attr ∈ chunkedXattrEntries p keyPrefix value, attr ∈ attrs
  others : ∀ attr ∈ attrs, attr ∈ chunkedXattrEntries p keyPrefix value ∨
    ∃ other, other.toList <+: attr.1.toList ∧ Apart keyPrefix other
  version : Apart keyPrefix cacheVersionAttrKey

/-- A chunk is read, or past the last one nothing. -/
theorem CarriesAttrs.chunk (hm : 0 < p.maxXattrValueSize) {attrs : List (String × String)}
    {file : CacheDirectory.LocalFile} (h : CarriesAttrs attrs file) {keyPrefix : String} {value : List Char}
    (hv : HoldsValue p attrs keyPrefix value) (idx : Nat) :
    getFileXattr file (xattrChunkKey keyPrefix idx) =
      String.ofList (slice value (idx * p.maxXattrValueSize) p.maxXattrValueSize) := by
  by_cases hidx : idx < xattrChunkCount p value
  · have hentry := h.set _ (hv.chunks _ (mem_chunkedXattrEntries.mpr ⟨idx, hidx, rfl⟩))
    rw [getFileXattr, hentry, Option.getD_some]
  · have hnone : file.xattrs (xattrChunkKey keyPrefix idx) = none := by
      refine h.unset _ ?_ fun attr ha => ?_
      · exact ne_of_prefixes (keyPrefix_xattrChunkKey _ _) (List.prefix_refl _) hv.version
      · rcases hv.others attr ha with hmem | ⟨other, hother, hapart⟩
        · obtain ⟨idx', hlt, rfl⟩ := mem_chunkedXattrEntries.mp hmem
          intro he
          have := xattrChunkKey_injective keyPrefix he
          omega
        · exact ne_of_prefixes (keyPrefix_xattrChunkKey _ _) hother hapart
    have hend : value.length ≤ idx * p.maxXattrValueSize := by
      have := (@lt_xattrChunkCount p hm value idx).not.mp hidx
      omega
    have hempty : slice value (idx * p.maxXattrValueSize) p.maxXattrValueSize = [] :=
      List.eq_nil_of_length_eq_zero (by rw [length_slice]; omega)
    rw [getFileXattr, hnone, hempty]
    rfl

/-- The attributes of a destination are two values, and the name is read through the first. -/
structure NamesChunk (p : Platform) (d : LocalCacheDestination) (f : String) (off n : Nat) (original : List Char)
    (info : RemoteFileCachePathInfo) : Prop where
  cacheFilepath : HoldsValue p d.fileAttrs "user.cache_httpfs_cache_filepath" original
  remotePath : HoldsValue p d.fileAttrs "user.cache_httpfs_remote_path" f.toList
  length : d.fileAttrs.length = xattrChunkCount p original + xattrChunkCount p f.toList
  fileName : p.getFileName (if String.ofList original = "" then d.destLocalFilepath else String.ofList original) =
    info.fileName off n

theorem localCacheDestination_namesChunk (hp : p.Readable) {dirs : List String} {uuid f : String} {off n : Nat}
    {d : LocalCacheDestination} (h : localCacheDestination p dirs uuid f off n = .ok d) :
    ∃ info original, buildRemoteFileCachePathInfo p dirs f = .ok info ∧ NamesChunk p d f off n original info := by
  obtain ⟨info, original, hi, hattrs, _, hname⟩ := localCacheDestination_names_attrs hp h
  refine ⟨info, original, hi, ⟨fun attr ha => ?_, fun attr ha => ?_, by decide⟩,
    ⟨fun attr ha => ?_, fun attr ha => ?_, by decide⟩, ?_, hname⟩
  · rw [hattrs]
    exact List.mem_append_left _ ha
  · rw [hattrs, List.mem_append] at ha
    exact ha.imp_right fun ha => ⟨_, chunkedXattrEntries_key ha, by decide⟩
  · rw [hattrs]
    exact List.mem_append_right _ ha
  · rw [hattrs, List.mem_append] at ha
    exact ha.symm.imp_right fun ha => ⟨_, chunkedXattrEntries_key ha, by decide⟩
  · rw [hattrs, List.length_append]
    simp [chunkedXattrEntries, xattrChunkCount]

def CacheDirectory.StoreArgs.Plain (args : CacheDirectory.StoreArgs p) : Prop :=
  ∃ info, buildRemoteFileCachePathInfo p args.cacheDirectories args.remoteFile = .ok info ∧
    args.cacheDest.destLocalFilepath = getLocalCacheFile info args.startOffset args.bytesToRead

theorem CacheDirectory.StoreArgs.Plain.original_eq_nil {args : CacheDirectory.StoreArgs p} (hp : p.Readable)
    (h : args.Plain) {original : List Char}
    (hv : HoldsValue p args.cacheDest.fileAttrs "user.cache_httpfs_cache_filepath" original) : original = [] := by
  have hm := hp.maxXattrValueSize_pos
  obtain ⟨info, hi, hplain⟩ := h
  obtain ⟨info', hi', hr⟩ := localCacheDestination_ok args.resolved
  obtain rfl : info = info' := Except.ok.inj (hi.symm.trans hi')
  have hattrs : args.cacheDest.fileAttrs =
      chunkedXattrEntries p "user.cache_httpfs_remote_path" args.remoteFile.toList := by
    rcases resolve_attrs hm hr with ⟨_, ha⟩ | ⟨hdest, _⟩
    · exact ha
    · exact absurd (hplain.symm.trans hdest) (plain_ne_hashed hp.getFileName_notMem hi _ _ _ _)
  by_contra hne
  have hpos : 0 < xattrChunkCount p original :=
    (lt_xattrChunkCount hm).mpr (by simpa [List.length_pos_iff] using hne)
  have hmem := hv.chunks _ (mem_chunkedXattrEntries.mpr ⟨0, hpos, rfl⟩)
  rw [hattrs] at hmem
  exact ne_of_prefixes (keyPrefix_xattrChunkKey _ _) (chunkedXattrEntries_key hmem) (by decide) rfl

end Destinations

/-! ## Attributes of published files -/

namespace CacheDirectory

variable {p : Platform} {s s' : State p} {i : Nat} {st : StoreCall p}

/-- The file of a store has no attributes but its version and its own. -/
def OwnAttrs (s : State p) : Prop :=
  ∀ (i : Nat) st, s.stores[i]? = some st → ∀ key, key ≠ cacheVersionAttrKey →
    (∀ attr ∈ st.args.cacheDest.fileAttrs, key ≠ attr.1) → (s.files i).xattrs key = none

/-- A store moves on: its own file alone changes, and of that only the contents and attributes of its own. -/
def Advances (s : State p) (i : Nat) (st : StoreCall p) (s' : State p) : Prop :=
  ∃ (pc : StorePc) (files : Nat → LocalFile) (paths : String → Option Nat), s' = { s with files, paths }.gotoStore i st pc ∧
    (∀ f, f ≠ i → files f = s.files f) ∧
    ∀ key, key ≠ cacheVersionAttrKey → (∀ attr ∈ st.args.cacheDest.fileAttrs, key ≠ attr.1) →
      (files i).xattrs key = (s.files i).xattrs key

theorem Advances.rename (s : State p) (i : Nat) (st : StoreCall p) (pc : StorePc) (paths : String → Option Nat) :
    Advances s i st ({ s with paths }.gotoStore i st pc) :=
  ⟨pc, s.files, paths, rfl, fun _ _ => rfl, fun _ _ _ => rfl⟩

theorem Advances.setXattr (s : State p) (i : Nat) (st : StoreCall p) (pc : StorePc) {key : String}
    (value : String) (hown : key = cacheVersionAttrKey ∨ ∃ attr ∈ st.args.cacheDest.fileAttrs, key = attr.1) :
    Advances s i st ((s.modifyFile i (·.setXattr key value)).gotoStore i st pc) := by
  refine ⟨pc, _, s.paths, rfl, fun f hf => Function.update_of_ne hf _ _, fun key' hversion hattrs => ?_⟩
  rw [Function.update_self]
  refine LocalFile.setXattr_other _ _ ?_
  rintro rfl
  rcases hown with rfl | ⟨attr, ha, rfl⟩
  · exact hversion rfl
  · exact hattrs attr ha rfl

theorem storeStep_advances {ok : Bool} {written : Nat} (hinv : Inv s) (hi : s.stores[i]? = some st)
    (hs : storeStep s i st ok written = some s') : Advances s i st s' := by
  obtain ⟨args, pc⟩ := st
  cases pc with
  | start | sync =>
    cases hs
    exact .rename ..
  | create | cleanup =>
    cases ok <;> cases hs
    · exact .rename ..
    · exact .rename ..
  | write =>
    cases ok <;> cases hs
    · exact .rename ..
    · refine ⟨_, _, s.paths, rfl, fun f hf => Function.update_of_ne hf _ _, fun key _ _ => ?_⟩
      rw [Function.update_self]
  | version =>
    simp only [storeStep] at hs
    split at hs
    · cases hs
      exact .rename ..
    split at hs
    · next s'' hset =>
      cases hs
      rcases hinv.setSingleFileAttribute hi hset with ⟨hfalse, _⟩ | ⟨_, rfl⟩
      · cases hfalse
      · exact .setXattr _ _ _ _ _ (.inl rfl)
    · next s'' hset =>
      cases hs
      rcases hinv.setSingleFileAttribute hi hset with ⟨_, rfl⟩ | ⟨htrue, _⟩
      · exact .rename ..
      · cases htrue
    · cases hs
      exact .rename ..
  | attrs pending allOk =>
    cases pending with
    | nil =>
      cases hs
      exact .rename ..
    | cons attr pending =>
      obtain ⟨_, _, set, hsplit, _⟩ := hinv.stores i _ hi
      have hattr : attr ∈ args.cacheDest.fileAttrs := args.perm.mem_iff.mp (by rw [hsplit]; simp)
      simp only [storeStep] at hs
      split at hs
      · next s'' set hset =>
        cases hs
        rcases hinv.setSingleFileAttribute hi hset with ⟨_, rfl⟩ | ⟨_, rfl⟩
        · exact .rename ..
        · exact .setXattr _ _ _ _ _ (.inr ⟨attr, hattr, rfl⟩)
      · cases hs
        exact .rename ..
  | move =>
    simp only [storeStep] at hs
    split at hs
    · cases ok <;> cases hs
      · exact .rename ..
      · exact .rename ..
    · cases hs
      exact .rename ..
  | done => cases hs

theorem Advances.args (h : Advances s i st s') (hi : s.stores[i]? = some st) :
    s'.stores.map (·.args) = s.stores.map (·.args) := by
  obtain ⟨pc, files, paths, rfl, _⟩ := h
  change (s.stores.set i { st with pc }).map (·.args) = _
  rw [List.map_set]
  exact set_eq_self (by rw [List.getElem?_map, hi]; rfl)

theorem Advances.ownAttrs (h : Advances s i st s') (hi : s.stores[i]? = some st) (hown : OwnAttrs s) :
    OwnAttrs s' := by
  obtain ⟨pc, files, paths, rfl, hfiles, hself⟩ := h
  intro j st' hj key hkey hattrs
  rcases (getElem?_set_iff hi).mp hj with ⟨rfl, rfl⟩ | ⟨hne, hj⟩
  · exact (hself key hkey hattrs).trans (hown j st hi key hkey hattrs)
  · change (files j).xattrs key = none
    rw [hfiles j hne]
    exact hown j st' hj key hkey hattrs

theorem readStep_stores {r : ReadCall} (hs : readStep s i r = some s') :
    s'.stores = s.stores ∧ s'.files = s.files := by
  obtain ⟨path, chunkSize, versionTag, pc⟩ := r
  cases pc with
  | start | opened f | valid f | invalid =>
    cases hs
    exact ⟨rfl, rfl⟩
  | miss | hit bs | failed => cases hs

theorem step_ownAttrs {a : Act p} (hinv : Inv s) (h : OwnAttrs s) (hs : step s a = some s') :
    s.stores.map (·.args) <+: s'.stores.map (·.args) ∧ OwnAttrs s' := by
  cases a with
  | startStore args =>
    dsimp only [step] at hs
    split at hs
    · cases hs
    · cases hs
      refine ⟨by rw [List.map_append]; exact List.prefix_append _ _, fun i st hi key hkey hattrs => ?_⟩
      rcases getElem?_snoc_iff.mp hi with hi | ⟨rfl, rfl⟩
      · exact h i st hi key hkey hattrs
      · change (s.files _).xattrs key = none
        rw [hinv.fresh _ (Nat.le_refl _)]
  | store i ok written =>
    obtain ⟨st, hi, hs⟩ := Option.bind_eq_some_iff.mp hs
    have hadv := storeStep_advances hinv hi hs
    exact ⟨hadv.args hi ▸ List.prefix_refl _, hadv.ownAttrs hi h⟩
  | startRead path chunkSize versionTag | evict path | startCleanup listed =>
    cases hs
    exact ⟨List.prefix_refl _, h⟩
  | read i =>
    obtain ⟨r, _, hs⟩ := Option.bind_eq_some_iff.mp hs
    obtain ⟨hstores, hfiles⟩ := readStep_stores hs
    refine ⟨hstores ▸ List.prefix_refl _, fun i st hi => ?_⟩
    rw [hstores] at hi
    rw [hfiles]
    exact h i st hi
  | cleanup c path stale =>
    obtain ⟨paths, _, hs⟩ := Option.bind_eq_some_iff.mp hs
    dsimp only at hs
    split at hs
    · cases stale <;> cases hs
      · exact ⟨List.prefix_refl _, h⟩
      · exact ⟨List.prefix_refl _, h⟩
    · cases hs

/-- What is under a destination has the attributes of that destination. -/
theorem carriesAttrs_of_path (hp : p.OK) (hm : 0 < p.maxXattrValueSize) (hinv : Inv s) (hown : OwnAttrs s)
    {args : StoreArgs p} {file : Nat} (hpath : s.paths args.cacheDest.destLocalFilepath = some file) :
    CarriesAttrs args.cacheDest.fileAttrs (s.files file) := by
  obtain ⟨st, hst, ht | ⟨hd, _, hcomplete⟩⟩ := hinv.paths _ _ hpath
  · exact absurd ht.symm (StoreArgs.temp_ne_dest _ _)
  · have hattrs := (fileAttrs_of_dest hp hm args.resolved st.args.resolved hd).2
    rw [hattrs]
    exact ⟨hcomplete.attrs, hown file st hst⟩

end CacheDirectory

/-! ## Listings -/

/-- `DataCacheEntryInfo`, of a file on disk. -/
structure DataCacheEntryInfo where
  cacheFilepath : String
  originalRemotePath : String
  startOffset : Nat
  endOffset : Nat
  deriving DecidableEq, Repr

/-- What is made of a name, before its next attribute is read. -/
inductive ListingPc
  /-- The loop of `ReadChunkedXattr` in `TryGetOriginalCacheFilepath`. -/
  | cacheFilepath (idx : Nat) (result : String)
  /-- That in `TryGetOriginalRemotePath`. -/
  | remotePath (info : RemoteFileInfo) (idx : Nat) (result : String)
  | listed (entry : DataCacheEntryInfo)
  | threw (fault : Fault)
  deriving DecidableEq, Repr

structure InfoListing where
  path : String
  pc : ListingPc := .cacheFilepath 0 ""
  reads : Nat := 0
  deriving DecidableEq, Repr

structure ListingState (p : Platform) where
  directory : CacheDirectory.State p := {}
  listings : List InfoListing := []

inductive ListingAct (p : Platform)
  /-- A store, a read or a removal goes on. -/
  | files (act : CacheDirectory.Act p)
  | found (directory name : String)
  /-- Listing `i` reads its next attribute. -/
  | read (i : Nat)

/-- `GetFileXattr`, of the file that is at the path now. -/
def CacheDirectory.State.getFileXattr {p : Platform} (s : CacheDirectory.State p) (path key : String) : String :=
  match s.paths path with
  | some f => ReadCacheFs.getFileXattr (s.files f) key
  | none => ""

section Listings

variable (p : Platform) (split : StringSplit)

/-- The next attribute, read as `chunk`, and what follows until the one after it. -/
def InfoListing.read (l : InfoListing) (getChunk : String → String) : Option ListingPc :=
  match l.pc with
  | .cacheFilepath idx result =>
    let chunk := getChunk (xattrChunkKey "user.cache_httpfs_cache_filepath" idx)
    if chunk ≠ "" then some (.cacheFilepath (idx + 1) (result ++ chunk))
    else match parseLocalFilename split (p.getFileName (if result = "" then l.path else result)) with
      | .ok info => some (.remotePath info 0 "")
      | .error fault => some (.threw fault)
  | .remotePath info idx result =>
    let chunk := getChunk (xattrChunkKey "user.cache_httpfs_remote_path" idx)
    if chunk ≠ "" then some (.remotePath info (idx + 1) (result ++ chunk))
    else some (.listed ⟨l.path, result, info.startOffset, info.endOffset⟩)
  | .listed _ | .threw _ => none

def listingStep (s : ListingState p) : ListingAct p → Option (ListingState p)
  | .files act => (CacheDirectory.step s.directory act).map fun directory => { s with directory }
  | .found directory name =>
    let path := directory ++ "/" ++ name
    if (s.directory.paths path).isNone then none
    else if isTempCacheFile name then some s
    else some { s with listings := s.listings ++ [{ path }] }
  | .read i => (s.listings[i]?).bind fun l =>
    (l.read p split (s.directory.getFileXattr l.path)).map fun pc =>
      { s with listings := s.listings.set i { l with pc, reads := l.reads + 1 } }

end Listings

section Reports

variable {p : Platform} {split : StringSplit} {s s' : ListingState p} {args : CacheDirectory.StoreArgs p}
    {i : Nat}

/-- A name that can be told apart, and a range that does not wrap. -/
structure CacheDirectory.StoreArgs.Listable (args : CacheDirectory.StoreArgs p) : Prop where
  basename : ∃ c ∈ (p.getFileName (stripQueryAndFragment args.remoteFile)).toList, c ≠ '-'
  range : args.startOffset + args.bytesToRead < 2 ^ 64

/-- The entry is that of the stored chunk. -/
def CacheDirectory.StoreArgs.entry (args : CacheDirectory.StoreArgs p) : DataCacheEntryInfo where
  cacheFilepath := args.cacheDest.destLocalFilepath
  originalRemotePath := args.remoteFile
  startOffset := args.startOffset
  endOffset := args.startOffset + args.bytesToRead

/-- The entry of the chunk, its remote path maybe cut short after some of its attributes. -/
def CacheDirectory.StoreArgs.CutEntry (args : CacheDirectory.StoreArgs p) (e : DataCacheEntryInfo) : Prop :=
  ∃ k, e = { args.entry with
    originalRemotePath := String.ofList (args.remoteFile.toList.take (k * p.maxXattrValueSize)) }

/-- What a listing of a stored chunk's file has, the file staying under its path throughout or not. -/
def InfoListing.OK (args : CacheDirectory.StoreArgs p) (original : List Char) (Stays : Prop)
    (l : InfoListing) : Prop :=
  match l.pc with
  | .cacheFilepath idx result => result = String.ofList (original.take (idx * p.maxXattrValueSize)) ∧ l.reads = idx ∧
      idx ≤ xattrChunkCount p original
  | .remotePath info idx result => info.startOffset = args.startOffset ∧
      info.endOffset = args.startOffset + args.bytesToRead ∧
      result = String.ofList (args.remoteFile.toList.take (idx * p.maxXattrValueSize)) ∧
      l.reads ≤ xattrChunkCount p original + 1 + idx ∧ idx ≤ xattrChunkCount p args.remoteFile.toList
  | .listed e => args.CutEntry e ∧ (Stays → e = args.entry) ∧
      l.reads ≤ xattrChunkCount p original + xattrChunkCount p args.remoteFile.toList + 2
  | .threw _ => False

theorem take_append_chunk (hm : 0 < p.maxXattrValueSize) {value : List Char} {idx : Nat} {result chunk : String}
    (hresult : result = String.ofList (value.take (idx * p.maxXattrValueSize)))
    (hchunk : chunk = String.ofList (slice value (idx * p.maxXattrValueSize) p.maxXattrValueSize)) :
    (chunk ≠ "" → result ++ chunk = String.ofList (value.take ((idx + 1) * p.maxXattrValueSize)) ∧
      idx + 1 ≤ xattrChunkCount p value) ∧
      (chunk = "" → result = String.ofList value) := by
  constructor
  · intro hne
    refine ⟨by rw [hresult, hchunk, ← String.ofList_append, take_append_slice, ← Nat.succ_mul], ?_⟩
    refine (lt_xattrChunkCount hm).mpr ?_
    by_contra hge
    have hnil : slice value (idx * p.maxXattrValueSize) p.maxXattrValueSize = [] :=
      List.eq_nil_of_length_eq_zero (by rw [length_slice]; omega)
    rw [hnil] at hchunk
    exact hne hchunk
  · intro he
    have hlen := congrArg (fun s => s.toList.length) (hchunk.symm.trans he)
    simp only [String.toList_ofList, length_slice, String.toList_empty, List.length_nil] at hlen
    rw [hresult, List.take_of_length_le (by omega)]

theorem InfoListing.OK.read (hp : p.Readable) (hl : args.Listable) {original : List Char}
    {info : RemoteFileCachePathInfo}
    (hi : buildRemoteFileCachePathInfo p args.cacheDirectories args.remoteFile = .ok info)
    (hnames : NamesChunk p args.cacheDest args.remoteFile args.startOffset args.bytesToRead original info)
    {Stays : Prop} {l : InfoListing} (hpath : l.path = args.cacheDest.destLocalFilepath)
    (h : l.OK args original Stays)
    (hstays : Stays ∨ original = []) {getChunk : String → String}
    (hcache : ∀ idx, getChunk (xattrChunkKey "user.cache_httpfs_cache_filepath" idx) =
        String.ofList (slice original (idx * p.maxXattrValueSize) p.maxXattrValueSize) ∨
      (getChunk (xattrChunkKey "user.cache_httpfs_cache_filepath" idx) = "" ∧ ¬Stays))
    (hremote : ∀ idx, getChunk (xattrChunkKey "user.cache_httpfs_remote_path" idx) =
        String.ofList (slice args.remoteFile.toList (idx * p.maxXattrValueSize) p.maxXattrValueSize) ∨
      (getChunk (xattrChunkKey "user.cache_httpfs_remote_path" idx) = "" ∧ ¬Stays))
    {pc : ListingPc} (hread : l.read p split getChunk = some pc) :
    InfoListing.OK args original Stays { l with pc, reads := l.reads + 1 } := by
  obtain ⟨path, pc₀, reads⟩ := l
  dsimp only at hpath
  subst hpath
  have hm := hp.maxXattrValueSize_pos
  cases pc₀ with
  | cacheFilepath idx result =>
    obtain ⟨hresult, hreads, hidx⟩ := h
    simp only [InfoListing.read] at hread
    split at hread
    next hne =>
      cases hread
      rcases hcache idx with hchunk | ⟨hempty, _⟩
      · obtain ⟨hnext, hle⟩ := (take_append_chunk hm hresult hchunk).1 hne
        exact ⟨hnext, congrArg Nat.succ hreads, hle⟩
      · exact absurd hempty hne
    next hempty =>
      have hempty := not_not.mp hempty
      have hwhole : result = String.ofList original := by
        rcases hcache idx with hchunk | ⟨_, hgone⟩
        · exact (take_append_chunk hm hresult hchunk).2 hempty
        · rw [hresult, hstays.resolve_left hgone, List.take_nil]
      have hn := buildRemoteFileCachePathInfo_names hi
      have hrange := hl.range
      obtain ⟨found, hfound, hstart, hstop⟩ := parseLocalFilename_eq split
        (hn.hex ▸ notMem_sha256ToHexString (by decide) _ : '-' ∉ info.remoteFileSha256Hex.toList)
        (hn.hex ▸ sha256ToHexString_ne_nil (hp.sha256_ne_nil _)) (hn.basename ▸ hl.basename)
        (by omega : args.startOffset < 2 ^ 64) (by omega : args.bytesToRead < 2 ^ 64)
      rw [hwhole, hnames.fileName, RemoteFileCachePathInfo.fileName, hfound] at hread
      cases hread
      exact ⟨hstart, hstop.trans (u64_eq hrange), by simp, by dsimp only at hreads ⊢; omega, Nat.zero_le _⟩
  | remotePath found idx result =>
    obtain ⟨hstart, hstop, hresult, hreads, hidx⟩ := h
    simp only [InfoListing.read] at hread
    split at hread
    next hne =>
      cases hread
      rcases hremote idx with hchunk | ⟨hempty, _⟩
      · obtain ⟨hnext, hle⟩ := (take_append_chunk hm hresult hchunk).1 hne
        exact ⟨hstart, hstop, hnext, by dsimp only at hreads ⊢; omega, hle⟩
      · exact absurd hempty hne
    next hempty =>
      cases hread
      refine ⟨⟨idx, by rw [hstart, hstop, hresult]; rfl⟩, fun hst => ?_, by dsimp only at hreads ⊢; omega⟩
      have hchunk := (hremote idx).resolve_right fun hgone => hgone.2 hst
      rw [(take_append_chunk hm hresult hchunk).2 (not_not.mp hempty), String.ofList_toList, hstart, hstop]
      rfl
  | listed e => cases hread
  | threw fault => cases hread

theorem getFileXattr_chunk (hp : p.OK) (hm : 0 < p.maxXattrValueSize) {directory : CacheDirectory.State p}
    (hinv : CacheDirectory.Inv directory) (hown : CacheDirectory.OwnAttrs directory) {Stays : Prop}
    (hpresent : Stays → (directory.paths args.cacheDest.destLocalFilepath).isSome = true) {keyPrefix : String}
    {value : List Char} (hv : HoldsValue p args.cacheDest.fileAttrs keyPrefix value) (idx : Nat) :
    directory.getFileXattr args.cacheDest.destLocalFilepath (xattrChunkKey keyPrefix idx) =
        String.ofList (slice value (idx * p.maxXattrValueSize) p.maxXattrValueSize) ∨
      (directory.getFileXattr args.cacheDest.destLocalFilepath (xattrChunkKey keyPrefix idx) = "" ∧ ¬Stays) := by
  unfold CacheDirectory.State.getFileXattr
  cases hpath : directory.paths args.cacheDest.destLocalFilepath with
  | some f => exact .inl ((CacheDirectory.carriesAttrs_of_path hp hm hinv hown hpath).chunk hm hv idx)
  | none => exact .inr ⟨rfl, fun hs => by simpa [hpath] using hpresent hs⟩

structure ListingState.Sound (s : ListingState p) : Prop where
  inv : CacheDirectory.Inv s.directory
  own : CacheDirectory.OwnAttrs s.directory
  stored : ∀ l ∈ s.listings, ∃ args ∈ s.directory.stores.map (·.args), args.cacheDest.destLocalFilepath = l.path

theorem ListingState.Sound.step (h : s.Sound) {a : ListingAct p} (hs : listingStep p split s a = some s') :
    s'.Sound := by
  cases a with
  | files act =>
    obtain ⟨directory, hd, rfl⟩ := Option.map_eq_some_iff.mp hs
    obtain ⟨hgrown, hown⟩ := CacheDirectory.step_ownAttrs h.inv h.own hd
    refine ⟨CacheDirectory.step_inv h.inv hd, hown, fun l hl => ?_⟩
    obtain ⟨args, hargs, hpath⟩ := h.stored l hl
    exact ⟨args, hgrown.subset hargs, hpath⟩
  | found directory name =>
    simp only [listingStep] at hs
    split at hs
    · cases hs
    next hsome =>
      split at hs
      · cases hs
        exact h
      next htemp =>
        cases hs
        refine ⟨h.inv, h.own, fun l hl => ?_⟩
        rcases List.mem_append.mp hl with hl | hl
        · exact h.stored l hl
        · obtain rfl := List.mem_singleton.mp hl
          obtain ⟨f, hf⟩ := Option.ne_none_iff_exists'.mp fun hnone => hsome (Option.isNone_iff_eq_none.mpr hnone)
          obtain ⟨st, hst, ht | ⟨hd, _⟩⟩ := h.inv.paths _ f hf
          · -- The temporary names were left out.
            have hname := (localCacheDestination_names st.args.resolved).1
            exact absurd (isTempCacheFile_of_path (ht.trans hname ▸ getTempCacheFilePath_isTemp _ _)) htemp
          · exact ⟨st.args, List.mem_map_of_mem (List.mem_of_getElem? hst), hd.symm⟩
  | read j =>
    obtain ⟨l, hl, hs⟩ := Option.bind_eq_some_iff.mp hs
    obtain ⟨pc, _, rfl⟩ := Option.map_eq_some_iff.mp hs
    refine ⟨h.inv, h.own, fun l' hl' => ?_⟩
    rcases List.mem_or_eq_of_mem_set hl' with hl' | rfl
    · exact h.stored l' hl'
    · exact h.stored l (List.mem_of_getElem? hl)

def Present (i : Nat) (s : ListingState p) : ListingAct p → Prop
  | .read j => j = i → ∀ l ∈ s.listings[i]?, (s.directory.paths l.path).isSome = true
  | _ => True

instance (i : Nat) (s : ListingState p) (a : ListingAct p) : Decidable (Present i s a) :=
  match a with
  | .read _ => inferInstanceAs (Decidable (_ → ∀ _ ∈ _, _))
  | .files _ | .found .. => .isTrue trivial

/-- What listing `i` has, if it is of the chunk's file. -/
def ListingState.ListingOK (s : ListingState p) (args : CacheDirectory.StoreArgs p) (original : List Char)
    (Stays : Prop) (i : Nat) : Prop :=
  ∀ l, s.listings[i]? = some l → l.path = args.cacheDest.destLocalFilepath → l.OK args original Stays

theorem ListingState.ListingOK.step (hp : p.OK) (hr : p.Readable) (hl : args.Listable) {original : List Char}
    {info : RemoteFileCachePathInfo}
    (hi : buildRemoteFileCachePathInfo p args.cacheDirectories args.remoteFile = .ok info)
    (hnames : NamesChunk p args.cacheDest args.remoteFile args.startOffset args.bytesToRead original info)
    {Stays : Prop} (hstays : Stays ∨ original = []) (hsound : s.Sound) (h : s.ListingOK args original Stays i)
    {a : ListingAct p} (hpresent : Stays → Present i s a) (hs : listingStep p split s a = some s') :
    s'.ListingOK args original Stays i := by
  cases a with
  | files act =>
    obtain ⟨directory, _, rfl⟩ := Option.map_eq_some_iff.mp hs
    exact h
  | found directory name =>
    simp only [listingStep] at hs
    split at hs
    · cases hs
    split at hs
    · cases hs
      exact h
    · cases hs
      intro l hl' hpath
      rcases getElem?_snoc_iff.mp hl' with hl' | ⟨_, rfl⟩
      · exact h l hl' hpath
      · simp [InfoListing.OK]
  | read j =>
    obtain ⟨l, hlj, hs⟩ := Option.bind_eq_some_iff.mp hs
    obtain ⟨pc, hread, rfl⟩ := Option.map_eq_some_iff.mp hs
    intro l' hl' hpath
    rcases (getElem?_set_iff hlj).mp hl' with ⟨rfl, rfl⟩ | ⟨_, hl'⟩
    · have hthere : Stays → (s.directory.paths args.cacheDest.destLocalFilepath).isSome = true :=
        fun hst => hpath ▸ hpresent hst rfl l hlj
      have hm := hr.maxXattrValueSize_pos
      have hpath : l.path = args.cacheDest.destLocalFilepath := hpath
      rw [hpath] at hread
      exact InfoListing.OK.read hr hl hi hnames hpath (h l hlj hpath) hstays
        (getFileXattr_chunk hp hm hsound.inv hsound.own hthere hnames.cacheFilepath)
        (getFileXattr_chunk hp hm hsound.inv hsound.own hthere hnames.remotePath) hread
    · exact h l' hl' hpath

/-- The chunk's file is listed without fault, in no more reads than its
attributes and one past each of the two values. -/
def InfoListing.Lists (l : InfoListing) (args : CacheDirectory.StoreArgs p)
    (Entry : DataCacheEntryInfo → Prop) : Prop :=
  (∀ fault, l.pc ≠ .threw fault) ∧ l.reads ≤ args.cacheDest.fileAttrs.length + 2 ∧ ∀ e, l.pc = .listed e → Entry e

theorem InfoListing.OK.lists {original : List Char} {info : RemoteFileCachePathInfo}
    (hnames : NamesChunk p args.cacheDest args.remoteFile args.startOffset args.bytesToRead original info)
    {Stays : Prop}
    {l : InfoListing} (h : l.OK args original Stays) :
    l.Lists args fun e => args.CutEntry e ∧ (Stays → e = args.entry) := by
  have hlength := hnames.length
  obtain ⟨path, pc, reads⟩ := l
  cases pc with
  | cacheFilepath idx result =>
    obtain ⟨_, hreads, hidx⟩ := h
    exact ⟨by simp, by dsimp only at hreads ⊢; omega, by simp⟩
  | remotePath found idx result =>
    obtain ⟨_, _, _, hreads, hidx⟩ := h
    exact ⟨by simp, by dsimp only at hreads ⊢; omega, by simp⟩
  | listed e =>
    obtain ⟨hcut, hexact, hreads⟩ := h
    refine ⟨by simp, by dsimp only at hreads ⊢; omega, fun e' he => ?_⟩
    cases he
    exact ⟨hcut, hexact⟩
  | threw fault => exact h.elim

/-- **A status query reports what is stored.** Whatever is stored, read and
removed meanwhile, a cache file that is listed was stored; if it stays there
while it is listed, its entry is that of the chunk; and if its name is a
plain one, its entry is so but for a remote path that may be cut short. -/
theorem listing_reports_stored (p : Platform) (hp : p.OK) (hr : p.Readable) (split : StringSplit)
    (as : List (ListingAct p)) (s : ListingState p) (hrun : exec (listingStep p split) {} as = some s)
    (i : Nat) (l : InfoListing) (hl : s.listings[i]? = some l) :
    (∃ st ∈ s.directory.stores, st.args.cacheDest.destLocalFilepath = l.path) ∧
    ∀ args : CacheDirectory.StoreArgs p, args.cacheDest.destLocalFilepath = l.path → args.Listable →
      (Guarded (listingStep p split) (Present i) {} as → l.Lists args (· = args.entry)) ∧
      (args.Plain → l.Lists args args.CutEntry) := by
  have hstart : ({} : ListingState p).Sound := ⟨.init, by simp [CacheDirectory.OwnAttrs], by simp⟩
  have hsound : s.Sound := exec_invariant (fun _ _ _ h hs => h.step hs) hrun hstart
  constructor
  · obtain ⟨args, hargs, hpath⟩ := hsound.stored l (List.mem_of_getElem? hl)
    obtain ⟨st, hst, rfl⟩ := List.mem_map.mp hargs
    exact ⟨st, hst, hpath⟩
  intro args hdest hlistable
  obtain ⟨info, original, hi, hnames⟩ := localCacheDestination_namesChunk hr args.resolved
  have hlists : ∀ Stays : Prop, (Stays ∨ original = []) →
    (Stays → Guarded (listingStep p split) (Present i) {} as) →
      l.Lists args fun e => args.CutEntry e ∧ (Stays → e = args.entry) := by
    intro Stays hstays hguard
    have hpresent : Guarded (listingStep p split) (fun s a => Stays → Present i s a) {} as := by
      by_cases hst : Stays
      · exact Guarded.imp (fun s a _ h _ => h) (hguard hst)
      · exact Guarded.imp (fun s a _ _ h => absurd h hst)
          (Guarded.of_forall (G := fun _ => True) fun _ _ => trivial)
    have hrun' := exec_guarded_invariant (I := fun s : ListingState p => s.Sound ∧
      s.ListingOK args original Stays i)
      (fun s a s' h hg hs => ⟨h.1.step hs, h.2.step hp hr hlistable hi hnames hstays h.1 hg hs⟩) hpresent hrun
      ⟨hstart, fun l hl => by simp at hl⟩
    exact (hrun'.2 l hl hdest.symm).lists hnames
  constructor
  · intro hguard
    obtain ⟨hthrew, hreads, hentry⟩ := hlists True (.inl trivial) fun _ => hguard
    exact ⟨hthrew, hreads, fun e he => (hentry e he).2 trivial⟩
  · intro hplain
    obtain ⟨hthrew, hreads, hentry⟩ :=
      hlists False (.inr (hplain.original_eq_nil hr hnames.cacheFilepath)) False.elim
    exact ⟨hthrew, hreads, fun e he => (hentry e he).1⟩

/-- Where the name is a hash, and the file goes before its first attribute is read, the query throws. -/
theorem listing_of_removed_throws (hr : p.Readable) (hplain : ¬args.Plain) {l : InfoListing}
    (hpath : l.path = args.cacheDest.destLocalFilepath) (hpc : l.pc = .cacheFilepath 0 "")
    (hgone : s.directory.paths l.path = none) :
    l.read p split (s.directory.getFileXattr l.path) = some (.threw .assertFailed) := by
  obtain ⟨info, hi, hresolve⟩ := localCacheDestination_ok args.resolved
  have hdest := (resolve_dest hresolve).resolve_left fun h => hplain ⟨info, hi, h⟩
  have hempty : ∀ key, s.directory.getFileXattr l.path key = "" := by
    simp [CacheDirectory.State.getFileXattr, hgone]
  have hslash :
      '/' ∉ (sha256ToHexString (p.sha256 (getLocalCacheFile info args.startOffset args.bytesToRead))).toList :=
    notMem_sha256ToHexString (by decide) _
  have hname : p.getFileName l.path =
      sha256ToHexString (p.sha256 (getLocalCacheFile info args.startOffset args.bytesToRead)) := by
    rw [hpath, hdest, hr.getFileName_append _ _ hslash]
  have hone : (split.split (p.getFileName l.path).toList '-').length < 4 := by
    have hle := (split.sublist (p.getFileName l.path).toList '-').length_le
    rw [hname, List.splitOn_eq_singleton (notMem_sha256ToHexString (by decide) _)] at hle
    rw [hname]
    exact Nat.lt_of_le_of_lt hle (by simp)
  have hparse : parseLocalFilename split (p.getFileName l.path) = .error .assertFailed := by
    simp only [parseLocalFilename, if_pos hone]
  simp [InfoListing.read, hpc, hempty, hparse]

end Reports

theorem uuid1_size : CacheDirectory.uuid1.text.utf8ByteSize = 36 := by decide

theorem uuid2_size : CacheDirectory.uuid2.text.utf8ByteSize = 36 := by decide

open CacheDirectory in
/-- The file is replaced between two attributes of a first listing, and removed between two of a second. -/
def listingX : List (ListingAct (linuxPlatform knownSha256)) :=
  let name := "28b1755ca62c562b7e6cca7e49a8f63203a1ff8ef42eab991cc60893cd590cfe-x-0-4"
  [.files (.startStore (storeX uuid1 uuid1_size [1, 2, 3, 4] "v1"))] ++ List.replicate 9 (.files (.store 0 true 4)) ++
    [.found "/c" name, .read 0, .files (.startStore (storeX uuid2 uuid2_size [5, 6, 7, 8] "v2"))] ++
    List.replicate 9 (.files (.store 1 true 4)) ++
    [.read 0, .found "/c" name, .read 1, .read 0, .files (.evict ("/c/" ++ name)), .read 1]

open CacheDirectory in
theorem listing_reports_stored_x :
    ∃ s, exec (listingStep (linuxPlatform knownSha256) .keepEmpty) {} listingX = some s ∧
      ∃ l l', s.listings[0]? = some l ∧ s.listings[1]? = some l' ∧
        l.Lists (storeX uuid1 uuid1_size [1, 2, 3, 4] "v1") (· = ⟨l.path, "s3://b/x", 0, 4⟩) ∧
        l'.Lists (storeX uuid1 uuid1_size [1, 2, 3, 4] "v1")
          (storeX uuid1 uuid1_size [1, 2, 3, 4] "v1").CutEntry := by
  have hrun : (exec (listingStep (linuxPlatform knownSha256) .keepEmpty) {} listingX).map (fun s =>
      s.listings.map (·.path)) = some [(destX uuid1).destLocalFilepath, (destX uuid1).destLocalFilepath] := by
    decide +kernel
  have hpresent : Guarded (listingStep (linuxPlatform knownSha256) .keepEmpty) (Present 0) {} listingX := by
    decide +kernel
  obtain ⟨s, hs, hpaths⟩ := Option.map_eq_some_iff.mp hrun
  obtain ⟨l, rest, hl, hpath, hrest⟩ := List.map_eq_cons_iff.mp hpaths
  obtain ⟨l', rest', rfl, hpath', _⟩ := List.map_eq_cons_iff.mp hrest
  have hlistable : (storeX uuid1 uuid1_size [1, 2, 3, 4] "v1").Listable :=
    ⟨⟨'x', by decide +kernel, by decide⟩, by decide⟩
  have hplain : (storeX uuid1 uuid1_size [1, 2, 3, 4] "v1").Plain := by
    have hinfo : (buildRemoteFileCachePathInfo (linuxPlatform knownSha256) ["/c"] "s3://b/x").map
        (fun info => getLocalCacheFile info 0 4) = .ok (destX uuid1).destLocalFilepath := by decide +kernel
    obtain ⟨info, hi, hdest⟩ := except_map_eq_ok.mp hinfo
    exact ⟨info, hi, hdest.symm⟩
  have hreadable : (linuxPlatform knownSha256).Readable := linuxPlatform_readable (by decide +kernel)
  have h := (listing_reports_stored _ knownSha256_ok hreadable .keepEmpty listingX s hs 0 l (by simp [hl])).2
    (storeX uuid1 uuid1_size [1, 2, 3, 4] "v1") hpath.symm hlistable
  have h' := (listing_reports_stored _ knownSha256_ok hreadable .keepEmpty listingX s hs 1 l' (by simp [hl])).2
    (storeX uuid1 uuid1_size [1, 2, 3, 4] "v1") hpath'.symm hlistable
  refine ⟨s, hs, l, l', by simp [hl], by simp [hl], ?_, h'.2 hplain⟩
  rw [hpath]
  exact h.1 hpresent

end ReadCacheFs
