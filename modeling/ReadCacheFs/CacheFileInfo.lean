/-
What is read back from a cache file about the chunk in it: the range, from
the tokens at the end of its name, and the remote path, from its attributes.

A name too long for the platform is replaced by a hash, and then the name
read is the one kept in the attributes. A long value is cut into numbered
attributes, which are read up to the first that is missing.
-/
import ReadCacheFs.PublishedFiles
import ReadCacheFs.StringUtil

namespace ReadCacheFs

open Lib CacheDirectory

/-! ## Reading -/

/-- `GetFileXattr`: a missing attribute reads as empty. -/
def getFileXattr (file : LocalFile) (key : String) : String := (file.xattrs key).getD ""

def xattrChunkKey (keyPrefix : String) (idx : Nat) : String := keyPrefix ++ "." ++ format03 idx

/-- The loop of `ReadChunkedXattr`. -/
def readChunkedXattrFrom (file : LocalFile) (keyPrefix : String) : Nat → Nat → String → Except Fault String
  | 0, _, _ => .error .diverges
  | fuel + 1, idx, result =>
    let chunk := getFileXattr file (xattrChunkKey keyPrefix idx)
    if chunk = "" then .ok result else readChunkedXattrFrom file keyPrefix fuel (idx + 1) (result ++ chunk)

def readChunkedXattr (file : LocalFile) (keyPrefix : String) : Except Fault String :=
  readChunkedXattrFrom file keyPrefix loopBound 0 ""

def tryGetOriginalCacheFilepath (file : LocalFile) : Except Fault String :=
  readChunkedXattr file "user.cache_httpfs_cache_filepath"

structure RemoteFileInfo where
  remoteFilename : String
  startOffset : Nat
  endOffset : Nat
  deriving DecidableEq, Repr

/-- What `GetRemoteFileInfo` makes of a name, `<hash>-<remote-fname>-<start-offset>-<block-size>`. -/
def parseLocalFilename (split : StringSplit) (localFilename : String) : Except Fault RemoteFileInfo := do
  let tokens := split.split localFilename.toList '-'
  if tokens.length < 4 then .error .assertFailed
  else
    let remotePathTokens := slice tokens 1 (tokens.length - 3)
    let startOffset ← toUnsigned (tokens.getD (tokens.length - 2) [])
    let blockSize ← toUnsigned (tokens.getD (tokens.length - 1) [])
    .ok
      { remoteFilename := "/".intercalate (remotePathTokens.map String.ofList), startOffset
        endOffset := u64 (startOffset + blockSize) }

def getRemoteFileInfo (p : Platform) (split : StringSplit) (cacheFilepath : String) (file : LocalFile) :
    Except Fault RemoteFileInfo := do
  let originalFilepath ← tryGetOriginalCacheFilepath file
  parseLocalFilename split (p.getFileName (if originalFilepath = "" then cacheFilepath else originalFilepath))

/-! ## Storing -/

/-- The attributes of a file are those of a store: the version, if any, and its own. -/
structure CacheDirectory.StoreArgs.HasAttrs {p : Platform} (args : StoreArgs p) (file : LocalFile) : Prop where
  set : ∀ attr ∈ args.cacheDest.fileAttrs, file.xattrs attr.1 = some attr.2
  unset : ∀ key, key ≠ cacheVersionAttrKey → (∀ attr ∈ args.cacheDest.fileAttrs, key ≠ attr.1) → file.xattrs key = none

variable {p : Platform}

/-- How many chunks a value is cut into. -/
def xattrChunkCount (p : Platform) (value : List Char) : Nat :=
  (value.length + p.maxXattrValueSize - 1) / p.maxXattrValueSize

theorem xattrChunkKey_injective (keyPrefix : String) : Function.Injective (xattrChunkKey keyPrefix) := by
  intro m n h
  have hl := congrArg String.toList h
  simp only [xattrChunkKey, String.toList_append, List.append_cancel_left_eq] at hl
  exact format03_injective (String.toList_inj.mp hl)

theorem mem_chunkedXattrEntries {keyPrefix : String} {value : List Char} {attr : String × String} :
    attr ∈ chunkedXattrEntries p keyPrefix value ↔ ∃ idx < xattrChunkCount p value, attr =
      (xattrChunkKey keyPrefix idx,
        String.ofList (slice value (idx * p.maxXattrValueSize) p.maxXattrValueSize)) := by
  simp only [chunkedXattrEntries, List.mem_map, List.mem_range, xattrChunkCount, xattrChunkKey, eq_comm]

theorem lt_xattrChunkCount (hm : 0 < p.maxXattrValueSize) {value : List Char} {idx : Nat} :
    idx < xattrChunkCount p value ↔ idx * p.maxXattrValueSize < value.length := by
  rw [xattrChunkCount, Nat.lt_div_iff_mul_lt hm]
  omega

/-- The chunks are read in order up to the first that is missing. -/
theorem readChunkedXattrFrom_eq (hm : 0 < p.maxXattrValueSize) {file : LocalFile} {keyPrefix : String}
    {value : List Char}
    (hset : ∀ attr ∈ chunkedXattrEntries p keyPrefix value, file.xattrs attr.1 = some attr.2)
    (hgap : file.xattrs (xattrChunkKey keyPrefix (xattrChunkCount p value)) = none) {fuel idx : Nat}
    (hidx : idx ≤ xattrChunkCount p value) (hfuel : xattrChunkCount p value < idx + fuel) :
    readChunkedXattrFrom file keyPrefix fuel idx (String.ofList (value.take (idx * p.maxXattrValueSize))) =
      .ok (String.ofList value) := by
  induction fuel generalizing idx with
  | zero => omega
  | succ fuel ih =>
    rw [readChunkedXattrFrom]
    by_cases hlast : idx = xattrChunkCount p value
    · have hall : value.length ≤ idx * p.maxXattrValueSize := by
        have hnot := (@lt_xattrChunkCount p hm value idx).not.mp (Nat.not_lt.mpr (Nat.le_of_eq hlast.symm))
        omega
      simp only [getFileXattr, hlast ▸ hgap, Option.getD_none, if_true, List.take_of_length_le hall]
    · have hlt : idx < xattrChunkCount p value := by omega
      have hentry := hset _ (mem_chunkedXattrEntries.mpr ⟨idx, hlt, rfl⟩)
      have hpos := (lt_xattrChunkCount hm).mp hlt
      have hne : String.ofList (slice value (idx * p.maxXattrValueSize) p.maxXattrValueSize) ≠ "" := by
        intro he
        have hl := congrArg (fun s => s.toList.length) he
        simp only [String.toList_ofList, length_slice, String.toList_empty, List.length_nil] at hl
        omega
      simp only [getFileXattr, hentry, Option.getD_some, if_neg hne]
      rw [← String.ofList_append, take_append_slice, ← Nat.succ_mul]
      exact ih (by omega) (by omega)

theorem readChunkedXattr_eq (hm : 0 < p.maxXattrValueSize) {file : LocalFile} {keyPrefix : String}
    {value : List Char}
    (hset : ∀ attr ∈ chunkedXattrEntries p keyPrefix value, file.xattrs attr.1 = some attr.2)
    (hgap : file.xattrs (xattrChunkKey keyPrefix (xattrChunkCount p value)) = none)
    (hlen : value.length < 2 ^ 64) :
    readChunkedXattr file keyPrefix = .ok (String.ofList value) := by
  have hcount : xattrChunkCount p value < loopBound := by
    by_contra hge
    have hlt := (@lt_xattrChunkCount p hm value value.length).mp (by unfold loopBound at hge; omega)
    have hle := Nat.le_mul_of_pos_right value.length hm
    omega
  have h := readChunkedXattrFrom_eq hm hset hgap (Nat.zero_le _) (by rw [Nat.zero_add]; exact hcount)
  rw [Nat.zero_mul, List.take_zero] at h
  exact h

/-! ## Names -/

/-- What the functions outside of this repository do. -/
structure Platform.Readable (p : Platform) : Prop where
  getFileName_notMem : ∀ path, '/' ∉ (p.getFileName path).toList
  getFileName_append : ∀ dir name : String, '/' ∉ name.toList → p.getFileName (dir ++ "/" ++ name) = name
  sha256_ne_nil : ∀ s, p.sha256 s ≠ []
  maxXattrValueSize_pos : 0 < p.maxXattrValueSize

theorem sha256ToHexString_ne_nil {sha256 : List UInt8} (h : sha256 ≠ []) :
    (sha256ToHexString sha256).toList ≠ [] := by
  obtain ⟨byte, rest, rfl⟩ := List.exists_cons_of_ne_nil h
  simp [sha256ToHexString]

theorem repr_ne_nil (n : Nat) : n.repr.toList ≠ [] := by
  rw [Nat.toList_repr]
  exact Nat.toDigits_ne_nil

theorem splitOn_localFilename {hex : String} (hhex : '-' ∉ hex.toList) (base : String) (off n : Nat) :
    (hex ++ "-" ++ base ++ "-" ++ off.repr ++ "-" ++ n.repr).toList.splitOn '-' =
      (hex.toList :: base.toList.splitOn '-') ++ [off.repr.toList, n.repr.toList] := by
  have hd : ('-' : Char).isDigit = false := rfl
  have hcut : (hex ++ "-" ++ base ++ "-" ++ off.repr ++ "-" ++ n.repr).toList =
      hex.toList ++ '-' :: (base.toList ++ '-' :: (off.repr.toList ++ '-' :: n.repr.toList)) := by simp
  rw [hcut, List.splitOn_append_cons_self_of_not_mem hhex, List.splitOn_append_cons_self,
    List.splitOn_append_cons_self_of_not_mem (notMem_repr hd off), List.splitOn_eq_singleton (notMem_repr hd n)]
  rfl

/-- The offset and the size are the last two tokens of a name. -/
theorem parseLocalFilename_eq (split : StringSplit) {hex base : String} (hhex : '-' ∉ hex.toList)
    (hne : hex.toList ≠ []) (hbase : ∃ c ∈ base.toList, c ≠ '-') {off n : Nat} (hoff : off < 2 ^ 64)
    (hn : n < 2 ^ 64) :
    ∃ info, parseLocalFilename split (hex ++ "-" ++ base ++ "-" ++ off.repr ++ "-" ++ n.repr) = .ok info ∧
      info.startOffset = off ∧ info.endOffset = u64 (off + n) := by
  obtain ⟨kept, hsplit, hkept⟩ := split.split_append (splitOn_localFilename hhex base off n) fun piece hp => by
    rcases List.mem_pair.mp hp with rfl | rfl
    · exact repr_ne_nil off
    · exact repr_ne_nil n
  -- The hash and a piece of the basename are not empty: with the two numbers, four tokens.
  have hlen : 2 ≤ kept.length := by
    obtain ⟨c, hc, hne'⟩ := hbase
    obtain ⟨piece, hp, hcp⟩ := exists_mem_splitOn hc hne'
    have hfront : piece ∈ (base.toList.splitOn '-').filter (· ≠ []) :=
      List.mem_filter.mpr ⟨hp, by simpa using List.ne_nil_of_mem hcp⟩
    have hle := List.length_filter_le (· ≠ []) kept
    rw [hkept, List.filter_cons_of_pos (by simp [hne]), List.length_cons] at hle
    have := List.length_pos_of_mem hfront
    omega
  have hge : ¬ (kept ++ [off.repr.toList, n.repr.toList]).length < 4 := by simp; omega
  have hlast : (kept ++ [off.repr.toList, n.repr.toList]).getD
      ((kept ++ [off.repr.toList, n.repr.toList]).length - 1) [] = n.repr.toList := by
    simp [List.getD_eq_getElem?_getD]
  have hsecond : (kept ++ [off.repr.toList, n.repr.toList]).getD
      ((kept ++ [off.repr.toList, n.repr.toList]).length - 2) [] = off.repr.toList := by
    simp [List.getD_eq_getElem?_getD]
  simp only [parseLocalFilename, hsplit, if_neg hge, hlast, hsecond, toUnsigned_repr hoff,
    toUnsigned_repr hn, ok_bind]
  exact ⟨_, rfl, rfl, rfl⟩

/-- The tokens of the remote file name are joined by `/`: no `-` of it is left. -/
theorem parseLocalFilename_notMem {split : StringSplit} {localFilename : String} {info : RemoteFileInfo}
    (h : parseLocalFilename split localFilename = .ok info) : '-' ∉ info.remoteFilename.toList := by
  unfold parseLocalFilename at h
  dsimp only at h
  split at h
  · cases h
  obtain ⟨startOffset, -, h⟩ := except_bind_eq_ok.mp h
  obtain ⟨blockSize, -, h⟩ := except_bind_eq_ok.mp h
  cases h
  rw [String.toList_intercalate]
  intro hm
  rcases mem_intercalate hm with hm | ⟨piece, hp, hm⟩
  · cases List.mem_singleton.mp hm
  · obtain ⟨token, ht, rfl⟩ := List.mem_map.mp hp
    obtain ⟨chars, hc, rfl⟩ := List.mem_map.mp ht
    rw [String.toList_ofList] at hm
    have htoken := (split.sublist _ _).subset (List.mem_of_mem_drop (List.mem_of_mem_take hc))
    exact (mem_splitOn htoken hm).2 rfl

/-- A basename without `-` is one token. -/
theorem parseLocalFilename_plain (split : StringSplit) {hex base : String} (hhex : '-' ∉ hex.toList)
    (hne : hex.toList ≠ []) (hbase : base ≠ "") (hplain : '-' ∉ base.toList) {off n : Nat} (hoff : off < 2 ^ 64)
    (hn : n < 2 ^ 64) :
    parseLocalFilename split (hex ++ "-" ++ base ++ "-" ++ off.repr ++ "-" ++ n.repr) =
      .ok ⟨base, off, u64 (off + n)⟩ := by
  have hpieces : (hex ++ "-" ++ base ++ "-" ++ off.repr ++ "-" ++ n.repr).toList.splitOn '-' =
      [] ++ [hex.toList, base.toList, off.repr.toList, n.repr.toList] := by
    rw [splitOn_localFilename hhex, List.splitOn_eq_singleton hplain]
    rfl
  obtain ⟨kept, hsplit, -⟩ := split.split_append hpieces fun piece hp => by
    simp only [List.mem_cons, List.not_mem_nil, or_false] at hp
    rcases hp with rfl | rfl | rfl | rfl
    · exact hne
    · simpa using hbase
    · exact repr_ne_nil off
    · exact repr_ne_nil n
  have hkept : kept = [] := by
    have hle := (split.sublist (hex ++ "-" ++ base ++ "-" ++ off.repr ++ "-" ++ n.repr).toList '-').length_le
    rw [hsplit, hpieces, List.length_append, List.nil_append] at hle
    exact List.length_eq_zero_iff.mp (by omega)
  rw [hkept] at hsplit
  have hparse : parseLocalFilename split (hex ++ "-" ++ base ++ "-" ++ off.repr ++ "-" ++ n.repr) =
      (toUnsigned off.repr.toList >>= fun startOffset => toUnsigned n.repr.toList >>= fun blockSize =>
        .ok ⟨"/".intercalate [String.ofList base.toList], startOffset, u64 (startOffset + blockSize)⟩) := by
    simp only [parseLocalFilename, hsplit]
    rfl
  rw [hparse, toUnsigned_repr hoff, ok_bind, toUnsigned_repr hn, ok_bind, String.intercalate_singleton,
    String.ofList_toList]

/-! ## The file of a store -/

theorem chunkedXattrEntries_nil (hm : 0 < p.maxXattrValueSize) (keyPrefix : String) :
    chunkedXattrEntries p keyPrefix [] = [] := by
  have hzero : (0 + p.maxXattrValueSize - 1) / p.maxXattrValueSize = 0 := Nat.div_eq_of_lt (by omega)
  rw [chunkedXattrEntries, List.length_nil, hzero, List.range_zero, List.map_nil]

/-- The attributes of a destination are two values, the first empty when the
name is a plain one, and the name is found through it. -/
theorem localCacheDestination_names_attrs (hp : p.Readable) {dirs : List String} {uuid f : String} {off n : Nat}
    {d : LocalCacheDestination} (h : localCacheDestination p dirs uuid f off n = .ok d) :
    ∃ info original, buildRemoteFileCachePathInfo p dirs f = .ok info ∧
      d.fileAttrs = chunkedXattrEntries p "user.cache_httpfs_cache_filepath" original ++
        chunkedXattrEntries p "user.cache_httpfs_remote_path" f.toList ∧
      original.length ≤ (getLocalCacheFile info off n).length ∧
      p.getFileName (if String.ofList original = "" then d.destLocalFilepath else String.ofList original) =
        info.fileName off n := by
  obtain ⟨info, hi, hr⟩ := localCacheDestination_ok h
  have hremote : (if f.isEmpty then [] else chunkedXattrEntries p "user.cache_httpfs_remote_path" f.toList) =
      chunkedXattrEntries p "user.cache_httpfs_remote_path" f.toList := by
    split
    next hempty =>
      rw [String.isEmpty_iff.mp hempty]
      exact (chunkedXattrEntries_nil hp.maxXattrValueSize_pos _).symm
    · rfl
  have hname : p.getFileName (getLocalCacheFile info off n) = info.fileName off n := by
    rw [getLocalCacheFile_eq]
    exact hp.getFileName_append _ _ (fileName_notMem hp.getFileName_notMem hi off n)
  have hne : getLocalCacheFile info off n ≠ "" := by
    intro he
    have hslash : '/' ∈ (getLocalCacheFile info off n).toList := by simp [getLocalCacheFile]
    rw [he] at hslash
    cases hslash
  unfold resolveLocalCacheDestination at hr
  split at hr
  · cases hr
  simp only [hremote] at hr
  split at hr
  · cases hr
    refine ⟨info, [], hi, ?_, Nat.zero_le _, ?_⟩
    · rw [chunkedXattrEntries_nil hp.maxXattrValueSize_pos]
      rfl
    · rw [if_pos rfl]
      exact hname
  · cases hr
    refine ⟨info, (getLocalCacheFile info off n).toList, hi, rfl, Nat.le_of_eq String.length_toList, ?_⟩
    rw [String.ofList_toList, if_neg hne]
    exact hname

/-- Two keys of which neither starts the other. -/
def Apart (a b : String) : Prop := ¬(a.toList <+: b.toList ∨ b.toList <+: a.toList)

instance (a b : String) : Decidable (Apart a b) := inferInstanceAs (Decidable (¬(_ ∨ _)))

theorem keyPrefix_xattrChunkKey (keyPrefix : String) (idx : Nat) :
    keyPrefix.toList <+: (xattrChunkKey keyPrefix idx).toList :=
  ⟨('.' :: (format03 idx).toList), by simp [xattrChunkKey]⟩

/-- A value is read back whatever other attributes there are under other keys. -/
theorem HasAttrs.readChunkedXattr {args : StoreArgs p} {file : LocalFile} (h : args.HasAttrs file)
    (hm : 0 < p.maxXattrValueSize) {keyPrefix : String} {value : List Char}
    (hattrs : ∀ attr ∈ args.cacheDest.fileAttrs, attr ∈ chunkedXattrEntries p keyPrefix value ∨
      ∃ other, other.toList <+: attr.1.toList ∧ Apart keyPrefix other)
    (hall : ∀ attr ∈ chunkedXattrEntries p keyPrefix value, attr ∈ args.cacheDest.fileAttrs)
    (hversion : Apart keyPrefix cacheVersionAttrKey) (hlen : value.length < 2 ^ 64) :
    ReadCacheFs.readChunkedXattr file keyPrefix = .ok (String.ofList value) := by
  refine readChunkedXattr_eq hm (fun attr ha => h.set attr (hall attr ha)) (h.unset _ ?_ fun attr ha => ?_) hlen
  · exact ne_of_prefixes (keyPrefix_xattrChunkKey _ _) (List.prefix_refl _) hversion
  · rcases hattrs attr ha with hmem | ⟨other, hother, hapart⟩
    · obtain ⟨idx, hlt, rfl⟩ := mem_chunkedXattrEntries.mp hmem
      intro he
      have := xattrChunkKey_injective keyPrefix he
      omega
    · exact ne_of_prefixes (keyPrefix_xattrChunkKey _ _) hother hapart

theorem linuxPlatform_readable {known : List (String × List UInt8)} (hne : ∀ e ∈ known, e.2 ≠ []) :
    (linuxPlatform known).Readable := by
  refine ⟨fun path hm => ?_, fun dir name hname => linuxPlatform_getFileName hname, fun s => ?_,
    Nat.succ_pos 65535⟩
  · rw [linuxPlatform, String.toList_ofList, List.mem_reverse] at hm
    simpa using List.mem_takeWhile_imp hm
  · change tableSha256 known s ≠ []
    unfold tableSha256
    cases hl : known.lookup s with
    | none => simp
    | some h =>
      obtain ⟨l₁, l₂, rfl, _⟩ := List.lookup_eq_some_iff.mp hl
      exact hne (s, h) (by simp)

/-- The name survives if it is one token: the tokens of a name with a `-`
in it are put together with `/`. The file is one without the attribute for
the name, or one that has its own path there. -/
theorem remoteFilename_survives_iff (p : Platform) (hp : p.Readable) (split : StringSplit) {dirs : List String}
    {f : String} {info : RemoteFileCachePathInfo} (hi : buildRemoteFileCachePathInfo p dirs f = .ok info)
    (hne : info.sanitizedFname ≠ "") {off n : Nat} (hoff : off < 2 ^ 64) (hn : n < 2 ^ 64) (file : LocalFile)
    (hfile : tryGetOriginalCacheFilepath file = .ok "" ∨
      tryGetOriginalCacheFilepath file = .ok (getLocalCacheFile info off n)) :
    (∃ r, getRemoteFileInfo p split (getLocalCacheFile info off n) file = .ok r ∧
      r.remoteFilename = info.sanitizedFname) ↔ '-' ∉ info.sanitizedFname.toList := by
  have hname : p.getFileName (getLocalCacheFile info off n) = info.fileName off n := by
    rw [getLocalCacheFile_eq]
    exact hp.getFileName_append _ _ (fileName_notMem hp.getFileName_notMem hi off n)
  have hparse : getRemoteFileInfo p split (getLocalCacheFile info off n) file =
      parseLocalFilename split (info.fileName off n) := by
    rcases hfile with hfile | hfile
    · rw [getRemoteFileInfo, hfile, ok_bind, if_pos rfl, hname]
    · rw [getRemoteFileInfo, hfile, ok_bind, ite_self, hname]
  rw [hparse]
  constructor
  · rintro ⟨r, hr, heq⟩
    exact heq ▸ parseLocalFilename_notMem hr
  · intro hplain
    have hhex : info.remoteFileSha256Hex = sha256ToHexString (p.sha256 f) :=
      (buildRemoteFileCachePathInfo_names hi).hex
    have hdash : '-' ∉ info.remoteFileSha256Hex.toList := hhex ▸ notMem_sha256ToHexString (by decide) _
    have hnil : info.remoteFileSha256Hex.toList ≠ [] := hhex ▸ sha256ToHexString_ne_nil (hp.sha256_ne_nil _)
    exact ⟨_, parseLocalFilename_plain split hdash hnil hne hplain hoff hn, rfl⟩

theorem remoteFilename_survives_x :
    ∃ info, buildRemoteFileCachePathInfo (linuxPlatform knownSha256) ["/c"] "s3://b/x" = .ok info ∧
      ((∃ r, getRemoteFileInfo (linuxPlatform knownSha256) .keepEmpty (getLocalCacheFile info 0 4) {} = .ok r ∧
        r.remoteFilename = info.sanitizedFname) ↔ '-' ∉ info.sanitizedFname.toList) := by
  have hname : (buildRemoteFileCachePathInfo (linuxPlatform knownSha256) ["/c"] "s3://b/x").map
    (·.sanitizedFname) =
      .ok "x" := by decide +kernel
  obtain ⟨info, hi, hx⟩ := except_map_eq_ok.mp hname
  exact ⟨info, hi, remoteFilename_survives_iff (linuxPlatform knownSha256)
    (linuxPlatform_readable (by decide +kernel))
    .keepEmpty hi (hx ▸ by decide) (by decide) (by decide) {} (.inl (by decide +kernel))⟩

def dashSha256 : List (String × List UInt8) :=
  [("s3://b/a-b",
    [175, 76, 120, 219, 119, 21, 162, 49, 27, 16, 6, 35, 253, 191, 252, 98, 8, 145, 191, 92, 116, 254,
    127, 122, 187, 27, 198, 197, 202, 201, 47, 103])]

/-- `a-b` comes back as `a/b`. -/
theorem remoteFilename_dash_lost :
    ∃ info r, buildRemoteFileCachePathInfo (linuxPlatform dashSha256) ["/c"] "s3://b/a-b" = .ok info ∧
      info.sanitizedFname = "a-b" ∧
      getRemoteFileInfo (linuxPlatform dashSha256) .keepEmpty (getLocalCacheFile info 0 4) {} = .ok r ∧
      r.remoteFilename = "a/b" := by
  have hname : (buildRemoteFileCachePathInfo (linuxPlatform dashSha256) ["/c"] "s3://b/a-b").map (fun info =>
      (info.sanitizedFname, (getRemoteFileInfo (linuxPlatform dashSha256) .keepEmpty
        (getLocalCacheFile info 0 4) {}).map
        (·.remoteFilename))) = .ok ("a-b", .ok "a/b") := by decide +kernel
  obtain ⟨info, hi, hinfo⟩ := except_map_eq_ok.mp hname
  obtain ⟨hfname, hr⟩ := Prod.mk.inj hinfo
  obtain ⟨r, hr, hjoined⟩ := except_map_eq_ok.mp hr
  exact ⟨info, r, hi, hfname, hr, hjoined⟩

end ReadCacheFs
