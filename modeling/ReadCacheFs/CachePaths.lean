/-
The names cached blocks go under: the object cache key of an in-memory
block, and the local file a block is stored in on disk.

A local name is `<directory>/<sha256>-<basename>-<offset>-<size>`, or, where
that would be too long for the platform, `<directory>/<sha256 of the former>`.
A string is cut at its last separator to read a name back: the digits of an
offset have no `-`, a basename and a hash have no `/`.
-/
import ReadCacheFs.Basic
import Std.Data.String.ToNat

namespace ReadCacheFs

open Lib

/-! ## Cutting strings -/

/-- A string cut at its last separator. -/
theorem append_sep_inj {a b a' b' sep : String} {c : Char} (hsep : sep.toList = [c]) (hb : c ∉ b.toList)
    (hb' : c ∉ b'.toList) (h : a ++ sep ++ b = a' ++ sep ++ b') : a = a' ∧ b = b' := by
  have hl := congrArg String.toList h
  simp only [String.toList_append, hsep, List.append_assoc, List.singleton_append] at hl
  obtain ⟨ha, hb⟩ := append_last_inj hb hb' hl
  exact ⟨String.toList_inj.mp ha, String.toList_inj.mp hb⟩

theorem notMem_repr {c : Char} (hc : c.isDigit = false) (n : Nat) : c ∉ n.repr.toList := by
  rw [Nat.toList_repr]
  intro h
  have := Nat.isDigit_of_mem_toDigits (by decide) (by decide) h
  rw [hc] at this
  cases this

/-! ## Object cache keys -/

def makeObjCacheKey (key : InMemCacheBlock) : String :=
  "cache_httpfs/data/" ++ key.fname ++ ":" ++ key.startOff.repr ++ ":" ++ key.blkSize.repr

theorem makeObjCacheKey_injective : Function.Injective makeObjCacheKey := by
  intro k k' h
  have hcolon : (":" : String).toList = [':'] := rfl
  have hd : (':' : Char).isDigit = false := rfl
  obtain ⟨h, hs⟩ := append_sep_inj hcolon (notMem_repr hd _) (notMem_repr hd _) h
  obtain ⟨h, ho⟩ := append_sep_inj hcolon (notMem_repr hd _) (notMem_repr hd _) h
  have hl := congrArg String.toList h
  rw [String.toList_append, String.toList_append] at hl
  have hf : k.fname = k'.fname := String.toList_inj.mp (List.append_cancel_left hl)
  obtain ⟨f, o, n⟩ := k
  obtain ⟨f', o', n'⟩ := k'
  rw [InMemCacheBlock.mk.injEq]
  exact ⟨hf, Nat.repr_inj.mp ho, Nat.repr_inj.mp hs⟩

/-! ## Hashes -/

/-- The digit of four bits, from `kHexChars`. -/
def hexChar (n : Nat) : Char := "0123456789abcdef".toList.getD n '0'

def sha256ToHexString (sha256 : List UInt8) : String :=
  String.ofList (sha256.flatMap fun byte => [hexChar (byte.toNat / 16), hexChar (byte.toNat % 16)])

theorem hexChar_inj {m n : Nat} (hm : m < 16) (hn : n < 16) (h : hexChar m = hexChar n) : m = n := by
  have hall : ∀ a b : Fin 16, hexChar a = hexChar b → a = b := by decide
  exact congrArg Fin.val (hall ⟨m, hm⟩ ⟨n, hn⟩ h)

theorem sha256ToHexString_injective : Function.Injective sha256ToHexString := by
  intro xs ys h
  replace h := String.ofList_injective h
  induction xs generalizing ys with
  | nil => cases ys with
    | nil => rfl
    | cons y ys => simp at h
  | cons x xs ih => cases ys with
    | nil => simp at h
    | cons y ys =>
      simp only [List.flatMap_cons, List.cons_append, List.nil_append, List.cons.injEq] at h
      have hx : x.toNat < 256 := x.toNat_lt
      have hy : y.toNat < 256 := y.toNat_lt
      have h1 := hexChar_inj (by omega) (by omega) h.1
      have h2 := hexChar_inj (by omega) (by omega) h.2.1
      rw [ih h.2.2, UInt8.toNat_inj.mp (show x.toNat = y.toNat by omega)]

theorem notMem_sha256ToHexString {c : Char} (hc : ∀ n : Fin 16, hexChar n ≠ c) (sha256 : List UInt8) :
    c ∉ (sha256ToHexString sha256).toList := by
  rw [sha256ToHexString, String.toList_ofList]
  intro h
  obtain ⟨x, _, hx⟩ := List.mem_flatMap.mp h
  have hlt : x.toNat < 256 := x.toNat_lt
  rcases List.mem_cons.mp hx with hx | hx
  · exact hc ⟨x.toNat / 16, by omega⟩ hx.symm
  · exact hc ⟨x.toNat % 16, by omega⟩ (List.mem_singleton.mp hx).symm

/-! ## Local cache files -/

/-- What the names depend on outside of this repository. -/
structure Platform where
  /-- `duckdb::sha256`. -/
  sha256 : String → List UInt8
  /-- `StringUtil::GetFileName`. -/
  getFileName : String → String
  maxFilenameLen : Nat
  maxFilepathLen : Nat
  maxXattrValueSize : Nat

/-- SHA-256 has no collisions, and a file name has no directory part. -/
structure Platform.OK (p : Platform) : Prop where
  sha256_injective : Function.Injective p.sha256
  getFileName_notMem : ∀ path, '/' ∉ (p.getFileName path).toList

def stripQueryAndFragment (url : String) : String :=
  let questionPos := url.toList.findIdx? (· == '?')
  let hashPos := url.toList.findIdx? (· == '#')
  let stripPos := match questionPos, hashPos with
    | some q, some h => some (if q < h then q else h)
    | some q, none => some q
    | none, h => h
  match stripPos with
  | some n => String.ofList (url.toList.take n)
  | none => url

structure RemoteFileCachePathInfo where
  cacheDirectoryIdx : Nat
  cacheDirectory : String
  remoteFileSha256Hex : String
  sanitizedFname : String
  deriving DecidableEq, Repr

structure LocalCacheDestination where
  destLocalFilepath : String
  tempLocalFilepath : String
  fileAttrs : List (String × String)
  deriving DecidableEq, Repr

/-- FNV over the bytes of the hash. -/
def getCacheDirectoryIdx (remoteFileSha256 : List UInt8) (cacheDirectoryCount : Nat) : Nat :=
  remoteFileSha256.foldl (fun h byte => u64 ((h ^^^ byte.toNat) * 0x100000001b3)) 0xcbf29ce484222325
    % cacheDirectoryCount

def endsWithSlash (s : String) : Bool := s.toList.getLast? == some '/'

section Platform

variable (p : Platform)

def buildRemoteFileCachePathInfo (cacheDirectories : List String) (remoteFile : String) :
    Except Fault RemoteFileCachePathInfo :=
  let sha256 := p.sha256 remoteFile
  let idx := getCacheDirectoryIdx sha256 cacheDirectories.length
  match cacheDirectories[idx]? with
  | none => .error .assertFailed
  | some dir =>
    if endsWithSlash dir then .error (.internal s!"Cache directory {dir} cannot ends with '/'")
    else .ok
      { cacheDirectoryIdx := idx, cacheDirectory := dir, remoteFileSha256Hex := sha256ToHexString sha256
        sanitizedFname := p.getFileName (stripQueryAndFragment remoteFile) }

def getLocalCacheFilePrefix (remoteFile : String) : String :=
  sha256ToHexString (p.sha256 remoteFile) ++ "-" ++ p.getFileName (stripQueryAndFragment remoteFile)

def getLocalCacheFile (info : RemoteFileCachePathInfo) (startOffset bytesToRead : Nat) : String :=
  info.cacheDirectory ++ "/" ++ info.remoteFileSha256Hex ++ "-" ++ info.sanitizedFname ++ "-" ++ startOffset.repr ++
    "-" ++ bytesToRead.repr

def getTempCacheFilePath (uuid cacheFilepath : String) : String :=
  cacheFilepath ++ "." ++ uuid ++ ".httpfs_local_cache"

/-- `%03llu`. -/
def format03 (n : Nat) : String := String.ofList (List.replicate (3 - n.repr.length) '0') ++ n.repr

/-- The entries `AddChunkedXattrEntries` adds for a value, given as its characters. -/
def chunkedXattrEntries (keyPrefix : String) (value : List Char) : List (String × String) :=
  (List.range ((value.length + p.maxXattrValueSize - 1) / p.maxXattrValueSize)).map fun idx =>
    (keyPrefix ++ "." ++ format03 idx, String.ofList (slice value (idx * p.maxXattrValueSize) p.maxXattrValueSize))

def resolveLocalCacheDestination (uuid cacheDirectory localCacheFile originalRemotePath : String) :
    Except Fault LocalCacheDestination :=
  if endsWithSlash cacheDirectory then .error (.invalidInput s!"Cache directory {cacheDirectory} cannot ends with '/'")
  else
    let temp := getTempCacheFilePath uuid localCacheFile
    let remoteAttrs := if originalRemotePath.isEmpty then []
      else chunkedXattrEntries p "user.cache_httpfs_remote_path" originalRemotePath.toList
    if (p.getFileName temp).utf8ByteSize ≤ p.maxFilenameLen ∧ temp.utf8ByteSize ≤ p.maxFilepathLen then
      .ok { destLocalFilepath := localCacheFile, tempLocalFilepath := temp, fileAttrs := remoteAttrs }
    else
      let dest := cacheDirectory ++ "/" ++ sha256ToHexString (p.sha256 localCacheFile)
      .ok
        { destLocalFilepath := dest, tempLocalFilepath := getTempCacheFilePath uuid dest
          fileAttrs := chunkedXattrEntries p "user.cache_httpfs_cache_filepath" localCacheFile.toList ++ remoteAttrs }

end Platform

variable {p : Platform}

/-- The name part of a local cache file. -/
def RemoteFileCachePathInfo.fileName (info : RemoteFileCachePathInfo) (startOffset bytesToRead : Nat) : String :=
  info.remoteFileSha256Hex ++ "-" ++ info.sanitizedFname ++ "-" ++ startOffset.repr ++ "-" ++ bytesToRead.repr

theorem getLocalCacheFile_eq (info : RemoteFileCachePathInfo) (off n : Nat) :
    getLocalCacheFile info off n = info.cacheDirectory ++ "/" ++ info.fileName off n := by
  simp only [getLocalCacheFile, RemoteFileCachePathInfo.fileName, String.append_assoc]

theorem notMem_append {c : Char} {s t : String} (hs : c ∉ s.toList) (ht : c ∉ t.toList) :
    c ∉ (s ++ t).toList := by
  rw [String.toList_append, List.mem_append, not_or]
  exact ⟨hs, ht⟩

/-- What a path is resolved to. -/
structure RemoteFileCachePathInfo.Names (p : Platform) (dirs : List String) (f : String)
    (info : RemoteFileCachePathInfo) : Prop where
  dir_mem : info.cacheDirectory ∈ dirs
  dir_noSlash : endsWithSlash info.cacheDirectory = false
  hex : info.remoteFileSha256Hex = sha256ToHexString (p.sha256 f)
  basename : info.sanitizedFname = p.getFileName (stripQueryAndFragment f)

theorem buildRemoteFileCachePathInfo_names {dirs : List String} {f : String} {info : RemoteFileCachePathInfo}
    (hi : buildRemoteFileCachePathInfo p dirs f = .ok info) : info.Names p dirs f := by
  simp only [buildRemoteFileCachePathInfo] at hi
  split at hi
  · cases hi
  rename_i dir hdir
  split at hi
  · cases hi
  rename_i hslash
  cases hi
  exact ⟨List.mem_of_getElem? hdir, Bool.eq_false_iff.mpr hslash, rfl, rfl⟩

theorem fileName_notMem (hp : ∀ path, '/' ∉ (p.getFileName path).toList) {dirs : List String} {f : String}
    {info : RemoteFileCachePathInfo} (hi : buildRemoteFileCachePathInfo p dirs f = .ok info) (off n : Nat) :
    '/' ∉ (info.fileName off n).toList := by
  have hn := buildRemoteFileCachePathInfo_names hi
  have hd : ('/' : Char).isDigit = false := rfl
  rw [RemoteFileCachePathInfo.fileName, hn.hex, hn.basename]
  refine notMem_append (notMem_append (notMem_append
    (notMem_append (notMem_append (notMem_append ?_ ?_) ?_) ?_) ?_) ?_)
    (notMem_repr hd n)
  · exact notMem_sha256ToHexString (by decide) _
  · decide
  · exact hp _
  · decide
  · exact notMem_repr hd off
  · decide

/-- The hash at the front of a name tells the remote file, its end the range. -/
theorem fileName_inj (hp : p.OK) {dirs dirs' : List String} {f f' : String}
    {info info' : RemoteFileCachePathInfo} (hi : buildRemoteFileCachePathInfo p dirs f = .ok info)
    (hi' : buildRemoteFileCachePathInfo p dirs' f' = .ok info') {off off' n n' : Nat}
    (h : info.fileName off n = info'.fileName off' n') : f = f' ∧ off = off' ∧ n = n' := by
  have hdash : ("-" : String).toList = ['-'] := rfl
  have hd : ('-' : Char).isDigit = false := rfl
  obtain ⟨h, hn⟩ := append_sep_inj hdash (notMem_repr hd _) (notMem_repr hd _) h
  obtain ⟨h, ho⟩ := append_sep_inj hdash (notMem_repr hd _) (notMem_repr hd _) h
  refine ⟨?_, Nat.repr_inj.mp ho, Nat.repr_inj.mp hn⟩
  have hl := congrArg String.toList h
  rw [(buildRemoteFileCachePathInfo_names hi).hex, (buildRemoteFileCachePathInfo_names hi').hex] at hl
  simp only [String.toList_append, hdash, List.append_assoc, List.singleton_append] at hl
  have hhex : ∀ x, '-' ∉ (sha256ToHexString x).toList := fun x => notMem_sha256ToHexString (by decide) x
  exact hp.sha256_injective (sha256ToHexString_injective
    (String.toList_inj.mp (append_first_inj (hhex _) (hhex _) hl).1))

theorem resolve_dest {uuid dir file remote : String} {d : LocalCacheDestination}
    (h : resolveLocalCacheDestination p uuid dir file remote = .ok d) :
    d.destLocalFilepath = file ∨ d.destLocalFilepath = dir ++ "/" ++ sha256ToHexString (p.sha256 file) := by
  unfold resolveLocalCacheDestination at h
  split at h
  · cases h
  dsimp only at h
  split at h
  · cases h
    exact .inl rfl
  · cases h
    exact .inr rfl

/-- **Local cache files do not collide.** -/
theorem dest_inj (hp : p.OK) {dirs dirs' : List String} {f f' uuid uuid' : String}
    {info info' : RemoteFileCachePathInfo} (hi : buildRemoteFileCachePathInfo p dirs f = .ok info)
    (hi' : buildRemoteFileCachePathInfo p dirs' f' = .ok info') {off off' n n' : Nat}
    {d d' : LocalCacheDestination}
    (hd : resolveLocalCacheDestination p uuid info.cacheDirectory (getLocalCacheFile info off n) f = .ok d)
    (hd' : resolveLocalCacheDestination p uuid' info'.cacheDirectory
      (getLocalCacheFile info' off' n') f' = .ok d')
    (h : d.destLocalFilepath = d'.destLocalFilepath) : f = f' ∧ off = off' ∧ n = n' := by
  have hslash : ("/" : String).toList = ['/'] := rfl
  have hname := fileName_notMem hp.getFileName_notMem hi off n
  have hname' := fileName_notMem hp.getFileName_notMem hi' off' n'
  have hhex : ∀ x, '/' ∉ (sha256ToHexString x).toList := fun x => notMem_sha256ToHexString (by decide) x
  have hdash : ∀ x, '-' ∉ (sha256ToHexString x).toList := fun x => notMem_sha256ToHexString (by decide) x
  -- A hashed name has no `-`, a plain one has.
  have hplain : ∀ (i : RemoteFileCachePathInfo) (o m : Nat), '-' ∈ (i.fileName o m).toList := by
    intro i o m
    simp [RemoteFileCachePathInfo.fileName]
  rcases resolve_dest hd with he | he <;> rcases resolve_dest hd' with he' | he' <;> rw [he, he'] at h
  · rw [getLocalCacheFile_eq, getLocalCacheFile_eq] at h
    exact fileName_inj hp hi hi' (append_sep_inj hslash hname hname' h).2
  · rw [getLocalCacheFile_eq] at h
    have hfile := (append_sep_inj hslash hname (hhex _) h).2
    exact absurd (hfile ▸ hplain info off n) (hdash _)
  · rw [getLocalCacheFile_eq info'] at h
    have hfile := (append_sep_inj hslash (hhex _) hname' h).2
    exact absurd (hfile ▸ hplain info' off' n') (hdash _)
  · have hsha := hp.sha256_injective (sha256ToHexString_injective (append_sep_inj hslash (hhex _) (hhex _) h).2)
    rw [getLocalCacheFile_eq, getLocalCacheFile_eq] at hsha
    exact fileName_inj hp hi hi' (append_sep_inj hslash hname hname' hsha).2

/-! ## Keys of blocks -/

/-- Where a reader stores the block `[off, off + n)` of a remote file. -/
def localCacheDestination (p : Platform) (cacheDirectories : List String) (uuid remoteFile : String)
    (startOffset bytesToRead : Nat) : Except Fault LocalCacheDestination := do
  let info ← buildRemoteFileCachePathInfo p cacheDirectories remoteFile
  resolveLocalCacheDestination p uuid info.cacheDirectory (getLocalCacheFile info startOffset bytesToRead) remoteFile

theorem localCacheDestination_ok {dirs : List String} {uuid f : String} {off n : Nat} {d : LocalCacheDestination}
    (h : localCacheDestination p dirs uuid f off n = .ok d) :
    ∃ info, buildRemoteFileCachePathInfo p dirs f = .ok info ∧
      resolveLocalCacheDestination p uuid info.cacheDirectory (getLocalCacheFile info off n) f = .ok d := by
  unfold localCacheDestination at h
  cases hi : buildRemoteFileCachePathInfo p dirs f with
  | error e => simp [hi, bind, Except.bind] at h
  | ok info => exact ⟨info, rfl, by simpa [hi, bind, Except.bind] using h⟩

theorem localCacheDestination_total {dirs : List String} (hne : dirs ≠ [])
    (hslash : ∀ dir ∈ dirs, endsWithSlash dir = false) (uuid f : String) (off n : Nat) :
    ∃ d, localCacheDestination p dirs uuid f off n = .ok d := by
  have hlt : getCacheDirectoryIdx (p.sha256 f) dirs.length < dirs.length :=
    Nat.mod_lt _ (List.length_pos_iff.mpr hne)
  have hdir := hslash _ (List.getElem_mem hlt)
  simp only [localCacheDestination, buildRemoteFileCachePathInfo, List.getElem?_eq_getElem hlt, hdir, bind,
    Except.bind,
    resolveLocalCacheDestination, Bool.false_eq_true, if_false]
  split
  · exact ⟨_, rfl⟩
  · exact ⟨_, rfl⟩

/-- **Cache keys do not collide.** Two blocks have different destinations,
whether their names are plain or hashed, and different object cache keys. -/
theorem cacheKeys_distinct (p : Platform) (hp : p.OK) :
    (∀ (dirs : List String) (f f' : String) (off off' n n' : Nat) (uuid uuid' : String)
      (d d' : LocalCacheDestination),
      (f, off, n) ≠ (f', off', n') → localCacheDestination p dirs uuid f off n = .ok d →
      localCacheDestination p dirs uuid' f' off' n' = .ok d' → d.destLocalFilepath ≠ d'.destLocalFilepath) ∧
    ∀ k k' : InMemCacheBlock, k ≠ k' → makeObjCacheKey k ≠ makeObjCacheKey k' := by
  refine ⟨fun dirs f f' off off' n n' uuid uuid' d d' hne hd hd' he => hne ?_,
    fun k k' hne => makeObjCacheKey_injective.ne hne⟩
  obtain ⟨info, hi, hr⟩ := localCacheDestination_ok hd
  obtain ⟨info', hi', hr'⟩ := localCacheDestination_ok hd'
  obtain ⟨rfl, rfl, rfl⟩ := dest_inj hp hi hi' hr hr' he
  rfl

/-! ## A platform to look at

The limits of Linux, and SHA-256 where the table has it. -/

/-- SHA-256 of the strings in the table, and of no other string a hash of 32 bytes. -/
def tableSha256 (known : List (String × List UInt8)) (s : String) : List UInt8 :=
  (known.lookup s).getD (List.replicate 33 0 ++ s.toByteArray.data.toList)

def linuxPlatform (known : List (String × List UInt8)) : Platform where
  sha256 := tableSha256 known
  getFileName path := String.ofList (path.toList.reverse.takeWhile (· != '/')).reverse
  maxFilenameLen := 255
  maxFilepathLen := 4096
  maxXattrValueSize := 65536

theorem linuxPlatform_ok {known : List (String × List UInt8)} (hlen : ∀ e ∈ known, e.2.length = 32)
    (hinj : ∀ e ∈ known, ∀ e' ∈ known, e.2 = e'.2 → e.1 = e'.1) : (linuxPlatform known).OK := by
  have hknown : ∀ {s h}, known.lookup s = some h → (s, h) ∈ known := by
    intro s h hl
    obtain ⟨l₁, l₂, rfl, _⟩ := List.lookup_eq_some_iff.mp hl
    simp
  refine ⟨fun s t h => ?_, fun path hm => ?_⟩
  · change tableSha256 known s = tableSha256 known t at h
    unfold tableSha256 at h
    cases hs : known.lookup s with
    | some a =>
      cases ht : known.lookup t with
      | some b => exact hinj _ (hknown hs) _ (hknown ht) (by simpa [hs, ht] using h)
      | none =>
        have hl := congrArg List.length h
        have h32 : a.length = 32 := hlen _ (hknown hs)
        simp only [hs, ht, Option.getD_some, Option.getD_none, List.length_append, List.length_replicate] at hl
        omega
    | none =>
      cases ht : known.lookup t with
      | some b =>
        have hl := congrArg List.length h
        have h32 : b.length = 32 := hlen _ (hknown ht)
        simp only [hs, ht, Option.getD_some, Option.getD_none, List.length_append, List.length_replicate] at hl
        omega
      | none =>
        simp only [hs, ht, Option.getD_none] at h
        exact String.toByteArray_inj.mp (ByteArray.ext (Array.toList_inj.mp (List.append_cancel_left h)))
  · rw [linuxPlatform, String.toList_ofList, List.mem_reverse] at hm
    simpa using List.mem_takeWhile_imp hm

theorem linuxPlatform_getFileName {known : List (String × List UInt8)} {a b : String} (hb : '/' ∉ b.toList) :
    (linuxPlatform known).getFileName (a ++ "/" ++ b) = b := by
  have hnot : ∀ c ∈ b.toList.reverse, (c != '/') = true := by
    intro c hc
    rw [bne_iff_ne]
    rintro rfl
    exact hb (List.mem_reverse.mp hc)
  have hrev : (a ++ "/" ++ b).toList.reverse = b.toList.reverse ++ '/' :: a.toList.reverse := by simp
  rw [linuxPlatform]
  dsimp only
  rw [hrev, List.takeWhile_append_of_pos hnot, List.takeWhile_cons_of_neg (by decide), List.append_nil,
    List.reverse_reverse, String.ofList_toList]

/-- `s3://b/x`, `s3://b/aa...a`, and the local file of the latter's first four bytes. -/
def knownSha256 : List (String × List UInt8) :=
  [("s3://b/x",
      [40, 177, 117, 92, 166, 44, 86, 43, 126, 108, 202, 126, 73, 168, 246, 50, 3, 161, 255, 142, 244, 46, 171,
       153, 28, 198, 8, 147, 205, 89, 12, 254]),
    ("s3://b/" ++ String.ofList (List.replicate 210 'a'),
      [117, 27, 77, 225, 253, 177, 77, 149, 14, 6, 135, 130, 205, 63, 10, 97, 1, 22, 84, 76, 234, 23, 5, 99,
       142, 115, 26, 167, 150, 232, 16, 142]),
    ("/c/751b4de1fdb14d950e068782cd3f0a610116544cea1705638e731aa796e8108e-" ++
      String.ofList (List.replicate 210 'a') ++ "-0-4",
      [100, 8, 70, 98, 16, 185, 207, 127, 91, 134, 195, 129, 241, 42, 28, 222, 35, 10, 85, 248, 199, 194, 122,
       2, 31, 7, 255, 36, 105, 139, 66, 179])]

theorem cacheKeys_distinct_oversized :
    ∃ d d', localCacheDestination (linuxPlatform knownSha256) ["/c"] "u" "s3://b/x" 0 4 = .ok d ∧
      localCacheDestination (linuxPlatform knownSha256) ["/c"] "u"
        ("s3://b/" ++ String.ofList (List.replicate 210 'a')) 0 4 = .ok d' ∧
      d.destLocalFilepath ≠ d'.destLocalFilepath := by
  have hok : (linuxPlatform knownSha256).OK := linuxPlatform_ok (by decide +kernel) (by decide +kernel)
  have htotal : ∀ f, ∃ d, localCacheDestination (linuxPlatform knownSha256) ["/c"] "u" f 0 4 = .ok d :=
    fun f => localCacheDestination_total (by simp) (by decide) "u" f 0 4
  obtain ⟨d, hd⟩ := htotal "s3://b/x"
  obtain ⟨d', hd'⟩ := htotal ("s3://b/" ++ String.ofList (List.replicate 210 'a'))
  exact ⟨d, d', hd, hd', (cacheKeys_distinct _ hok).1 ["/c"] _ _ 0 0 4 4 "u" "u" d d' (by decide +kernel) hd hd'⟩

end ReadCacheFs
