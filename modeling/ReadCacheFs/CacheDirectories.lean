/-
The cache directories of a setting, and the names built from them.

`UpdateCacheDirectoriesImpl` takes one slash off the end of a directory. What
builds a local cache file's name refuses a directory that ends with a slash,
so `a//` is stored as `a/` and every later use of the disk cache throws.
Directories are taken to be created: `/` leaves the empty string, and there
`CreateDirectory` would throw.
-/
import ReadCacheFs.AccessTimestamps
import ReadCacheFs.StringUtil

namespace ReadCacheFs

open Lib

/-! ## The settings -/

section Settings

-- `GetDefaultOnDiskCacheDirectory()`.
variable (defaultDirectory : String)

def updateCacheDirectory (newCacheDirectory : String) : Except Fault (List String) :=
  updateCacheDirectoriesImpl [if newCacheDirectory = "" then defaultDirectory else newCacheDirectory]

def updateCacheDirectoriesConfig (split : StringSplit) (directoriesConfigStr : String) :
    Except Fault (List String) :=
  updateCacheDirectoriesImpl
    (if directoriesConfigStr = "" then [defaultDirectory]
    else (split.split directoriesConfigStr.toList ';').map String.ofList)

end Settings

/-- No directory is empty or ends with a slash, and so no name is refused for it. -/
structure UsableDirectories (p : Platform) (dirs : List String) : Prop where
  nonempty : ∀ dir ∈ dirs, dir ≠ ""
  noSlash : ∀ dir ∈ dirs, endsWithSlash dir = false
  build : ∀ remoteFile message, buildRemoteFileCachePathInfo p dirs remoteFile ≠ .error (.internal message)
  resolve : ∀ dir ∈ dirs, ∀ uuid localCacheFile originalRemotePath message,
    resolveLocalCacheDestination p uuid dir localCacheFile originalRemotePath ≠ .error (.invalidInput message)

/-- One slash too many at the end, or nothing but a slash. -/
def KeepsSlash (dir : String) : Prop := dir = "/" ∨ "//".toList <:+ dir.toList

instance (dir : String) : Decidable (KeepsSlash dir) := inferInstanceAs (Decidable (_ ∨ _))

/-! ## What is stored -/

theorem endsWithSlash_iff {s : String} : endsWithSlash s = true ↔ ∃ front, s.toList = front ++ ['/'] := by
  rw [endsWithSlash, beq_iff_eq, List.getLast?_eq_some_iff]

theorem suffix_slashes {front : List Char} : ['/', '/'] <:+ front ++ ['/'] ↔ ∃ rest, front = rest ++ ['/'] := by
  have hsplit : ∀ rest : List Char, rest ++ ['/', '/'] = (rest ++ ['/']) ++ ['/'] := by simp
  constructor
  · intro ⟨rest, hrest⟩
    rw [hsplit] at hrest
    exact ⟨rest, (List.append_cancel_right hrest).symm⟩
  · intro ⟨rest, hrest⟩
    exact ⟨rest, by rw [hsplit, hrest]⟩

theorem sanitizeDirectory_usable_iff {dir d : String} (h : sanitizeDirectory dir = .ok d) :
    d ≠ "" ∧ endsWithSlash d = false ↔ ¬KeepsSlash dir := by
  unfold sanitizeDirectory at h
  split at h
  · cases h
  rename_i hne
  cases h
  rw [KeepsSlash, not_or, ← Bool.not_eq_true, endsWithSlash_iff]
  by_cases hslash : dir.toList.getLast? = some '/'
  · -- the slash goes, and what was before it is stored
    obtain ⟨front, hfront⟩ := List.getLast?_eq_some_iff.mp hslash
    have hroot : dir = "/" ↔ front = [] := by
      rw [← String.toList_inj, hfront]
      simp
    have hempty : String.ofList front = "" ↔ front = [] := by
      rw [← String.toList_inj, String.toList_ofList]
      simp
    rw [if_pos hslash, hfront, List.dropLast_concat, show "//".toList = ['/', '/'] from rfl,
      suffix_slashes, hroot,
      String.toList_ofList, ne_eq, hempty]
  · rw [if_neg hslash]
    have hlast : ¬∃ front, dir.toList = front ++ ['/'] := fun hex => hslash (List.getLast?_eq_some_iff.mpr hex)
    have hroot : dir ≠ "/" := by
      intro he
      rw [he] at hslash
      exact hslash rfl
    have htwo : ¬"//".toList <:+ dir.toList := by
      intro ⟨rest, hrest⟩
      exact hlast ⟨rest ++ ['/'], by rw [← hrest]; simp⟩
    exact ⟨fun _ => ⟨hroot, htwo⟩, fun _ => ⟨hne, hlast⟩⟩

theorem mem_updateCacheDirectoriesImpl {directories dirs : List String}
    (h : updateCacheDirectoriesImpl directories = .ok dirs) :
    (∀ dir ∈ directories, ∃ d ∈ dirs, sanitizeDirectory dir = .ok d) ∧
      ∀ d ∈ dirs, ∃ dir ∈ directories, sanitizeDirectory dir = .ok d := by
  obtain ⟨ds, hds, rfl⟩ := except_map_eq_ok.mp h
  have hall : List.Forall₂ (fun dir d => sanitizeDirectory dir = .ok d) directories ds := by
    clear h
    induction directories generalizing ds with
    | nil =>
      cases hds
      exact .nil
    | cons dir directories ih =>
      rw [List.mapM_cons] at hds
      obtain ⟨d, hd, hds⟩ := except_bind_eq_ok.mp hds
      obtain ⟨rest, hrest, hds⟩ := except_bind_eq_ok.mp hds
      cases hds
      exact .cons hd (ih rest hrest)
  refine ⟨fun dir hdir => ?_, fun d hd => ?_⟩
  · obtain ⟨i, hi⟩ := List.mem_iff_getElem?.mp hdir
    obtain ⟨d, hd, hs⟩ := forall₂_getElem? hall hi
    exact ⟨d, (List.mem_insertionSort _).mpr (List.mem_of_getElem? hd), hs⟩
  · obtain ⟨i, hi⟩ := List.mem_iff_getElem?.mp ((List.mem_insertionSort _).mp hd)
    obtain ⟨dir, hdir, hs⟩ := forall₂_getElem? hall.flip hi
    exact ⟨dir, List.mem_of_getElem? hdir, hs⟩

/-- Without a slash at the end nothing throws for one. -/
theorem usable_of_noSlash (p : Platform) {dirs : List String} (hne : ∀ dir ∈ dirs, dir ≠ "")
    (hslash : ∀ dir ∈ dirs, endsWithSlash dir = false) : UsableDirectories p dirs := by
  refine ⟨hne, hslash, fun remoteFile message h => ?_,
    fun dir hdir uuid localCacheFile originalRemotePath message h => ?_⟩
  · unfold buildRemoteFileCachePathInfo at h
    dsimp only at h
    split at h
    · cases h
    · rename_i dir hget
      rw [if_neg (by simp [hslash dir (List.mem_of_getElem? hget)])] at h
      cases h
  · unfold resolveLocalCacheDestination at h
    rw [if_neg (by simp [hslash dir hdir])] at h
    dsimp only at h
    split at h
    · cases h
    · cases h

/-- **The directories accepted are usable** just where none of them has a
slash too many. -/
theorem updateCacheDirectories_usable_iff (p : Platform) (directories dirs : List String)
    (h : updateCacheDirectoriesImpl directories = .ok dirs) :
    UsableDirectories p dirs ↔ ∀ dir ∈ directories, ¬KeepsSlash dir := by
  obtain ⟨hstored, hgiven⟩ := mem_updateCacheDirectoriesImpl h
  constructor
  · intro hu dir hdir
    obtain ⟨d, hd, hs⟩ := hstored dir hdir
    exact (sanitizeDirectory_usable_iff hs).mp ⟨hu.nonempty d hd, hu.noSlash d hd⟩
  · intro hk
    have husable : ∀ d ∈ dirs, d ≠ "" ∧ endsWithSlash d = false := by
      intro d hd
      obtain ⟨dir, hdir, hs⟩ := hgiven d hd
      exact (sanitizeDirectory_usable_iff hs).mpr (hk dir hdir)
    exact usable_of_noSlash p (fun d hd => (husable d hd).1) fun d hd => (husable d hd).2

/-- Two directories in one setting, one with a slash at its end. -/
theorem updateCacheDirectories_usable_two :
    updateCacheDirectoriesConfig "/tmp/c" .keepEmpty "/b/;/a" = .ok ["/a", "/b"] ∧
      UsableDirectories (linuxPlatform knownSha256) ["/a", "/b"] := by
  have hstored : updateCacheDirectoriesImpl ["/b/", "/a"] = .ok ["/a", "/b"] := by decide +kernel
  exact ⟨by decide +kernel, (updateCacheDirectories_usable_iff _ _ _ hstored).mpr (by decide +kernel)⟩

/-- `/tmp//` is accepted and stored as `/tmp/`: no remote file has a name in
it, and no destination. -/
theorem updateCacheDirectory_keeps_slash :
    updateCacheDirectory "/tmp/c" "/tmp//" = .ok ["/tmp/"] ∧
      (∀ p remoteFile, buildRemoteFileCachePathInfo p ["/tmp/"] remoteFile =
        .error (.internal "Cache directory /tmp/ cannot ends with '/'")) ∧
      (∀ p uuid localCacheFile originalRemotePath, resolveLocalCacheDestination p uuid "/tmp/" localCacheFile
        originalRemotePath = .error (.invalidInput "Cache directory /tmp/ cannot ends with '/'")) := by
  refine ⟨by decide +kernel, fun p remoteFile => ?_, fun p uuid localCacheFile originalRemotePath => ?_⟩
  · have hget : ["/tmp/"][getCacheDirectoryIdx (p.sha256 remoteFile) ["/tmp/"].length]? = some "/tmp/" := by
      simp [getCacheDirectoryIdx, Nat.mod_one]
    unfold buildRemoteFileCachePathInfo
    simp only [hget]
    rfl
  · unfold resolveLocalCacheDestination
    rw [if_pos (by decide)]
    rfl

end ReadCacheFs
