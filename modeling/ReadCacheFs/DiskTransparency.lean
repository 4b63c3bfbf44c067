/-
The on-disk reader is transparent too: over remote files that do not change
both its layers hold what the remote files have.

A cache file is found by its name alone. The name tells the remote path and
the range (`dest_inj`), so it is enough that every file under the name of a
block has the block's bytes (`LocalFiles.MirrorsRemote`): stores write such
files, everything else removes files. The names depend on the directories
set, which may change on the way, so the invariant speaks of all of them.
-/
import ReadCacheFs.DiskInvalidation
import ReadCacheFs.Transparency

namespace ReadCacheFs

open Lib

variable {w : World} {config : InstanceConfig} {path : String}

/-! ## Cache files -/

namespace LocalFiles

/-- The file under the name of a block has the block's bytes. -/
def MirrorsRemote (w : World) (files : LocalFiles) : Prop :=
  ∀ dirs uuid fname off n d file, localCacheDestination w.platform dirs uuid fname off n = .ok d →
    files d.destLocalFilepath = some file → file.content = slice (w.remote fname) off n

variable {files files' : LocalFiles}

theorem MirrorsRemote.empty (w : World) : MirrorsRemote w fun _ => none := by
  intro dirs uuid fname off n d file _ hf
  cases hf

/-- Files that go do no harm. -/
theorem MirrorsRemote.lose (h : files.MirrorsRemote w) (hsub : ∀ f x, files' f = some x → files f = some x) :
    files'.MirrorsRemote w :=
  fun dirs uuid fname off n d file hd hf => h dirs uuid fname off n d file hd (hsub _ _ hf)

theorem MirrorsRemote.remove (h : files.MirrorsRemote w) (filepaths : List String) :
    (files.remove filepaths).MirrorsRemote w := by
  refine h.lose fun f x hx => ?_
  simp only [LocalFiles.remove] at hx
  split at hx
  · cases hx
  · exact hx

/-- The file of a block, under its name. -/
theorem MirrorsRemote.update (h : files.MirrorsRemote w) (hp : w.platform.OK) {dirs : List String}
    {uuid fname : String} {off n : Nat} {d : LocalCacheDestination}
    (hd : localCacheDestination w.platform dirs uuid fname off n = .ok d) {file : CacheFile}
    (hfile : file.content = slice (w.remote fname) off n) :
    LocalFiles.MirrorsRemote w (Function.update files d.destLocalFilepath (some file)) := by
  intro dirs' uuid' fname' off' n' d' file' hd' hf
  by_cases heq : d'.destLocalFilepath = d.destLocalFilepath
  · rw [heq, Function.update_self] at hf
    cases hf
    obtain ⟨info, hi, hr⟩ := localCacheDestination_ok hd
    obtain ⟨info', hi', hr'⟩ := localCacheDestination_ok hd'
    obtain ⟨rfl, rfl, rfl⟩ := dest_inj hp hi' hi hr' hr heq
    exact hfile
  · rw [Function.update_of_ne heq] at hf
    exact h dirs' uuid' fname' off' n' d' file' hd' hf

theorem readLocalCacheFile_spec (h : files.MirrorsRemote w) {dirs : List String} {uuid : String}
    (key : InMemCacheBlock) {d : LocalCacheDestination}
    (hd : localCacheDestination w.platform dirs uuid key.fname key.startOff key.blkSize = .ok d)
    (hpos : 0 < key.blkSize) (hin : key.startOff + key.blkSize ≤ (w.remote key.fname).length) (tag : String) :
    ∃ found files', files.readLocalCacheFile w d.destLocalFilepath key.blkSize tag = .ok (found, files') ∧
      files'.MirrorsRemote w ∧ ∀ content, found = some content → Mirrors w.remote key content := by
  unfold readLocalCacheFile
  cases hf : files d.destLocalFilepath with
  | none => exact ⟨none, files, rfl, h, fun _ hc => by cases hc⟩
  | some file =>
    dsimp only
    split
    · exact ⟨none, _, rfl, h.remove _, fun _ hc => by cases hc⟩
    · have hcontent := h dirs uuid _ _ _ d file hd hf
      have hlen : file.content.length = key.blkSize := by rw [hcontent, length_slice_of_le hin]
      rw [if_neg (by omega), List.take_of_length_le (by omega), hcontent]
      exact ⟨_, files, rfl, h, fun _ hc => Option.some.inj hc ▸ .filledChunk w.page hpos hin⟩

/-- However the store goes. -/
theorem storeLocalCacheFile_spec (h : files.MirrorsRemote w) (hp : w.platform.OK) {dirs : List String}
    {uuid : String} {key : InMemCacheBlock} {d : LocalCacheDestination}
    (hd : localCacheDestination w.platform dirs uuid key.fname key.startOff key.blkSize = .ok d)
    {content : PageAlignedDataChunk} (hm : Mirrors w.remote key content) (outcome : StoreOutcome)
    (tag : String) :
    (files.storeLocalCacheFile outcome d.destLocalFilepath content tag).2.MirrorsRemote w := by
  cases outcome with
  | noSpace evicted => exact h.remove evicted
  | throws => exact h
  | refused => exact h
  | moved => exact h.update hp hd hm.bytes

end LocalFiles

/-! ## The two layers -/

/-- The storage, where there is one, mirrors the remote files. -/
def HeldMirrors (remote : Remote) (storage : Option DataCacheStorage) : Prop :=
  ∀ s, storage = some s → s.MirrorsRemote remote

theorem HeldMirrors.none {remote : Remote} : HeldMirrors remote none := by
  intro s hs
  cases hs

theorem HeldMirrors.some {remote : Remote} {s : DataCacheStorage} (h : s.MirrorsRemote remote) :
    HeldMirrors remote (some s) :=
  fun _ hs => Option.some.inj hs ▸ h

theorem HeldMirrors.map {remote : Remote} {storage : Option DataCacheStorage} (h : HeldMirrors remote storage)
    {f : DataCacheStorage → DataCacheStorage} (hf : ∀ s, s.OK → DataCacheStorage.Loses s (f s)) :
    HeldMirrors remote (storage.map f) := by
  intro s hs
  obtain ⟨s₀, h₀, rfl⟩ := Option.map_eq_some_iff.mp hs
  exact (h s₀ h₀).lose (hf s₀ (h s₀ h₀).ok)

namespace DiskCacheReader

variable {reader : DiskCacheReader}

structure MirrorsRemote (w : World) (reader : DiskCacheReader) : Prop where
  mem : HeldMirrors w.remote reader.inMemStorage
  files : reader.files.MirrorsRemote w
  access : reader.accessMaps.Inverse

theorem MirrorsRemote.memGet (h : reader.MirrorsRemote w) (now : Nat) (key : InMemCacheBlock) (tag : String) :
    (reader.memGet now key tag).2.MirrorsRemote w ∧
      ∀ p, (reader.memGet now key tag).1 = some p → Mirrors w.remote key (p.2.pinnedData p.1) := by
  unfold DiskCacheReader.memGet
  split
  · exact ⟨h, fun p hp => by cases hp⟩
  next storage hs =>
    obtain ⟨hget, hhit⟩ := (h.mem storage hs).get now key tag
    split
    next p s hg =>
      rw [hg] at hget hhit
      refine ⟨⟨.some (hget.lose (DataCacheStorage.release_spec hget.ok p)), h.files, h.access⟩, fun q hq => ?_⟩
      cases hq
      exact hhit p rfl
    next s hg =>
      rw [hg] at hget
      exact ⟨⟨.some hget, h.files, h.access⟩, fun q hq => by cases hq⟩

theorem MirrorsRemote.memPut (h : reader.MirrorsRemote w) (env : TaskEnv) {key : InMemCacheBlock}
    {content : PageAlignedDataChunk} (hm : Mirrors w.remote key content) (tag : String) :
    ∃ reader', reader.memPut env key content tag = .ok reader' ∧ reader'.MirrorsRemote w := by
  unfold DiskCacheReader.memPut
  cases hs : reader.inMemStorage with
  | none => exact ⟨reader, rfl, h⟩
  | some storage =>
    obtain ⟨storage', hput, h'⟩ := (h.mem storage hs).put env.putNow env.evicted hm tag
    exact ⟨{ reader with inMemStorage := some storage' }, by dsimp only; rw [hput]; rfl, .some h', h.files,
      h.access⟩

theorem MirrorsRemote.storeFetched (h : reader.MirrorsRemote w) (hp : w.platform.OK)
    (hdirs : config.DistinctDirectories) (env : TaskEnv) {dirs : List String} {uuid : String}
    (key : InMemCacheBlock) {d : LocalCacheDestination}
    (hd : localCacheDestination w.platform dirs uuid key.fname key.startOff key.blkSize = .ok d)
    {content : PageAlignedDataChunk} (hm : Mirrors w.remote key content) (tag : String) :
    (reader.storeFetched config env d.destLocalFilepath key content tag).MirrorsRemote w := by
  obtain ⟨files, accessMaps, hfiles, hleft, hkeeps⟩ :=
    storeFetched_spec config reader env d.destLocalFilepath key content tag
  have hstored : files.MirrorsRemote w := by
    rcases hfiles with rfl | ⟨outcome, rfl⟩
    · exact h.files
    · exact LocalFiles.storeLocalCacheFile_spec h.files hp hd hm outcome tag
  have h' : MirrorsRemote w { reader with files, accessMaps } := ⟨h.mem, hstored, hkeeps hdirs h.access⟩
  rcases hleft with hleft | hput
  · rw [hleft]
    exact h'
  · obtain ⟨reader', hput', hr⟩ := h'.memPut env hm tag
    cases hput.symm.trans hput'
    exact hr

theorem MirrorsRemote.recordAccess (h : reader.MirrorsRemote w) (config : InstanceConfig) (env : TaskEnv)
    (filepath : String) :
    ∃ reader', reader.recordAccess config env filepath = (.ok (), reader') ∧ reader'.MirrorsRemote w := by
  obtain ⟨accessMaps, hreader, hkeeps⟩ := recordAccess_spec config reader env filepath
  obtain ⟨hrecorded, hinv⟩ := hkeeps h.access
  exact ⟨_, Prod.ext hrecorded hreader, h.mem, h.files, hinv⟩

/-- A task copies what the remote file has, whichever layer answers. -/
theorem processCacheReadChunk_spec (hsized : w.remote.Sized) (hp : w.platform.OK)
    (hdirs : config.DistinctDirectories) (tag : String) {dirs : List String} {info : RemoteFileCachePathInfo}
    (hi : buildRemoteFileCachePathInfo w.platform dirs path = .ok info) :
    TaskOK w.remote path (MirrorsRemote w) (processCacheReadChunk w config path tag info) := by
  intro env c reader hfit h
  obtain ⟨d, hd⟩ := localCacheDestination_of_build hi env.uuid c.alignedStartOffset c.chunkSize
  obtain ⟨info', hi', hr⟩ := localCacheDestination_ok hd
  obtain rfl : info' = info := Except.ok.inj (hi'.symm.trans hi)
  have h₀ : MirrorsRemote w { reader with files := reader.files.remove env.removed } :=
    ⟨h.mem, h.files.remove _, h.access⟩
  obtain ⟨hget, hhit⟩ := h₀.memGet env.getNow (c.blockKey path) tag
  rw [processCacheReadChunk]
  dsimp only
  rw [hr, ok_bind]
  generalize DiskCacheReader.memGet { reader with files := reader.files.remove env.removed } env.getNow
    (c.blockKey path)
    tag = got at hget hhit ⊢
  obtain ⟨_ | ⟨pinned, storage⟩, reader₁⟩ := got
  · -- What the cache file gives, if it may be read at all, and then the remote file.
    have hremote : ∀ {files : LocalFiles}, files.MirrorsRemote w →
        ∃ s' : DiskCacheReader, (do
            let content ← w.fetch path c
            let copied ← c.copyBufferToRequestedMemory content
            return (copied, storeFetched config { reader₁ with files } env d.destLocalFilepath
              (c.blockKey path) content tag)) =
          Except.ok ((c.requestedStartAddr, slice (w.remote path) c.requestedStartOffset c.bytesToCopy), s') ∧
          MirrorsRemote w s' := by
      intro files hfiles
      have h₁ : MirrorsRemote w { reader₁ with files } := ⟨hget.mem, hfiles, hget.access⟩
      obtain ⟨content, hfetch, hm⟩ := fetch_spec (w := w) hfit
      refine ⟨_, ?_, h₁.storeFetched hp hdirs env (c.blockKey path) hd hm tag⟩
      rw [hfetch, ok_bind, hm.copy hsized hfit]
      rfl
    dsimp only
    split
    · obtain ⟨found, files, hread, hfiles, hfound⟩ :=
        LocalFiles.readLocalCacheFile_spec hget.files (c.blockKey path) hd hfit.pos hfit.inFile tag
      have hread : reader₁.files.readLocalCacheFile w d.destLocalFilepath c.chunkSize tag =
          .ok (found, files) := hread
      rw [hread, ok_bind]
      cases found with
      | none => exact hremote hfiles
      | some content =>
        have h₁ : MirrorsRemote w { reader₁ with files } := ⟨hget.mem, hfiles, hget.access⟩
        have hm := hfound content rfl
        obtain ⟨reader₂, hrecorded, h₂⟩ := h₁.recordAccess config env d.destLocalFilepath
        obtain ⟨reader', hput, h'⟩ := h₂.memPut env hm tag
        refine ⟨reader', ?_, h'⟩
        dsimp only
        rw [hm.copy hsized hfit, ok_bind, hrecorded, ok_bind, hput]
        rfl
    · exact hremote hget.files
  · refine ⟨reader₁, ?_, hget⟩
    have hm : Mirrors w.remote (c.blockKey path) (storage.pinnedData pinned) := hhit _ rfl
    dsimp only
    rw [hm.copy hsized hfit]
    rfl

theorem MirrorsRemote.init (h : reader.MirrorsRemote w) (config : InstanceConfig) :
    (reader.init config).MirrorsRemote w := by
  unfold DiskCacheReader.init
  split
  · exact h
  · refine ⟨?_, h.files, h.access⟩
    dsimp only
    split
    · obtain ⟨m, hm⟩ := DataCacheStorage.buildPlainStorage_built config.inMemCacheStorage
        config.diskReaderMaxMemCacheBlockCount config.diskReaderMaxMemCacheTimeoutMillisec
      exact .some (.built hm)
    · exact .none

theorem readAndCache_spec (hsized : w.remote.Sized) (hp : w.platform.OK) (hc : config.OK)
    (honDisk : config.cacheType = .onDisk) (hb : BlockSizeOK config.cacheBlockSize) (env : ReadEnv)
    {buffer : Bytes} {start n : Nat} (hbuf : n ≤ buffer.length) (hin : start + n ≤ (w.remote path).length)
    (h : reader.MirrorsRemote w) :
    ∃ reader', reader.readAndCache w config path env buffer start n (w.remote path).length =
        .ok (writeAt buffer 0 (slice (w.remote path) start n), reader') ∧ reader'.MirrorsRemote w := by
  unfold readAndCache
  by_cases hn : n = 0
  · subst hn
    refine ⟨reader, ?_, h⟩
    simp [writeAt, slice]
  · rw [if_neg hn]
    obtain ⟨d, hd⟩ := localCacheDestination_total (p := w.platform) (hc.directories honDisk)
      (hc.noSlash honDisk) "" path 0 0
    obtain ⟨info, hi, _⟩ := localCacheDestination_ok hd
    obtain ⟨grid, hgrid, hcuts⟩ := fixedGridChunks_cuts
      (⟨Nat.pos_of_ne_zero hn, hin, hsized path⟩ : RequestOK start n (w.remote path).length) hb
    obtain ⟨reader', hrun, h'⟩ := runTasks_spec (processCacheReadChunk_spec hsized hp hc.distinct
      (config.expectedTag env) hi) env
      hcuts hin hbuf (h.init config)
    refine ⟨reader', ?_, h'⟩
    rw [hi, ok_bind, hgrid, ok_bind, hrun]

/-! ## What else happens to it -/

theorem MirrorsRemote.clearCache (h : reader.MirrorsRemote w) (config : InstanceConfig) :
    (reader.clearCache config).MirrorsRemote w := by
  refine ⟨h.mem.map fun s hs => (DataCacheStorage.clear_spec hs).1, h.files.lose fun f x hx => ?_, .empty⟩
  simp only [DiskCacheReader.clearCache] at hx
  split at hx
  · cases hx
  · exact hx

theorem MirrorsRemote.clearCacheFile (h : reader.MirrorsRemote w) (config : InstanceConfig) (hash : PolicyHash)
    (fname : String) :
    ∃ reader', reader.clearCacheFile w config hash fname = .ok reader' ∧ reader'.MirrorsRemote w := by
  obtain ⟨accessMaps, hclear, hinv⟩ := clearCacheFile_returns h.access w config hash fname
  refine ⟨_, hclear, h.mem.map fun s hs => (DataCacheStorage.clearFile_spec hs hash fname).1,
    h.files.lose fun f x hx => ?_, hinv⟩
  simp only [forgetFile_files] at hx
  split at hx
  · cases hx
  · exact hx

theorem MirrorsRemote.remap (h : reader.MirrorsRemote w) (hsized : w.remote.Sized) (env : RemapEnv)
    {newBlockSize : Nat} (hn : BlockSizeOK newBlockSize) :
    ∃ reader', reader.remapInMemoryDataBlocksForNewBlockSize env newBlockSize = .ok reader' ∧
      reader'.MirrorsRemote w := by
  unfold remapInMemoryDataBlocksForNewBlockSize
  cases hs : reader.inMemStorage with
  | none => exact ⟨reader, rfl, h⟩
  | some storage =>
    obtain ⟨storage', hremap, h'⟩ := (h.mem storage hs).remap hsized env hn.pos hn.le
    exact ⟨{ reader with inMemStorage := some storage' }, by dsimp only; rw [hremap]; rfl, .some h', h.files,
      h.access⟩

end DiskCacheReader

end ReadCacheFs
