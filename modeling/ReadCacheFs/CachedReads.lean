/-
What a read through the caches delivers, over remote files that change.

Each task of a read copies out a supplied content or throws because its
range is past the end of the remote file (`TaskSpec`); so a read returns or
throws for that reason, and where all claims a reader accepts are of the
current contents, what it leaves in the buffer is what the file has now.
Whether it returns or throws, the caches hold to the claims after it.
-/
import ReadCacheFs.CachedBytes

namespace ReadCacheFs

open Lib

variable {B B' : FileClaims} {w : World} {config : InstanceConfig} {remote : Remote} {path tag : String}

/-- What a read puts in the caches meets its claims: what it fetches, and
what it copies from a cache file to the in-memory layer. -/
structure FileClaims.Admits (B : FileClaims) (remote : Remote) (path tag : String) : Prop where
  fetched : ∀ o x, (remote path)[o]? = some x → B.byte path tag o x
  promoted : ∀ tag' o x, (tag = "" ∨ tag' = tag) → B.byte path tag' o x → B.byte path tag o x

/-- What a reader that expects a tag accepts is what the file has now. -/
def FileClaims.Current (B : FileClaims) (remote : Remote) (path tag : String) : Prop :=
  ∀ tag' o x, (tag = "" ∨ tag' = tag) → B.byte path tag' o x → (remote path)[o]? = some x

/-- What a task copies its part out of. -/
def Supplied (B : FileClaims) (remote : Remote) (path tag : String) (c : CacheReadChunk)
    (content : PageAlignedDataChunk) :
    Prop :=
  (∃ tag', (tag = "" ∨ tag' = tag) ∧ Vouched B (c.blockKey path) tag' content) ∨ Mirrors remote (c.blockKey path) content

theorem Supplied.mirrors {c : CacheReadChunk} {content : PageAlignedDataChunk} (hc : B.Current remote path tag)
    (h : Supplied B remote path tag c content) : Mirrors remote (c.blockKey path) content := by
  rcases h with ⟨tag', ht, hv⟩ | hm
  · exact hv.mirrors fun o x => hc tag' o x ht
  · exact hm

/-! ## The tasks of a read -/

/-- A task copies out a supplied content and keeps `I`, or throws because its
range is not in the remote file. -/
structure TaskSpec {σ : Type} (B : FileClaims) (remote : Remote) (path tag : String) (E : TaskEnv → Prop)
    (I : σ → Prop) (task : TaskEnv → CacheReadChunk → σ → Except Fault ((Nat × Bytes) × σ))
    (lookUp : TaskEnv → CacheReadChunk → σ → σ) :
    Prop where
  returns : ∀ {env c s fileSize}, E env → c.Fits fileSize → fileSize < 2 ^ 63 → I s →
    (∃ content copied s', task env c s = .ok (copied, s') ∧ I s' ∧ Supplied B remote path tag c content ∧
      c.copyBufferToRequestedMemory content = .ok copied) ∨
    ∃ fault, task env c s = .error fault ∧ (remote path).length < c.alignedStartOffset + c.chunkSize
  lookUp : ∀ {env c s}, I s → I (lookUp env c s)

section Tasks

variable {σ : Type} {E : TaskEnv → Prop} {I : σ → Prop} {lookUp : TaskEnv → CacheReadChunk → σ → σ}
  {task : TaskEnv → CacheReadChunk → σ → Except Fault ((Nat × Bytes) × σ)}

theorem runTasks_eq (task : TaskEnv → CacheReadChunk → σ → Except Fault ((Nat × Bytes) × σ)) (env : ReadEnv)
    (chunks : List CacheReadChunk) (buffer : Bytes) (s : σ) :
    runTasks task env chunks buffer s = (env.order.order chunks).zipIdx.foldlM (fun bs ci =>
      (task (env.task ci.2) ci.1 bs.2).map fun ws => (writeAt bs.1 ws.1.1 ws.1.2, ws.2)) (buffer, s) := by
  rw [runTasks]
  congr 1

/-- The tasks in the order they run. Where the claims are of the current
contents, every chunk lies in the file. -/
theorem foldlM_tasks_returns (ht : TaskSpec B remote path tag E I task lookUp) (hsized : remote.Sized)
    {env : Nat → TaskEnv} (henv : ∀ i, E (env i)) {fileSize : Nat} (hsize : fileSize < 2 ^ 63)
    (chunks : List (CacheReadChunk × Nat)) (hfit : ∀ c ∈ chunks, c.1.Fits fileSize) (buffer : Bytes) (s : σ)
    (hs : I s) :
    (∃ buffer' s', chunks.foldlM (fun bs ci => (task (env ci.2) ci.1 bs.2).map fun ws =>
        (writeAt bs.1 ws.1.1 ws.1.2, ws.2)) (buffer, s) = .ok (buffer', s') ∧ I s' ∧
      (B.Current remote path tag → (∀ c ∈ chunks, c.1.Fits (remote path).length) ∧
        buffer' = writes buffer (chunks.map fun c =>
          (c.1.requestedStartAddr, slice (remote path) c.1.requestedStartOffset c.1.bytesToCopy)))) ∨
    ∃ fault, chunks.foldlM (fun bs ci => (task (env ci.2) ci.1 bs.2).map fun ws =>
        (writeAt bs.1 ws.1.1 ws.1.2, ws.2)) (buffer, s) = .error fault ∧ (remote path).length < fileSize := by
  induction chunks generalizing buffer s with
  | nil => exact .inl ⟨buffer, s, rfl, hs, fun _ => ⟨by simp, rfl⟩⟩
  | cons c chunks ih =>
    have hc := hfit c (by simp)
    rcases ht.returns (henv c.2) hc hsize hs with ⟨content, copied, s₁, htask, h₁, hsup, hcopy⟩ |
      ⟨fault, htask, hpast⟩
    · rw [List.foldlM_cons, htask]
      change (∃ buffer' s', List.foldlM _ (writeAt buffer copied.1 copied.2, s₁) chunks = _ ∧ _) ∨
        ∃ fault, List.foldlM _ (writeAt buffer copied.1 copied.2, s₁) chunks = _ ∧ _
      rcases ih (fun d hd => hfit d (by simp [hd])) (writeAt buffer copied.1 copied.2) s₁ h₁ with
        ⟨buffer', s', hrun, h', hcur⟩ | hthrow
      · refine .inl ⟨buffer', s', hrun, h', fun hB => ?_⟩
        obtain ⟨hfits, hbuf⟩ := hcur hB
        have hm := hsup.mirrors hB
        have hcfit : c.1.Fits (remote path).length := ⟨hc.low, hc.high, hm.inFile, hc.pos⟩
        have hcopied : copied = (c.1.requestedStartAddr,
            slice (remote path) c.1.requestedStartOffset c.1.bytesToCopy) :=
          Except.ok.inj (hcopy.symm.trans (hm.copy hsized hcfit))
        refine ⟨fun d hd => ?_, ?_⟩
        · rcases List.mem_cons.mp hd with rfl | hd
          · exact hcfit
          · exact hfits d hd
        · rw [hbuf, hcopied]
          rfl
      · exact .inr hthrow
    · refine .inr ⟨fault, ?_, ?_⟩
      · rw [List.foldlM_cons, htask]
        rfl
      · have hin := hc.inFile
        omega

/-- All tasks of a read. -/
theorem runTasks_returns (ht : TaskSpec B remote path tag E I task lookUp) (hsized : remote.Sized)
    {env : ReadEnv} (henv : ∀ i, E (env.task i)) {chunks : List CacheReadChunk} {start n fileSize : Nat}
    (hn : 0 < n) (hcut : CutsRequest chunks start n fileSize) (hsize : fileSize < 2 ^ 63) {buffer : Bytes}
    (hbuf : n ≤ buffer.length) {s : σ} (hs : I s) :
    (∃ buffer' s', runTasks task env chunks buffer s = .ok (buffer', s') ∧ I s' ∧
      (B.Current remote path tag →
        start + n ≤ (remote path).length ∧ buffer' = writeAt buffer 0 (slice (remote path) start n))) ∨
    ∃ fault, runTasks task env chunks buffer s = .error fault ∧ (remote path).length < fileSize := by
  have hperm := env.order.perm chunks
  have hmem : ∀ {c}, c ∈ (env.order.order chunks).zipIdx → c.1 ∈ chunks := fun hc =>
    hperm.mem_iff.mp (List.fst_mem_of_mem_zipIdx hc)
  rw [runTasks_eq]
  have hfits : ∀ c ∈ (env.order.order chunks).zipIdx, c.1.Fits fileSize := fun c hc => hcut.fits c.1 (hmem hc)
  rcases foldlM_tasks_returns ht hsized henv hsize (env.order.order chunks).zipIdx hfits buffer
    s hs with ⟨buffer', s', hrun, h', hcur⟩ | hthrow
  · refine .inl ⟨buffer', s', hrun, h', fun hB => ?_⟩
    obtain ⟨hfits, hbuffer⟩ := hcur hB
    -- The last byte of the request lies in a chunk, and the chunk in the file.
    have hin : start + n ≤ (remote path).length := by
      obtain ⟨r, hr, hlo, hhi⟩ := hcut.tiles.cover (i := start + n - 1) (by omega) (by omega)
      obtain ⟨c, hc, rfl⟩ := List.mem_map.mp hr
      obtain ⟨i, hi⟩ := List.mem_iff_getElem?.mp (hperm.mem_iff.mpr hc)
      have hfit : c.Fits (remote path).length := hfits (c, i) (List.mk_mem_zipIdx_iff_getElem?.mpr hi)
      have hhigh := hfit.high
      have hfile := hfit.inFile
      simp only [CacheReadChunk.copyRange] at hlo hhi
      omega
    have hwrites : ((env.order.order chunks).zipIdx.map fun c =>
        (c.1.requestedStartAddr, slice (remote path) c.1.requestedStartOffset c.1.bytesToCopy)) =
        ((env.order.order chunks).map CacheReadChunk.copyRange).map fun r =>
          (r.1 - start, slice (remote path) r.1 r.2) := by
      rw [List.map_map, ← List.zipIdx_map_fst 0 (env.order.order chunks), List.map_map, List.zipIdx_map_fst]
      refine List.map_congr_left fun c hc => ?_
      simp only [Function.comp, CacheReadChunk.copyRange, hcut.addr c.1 (hmem hc)]
    rw [hwrites, writes_tiles hcut.tiles (hperm.map _) hin hbuf] at hbuffer
    exact ⟨hin, hbuffer⟩
  · exact .inr hthrow

/-- However far the task got. -/
theorem TaskSpec.leave (ht : TaskSpec B remote path tag E I task lookUp) {env : TaskEnv} (henv : E env)
    {c : CacheReadChunk} {fileSize : Nat} (hfit : c.Fits fileSize) (hsize : fileSize < 2 ^ 63)
    (fate : TaskFate) {s : σ} (hs : I s) :
    I (fate.leave (task env c) (lookUp env c) s) := by
  have hlook : I (lookUp env c s) := ht.lookUp hs
  cases fate with
  | dropped => exact hs
  | threw => exact hlook
  | ran =>
    rcases ht.returns henv hfit hsize hs with ⟨_, _, s', htask, h', _⟩ | ⟨_, htask, _⟩
    · simpa only [TaskFate.leave, htask] using h'
    · simpa only [TaskFate.leave, htask] using hlook

/-- What each task leaves, however far it got, all of them leave. -/
theorem leftByTasks_invariant {env : ReadEnv} {chunks : List CacheReadChunk}
    (hleave : ∀ c ∈ chunks, ∀ i fate s, I s →
      I (TaskFate.leave fate (task (env.task i) c) (lookUp (env.task i) c) s))
    (fates : Nat → TaskFate) {s : σ} (hs : I s) : I (leftByTasks task lookUp env fates chunks s) := by
  have hmem : ∀ ci ∈ (env.order.order chunks).zipIdx, ci.1 ∈ chunks := fun ci hci =>
    (env.order.perm chunks).mem_iff.mp (List.fst_mem_of_mem_zipIdx hci)
  unfold leftByTasks
  generalize (env.order.order chunks).zipIdx = cis at hmem ⊢
  induction cis generalizing s with
  | nil => exact hs
  | cons ci cis ih =>
    exact ih (hleave ci.1 (hmem ci (by simp)) ci.2 (fates ci.2) s hs) fun d hd => hmem d (by simp [hd])

theorem leftByTasks_keeps (ht : TaskSpec B remote path tag E I task lookUp) {env : ReadEnv}
    (henv : ∀ i, E (env.task i)) (fates : Nat → TaskFate) {chunks : List CacheReadChunk} {fileSize : Nat}
    (hfit : ∀ c ∈ chunks, c.Fits fileSize) (hsize : fileSize < 2 ^ 63) {s : σ} (hs : I s) :
    I (leftByTasks task lookUp env fates chunks s) :=
  leftByTasks_invariant (fun c hc i fate _ hs => ht.leave (henv i) (hfit c hc) hsize fate hs) fates hs

end Tasks

/-! ## The in-memory reader -/

/-- The remote read of a miss. -/
theorem fetch_cases (w : World) (path : String) {c : CacheReadChunk} (hpos : 0 < c.chunkSize) :
    (∃ content, w.fetch path c = .ok content ∧ Mirrors w.remote (c.blockKey path) content) ∨
      ∃ fault, w.fetch path c = .error fault ∧ (w.remote path).length < c.alignedStartOffset + c.chunkSize := by
  by_cases hin : c.alignedStartOffset + c.chunkSize ≤ (w.remote path).length
  · have hmirrors : Mirrors w.remote (c.blockKey path) _ := .filledChunk w.page hpos hin
    refine .inl ⟨_, ?_, hmirrors⟩
    rw [World.fetch, Remote.read, if_pos hin]
    rfl
  · refine .inr ⟨.io, ?_, by omega⟩
    rw [World.fetch, Remote.read, if_neg hin]
    rfl

namespace InMemoryCacheReader

theorem taskSpec (hsized : w.remote.Sized) (ha : B.Admits w.remote path tag) :
    TaskSpec B w.remote path tag (fun _ => True) (DataCacheStorage.HoldsTo B) (processCacheReadChunk w path tag)
      (lookUp path tag) where
  returns {env c s fileSize} _ hfit hsize hs := by
    obtain ⟨hget, hhit⟩ := hs.get env.getNow (c.blockKey path) tag
    unfold processCacheReadChunk
    dsimp only
    generalize s.get env.getNow (c.blockKey path) tag = got at hget hhit ⊢
    obtain ⟨_ | pinned, storage⟩ := got
    · rcases fetch_cases w path hfit.pos with ⟨content, hfetch, hm⟩ | ⟨fault, hfetch, hpast⟩
      · have hv : Vouched B (c.blockKey path) tag content := .of_mirrors hsized hm ha.fetched
        obtain ⟨copied, hcopy⟩ := hv.copy_total hfit
        obtain ⟨storage', hput, h'⟩ := DataCacheStorage.HoldsTo.put hget env.putNow env.evicted hv
        refine .inl ⟨content, copied, storage', ?_, h', .inr hm, hcopy⟩
        dsimp only at hput ⊢
        rw [hfetch, ok_bind, hcopy, ok_bind, hput]
        rfl
      · refine .inr ⟨fault, ?_, hpast⟩
        dsimp only
        rw [hfetch]
        rfl
    · obtain ⟨tag', ht, hv⟩ := hhit pinned rfl
      obtain ⟨copied, hcopy⟩ := hv.copy_total hfit
      refine .inl ⟨_, copied, storage.release pinned, ?_,
        hget.lose (DataCacheStorage.release_spec hget.ok pinned),
        .inl ⟨tag', ht, hv⟩, hcopy⟩
      dsimp only at hcopy ⊢
      rw [hcopy]
      rfl
  lookUp {env c s} hs := by
    have hget := (hs.get env.getNow (c.blockKey path) tag).1
    unfold lookUp
    generalize s.get env.getNow (c.blockKey path) tag = got at hget ⊢
    obtain ⟨_ | pinned, storage⟩ := got
    · exact hget
    · exact hget.lose (DataCacheStorage.release_spec hget.ok pinned)

theorem initStorage_holds (hc : config.OK) (hinMem : config.cacheType = .inMem)
    {storage : Option DataCacheStorage} (hs : StorageHolds B storage) :
    ∃ s, initStorage config storage = .ok s ∧ s.HoldsTo B := by
  cases storage with
  | some s => exact ⟨s, rfl, hs s rfl⟩
  | none =>
    obtain ⟨s, hbuild⟩ := hc.storage hinMem
    exact ⟨s, hbuild, .built hbuild⟩

/-- A read of a part of the file as its size was last known. -/
theorem readAndCache_returns (hsized : w.remote.Sized) (hc : config.OK) (hinMem : config.cacheType = .inMem)
    (hb : BlockSizeOK config.cacheBlockSize) {l : Layouts} (hl : LayoutsOK l) {env : ReadEnv}
    (ha : B.Admits w.remote path (config.expectedTag env)) {buffer : Bytes} {start n fileSize : Nat}
    (hn : 0 < n) (hbuf : n ≤ buffer.length) (hin : start + n ≤ fileSize) (hsize : fileSize < 2 ^ 63)
    {storage : Option DataCacheStorage} (hs : StorageHolds B storage) :
    (∃ buffer' storage', readAndCache w config path l env buffer start n fileSize storage =
      .ok (buffer', storage') ∧
      StorageHolds B storage' ∧ (B.Current w.remote path (config.expectedTag env) →
        start + n ≤ (w.remote path).length ∧ buffer' = writeAt buffer 0 (slice (w.remote path) start n))) ∨
    ∃ fault, readAndCache w config path l env buffer start n fileSize storage = .error fault ∧
      (w.remote path).length < fileSize := by
  obtain ⟨s, hinit, hs₀⟩ := initStorage_holds hc hinMem hs
  obtain ⟨chunks, hcut, hcuts⟩ :=
    cutRequest_cuts config path hl (⟨hn, hin, hsize⟩ : RequestOK start n fileSize) hb
  rw [readAndCache, if_neg (by omega), hinit, ok_bind]
  dsimp only
  rw [hcut, ok_bind]
  rcases runTasks_returns (taskSpec hsized ha) hsized (fun _ => trivial) hn hcuts hsize hbuf hs₀ with
    ⟨buffer', s', hrun, h', hcur⟩ | ⟨fault, hrun, hpast⟩
  · refine .inl ⟨buffer', some s', ?_, .some h', hcur⟩
    rw [hrun]
    rfl
  · refine .inr ⟨fault, ?_, hpast⟩
    rw [hrun]
    rfl

theorem afterThrow_holds (hsized : w.remote.Sized) (hc : config.OK) (hinMem : config.cacheType = .inMem)
    (hb : BlockSizeOK config.cacheBlockSize) {l : Layouts} (hl : LayoutsOK l) {env : ReadEnv}
    (ha : B.Admits w.remote path (config.expectedTag env)) (fates : Nat → TaskFate) {start n fileSize : Nat}
    (hin : start + n ≤ fileSize) (hsize : fileSize < 2 ^ 63) {storage : Option DataCacheStorage}
    (hs : StorageHolds B storage) :
    StorageHolds B (afterThrow w config path l env fates start n fileSize storage) := by
  unfold afterThrow
  split
  · exact hs
  · obtain ⟨s, hinit, hs₀⟩ := initStorage_holds hc hinMem hs
    obtain ⟨chunks, hcut, hcuts⟩ := cutRequest_cuts config path hl
      (⟨Nat.pos_of_ne_zero ‹_›, hin, hsize⟩ : RequestOK start n fileSize) hb
    rw [hinit]
    dsimp only
    rw [hcut]
    exact .some (leftByTasks_keeps (taskSpec hsized ha) (fun _ => trivial) fates hcuts.fits hsize hs₀)

end InMemoryCacheReader

/-! ## Cache files -/

theorem validateCacheFile_tag {cached : String} (h : validateCacheFile cached tag = true) :
    tag = "" ∨ cached = tag := by
  by_cases ht : tag = ""
  · exact .inl ht
  · exact .inr (validateCacheFile_eq ht h)

namespace LocalFiles

/-- The file under the name of a block is as long as the block and meets its claims. -/
def HoldsTo (p : Platform) (B : FileClaims) (files : LocalFiles) : Prop :=
  ∀ dirs uuid (key : InMemCacheBlock) d file, B.sought dirs uuid → key.startOff + key.blkSize < 2 ^ 63 →
    localCacheDestination p dirs uuid key.fname key.startOff key.blkSize = .ok d → files d.destLocalFilepath = some file →
    file.content.length = key.blkSize ∧ ∀ i x, file.content[i]? = some x → B.byte key.fname file.version (key.startOff + i) x

variable {p : Platform} {files files' : LocalFiles}

theorem HoldsTo.empty : HoldsTo p B fun _ => none := by
  intro dirs uuid key d file _ _ _ hf
  cases hf

/-- Files that go do no harm. -/
theorem HoldsTo.lose (h : files.HoldsTo p B) (hsub : ∀ f x, files' f = some x → files f = some x) :
    files'.HoldsTo p B :=
  fun dirs uuid key d file hs hk hd hf => h dirs uuid key d file hs hk hd (hsub _ _ hf)

theorem HoldsTo.remove (h : files.HoldsTo p B) (filepaths : List String) :
    (files.remove filepaths).HoldsTo p B := by
  refine h.lose fun f x hx => ?_
  simp only [LocalFiles.remove] at hx
  split at hx
  · cases hx
  · exact hx

theorem HoldsTo.update (h : files.HoldsTo p B) (hp : p.OK) {dirs : List String} {uuid : String}
    {key : InMemCacheBlock} {d : LocalCacheDestination}
    (hd : localCacheDestination p dirs uuid key.fname key.startOff key.blkSize = .ok d)
    {content : PageAlignedDataChunk} (hv : Vouched B key tag content) :
    HoldsTo p B (Function.update files d.destLocalFilepath
      (some { content := content.bytes, version := tag })) := by
  intro dirs' uuid' key' d' file hs hk hd' hf
  by_cases heq : d'.destLocalFilepath = d.destLocalFilepath
  · rw [heq, Function.update_self] at hf
    cases hf
    obtain ⟨info, hi, hr⟩ := localCacheDestination_ok hd
    obtain ⟨info', hi', hr'⟩ := localCacheDestination_ok hd'
    obtain ⟨hname, hoff, hlen⟩ := dest_inj hp hi' hi hr' hr heq
    obtain rfl : key' = key := by
      cases key
      cases key'
      simp_all
    exact ⟨hv.filled.trans hv.length, hv.bytes⟩
  · rw [Function.update_of_ne heq] at hf
    exact h dirs' uuid' key' d' file hs hk hd' hf

/-- A hit is a block that a tag the reader accepts vouches for. -/
theorem HoldsTo.readLocalCacheFile (h : files.HoldsTo w.platform B) {dirs : List String} {uuid : String}
    (hs : B.sought dirs uuid) {key : InMemCacheBlock} {d : LocalCacheDestination}
    (hd : localCacheDestination w.platform dirs uuid key.fname key.startOff key.blkSize = .ok d)
    (hpos : 0 < key.blkSize) (hbound : key.startOff + key.blkSize < 2 ^ 63) (tag : String) :
    ∃ found files', files.readLocalCacheFile w d.destLocalFilepath key.blkSize tag = .ok (found, files') ∧
      files'.HoldsTo w.platform B ∧
      ∀ content, found = some content → ∃ tag', (tag = "" ∨ tag' = tag) ∧ Vouched B key tag' content := by
  unfold LocalFiles.readLocalCacheFile
  cases hf : files d.destLocalFilepath with
  | none => exact ⟨none, files, rfl, h, fun _ hc => by cases hc⟩
  | some file =>
    dsimp only
    split
    · exact ⟨none, _, rfl, h.remove _, fun _ hc => by cases hc⟩
    next hvalid =>
      obtain ⟨hlen, hbytes⟩ := h dirs uuid key d file hs hbound hd hf
      have hcontent : (filledChunk w.page key.blkSize file.content).bytes = file.content := filledChunk_bytes hlen
      rw [if_neg (by omega), List.take_of_length_le (by omega)]
      refine ⟨_, files, rfl, h,
        fun content hc => ⟨file.version, validateCacheFile_tag (by simpa using hvalid), ?_⟩⟩
      obtain rfl := Option.some.inj hc
      exact ⟨hpos, hbound, rfl, by rw [PageAlignedDataChunk.Filled, hcontent, hlen]; rfl,
        fun i x hx => hbytes i x (hcontent ▸ hx)⟩

/-- It removes a file of another version, and no more. -/
theorem readLocalCacheFile_sub {dest : String} {chunkSize : Nat} {found : Option PageAlignedDataChunk}
    (h : files.readLocalCacheFile w dest chunkSize tag = .ok (found, files')) {f : String} {x : CacheFile}
    (hx : files' f = some x) : files f = some x := by
  unfold LocalFiles.readLocalCacheFile at h
  split at h
  · cases h
    exact hx
  · split at h
    · cases h
      simp only [LocalFiles.remove] at hx
      split at hx
      · cases hx
      · exact hx
    · split at h
      · cases h
      · cases h
        exact hx

/-- However the store goes. -/
theorem HoldsTo.storeLocalCacheFile (h : files.HoldsTo p B) (hp : p.OK) {dirs : List String} {uuid : String}
    {key : InMemCacheBlock} {d : LocalCacheDestination}
    (hd : localCacheDestination p dirs uuid key.fname key.startOff key.blkSize = .ok d)
    {content : PageAlignedDataChunk} (hv : Vouched B key tag content) (outcome : StoreOutcome) :
    (files.storeLocalCacheFile outcome d.destLocalFilepath content tag).2.HoldsTo p B := by
  cases outcome with
  | noSpace evicted => exact h.remove evicted
  | throws => exact h
  | refused => exact h
  | moved => exact h.update hp hd hv

end LocalFiles

/-! ## The on-disk reader -/

namespace DiskCacheReader

variable {reader : DiskCacheReader}

structure HoldsTo (p : Platform) (B : FileClaims) (reader : DiskCacheReader) : Prop where
  mem : StorageHolds B reader.inMemStorage
  files : reader.files.HoldsTo p B
  access : reader.accessMaps.Inverse

theorem HoldsTo.memGet (h : reader.HoldsTo w.platform B) (now : Nat) (key : InMemCacheBlock) (tag : String) :
    (reader.memGet now key tag).2.HoldsTo w.platform B ∧ ∀ p, (reader.memGet now key tag).1 = some p →
      ∃ tag', (tag = "" ∨ tag' = tag) ∧ Vouched B key tag' (p.2.pinnedData p.1) := by
  unfold DiskCacheReader.memGet
  split
  · exact ⟨h, fun p hp => by cases hp⟩
  next storage hs =>
    obtain ⟨hget, hhit⟩ := (h.mem storage hs).get now key tag
    split
    next p s hg =>
      rw [hg] at hget hhit
      refine ⟨⟨.some (hget.lose (DataCacheStorage.release_spec hget.ok p)), h.files, h.access⟩, fun q hq => ?_⟩
      cases hq
      exact hhit p rfl
    next s hg =>
      rw [hg] at hget
      exact ⟨⟨.some hget, h.files, h.access⟩, fun q hq => by cases hq⟩

theorem HoldsTo.memPut (h : reader.HoldsTo w.platform B) (env : TaskEnv) {key : InMemCacheBlock}
    {content : PageAlignedDataChunk}
    (hv : Vouched B key tag content) :
    ∃ reader', reader.memPut env key content tag = .ok reader' ∧ reader'.HoldsTo w.platform B := by
  unfold DiskCacheReader.memPut
  cases hs : reader.inMemStorage with
  | none => exact ⟨reader, rfl, h⟩
  | some storage =>
    obtain ⟨storage', hput, h'⟩ := (h.mem storage hs).put env.putNow env.evicted hv
    exact ⟨{ reader with inMemStorage := some storage' }, by dsimp only; rw [hput]; rfl, .some h', h.files,
      h.access⟩

theorem HoldsTo.storeFetched (h : reader.HoldsTo w.platform B) (hp : w.platform.OK)
    (hdirs : config.DistinctDirectories) (env : TaskEnv) {dirs : List String} {uuid : String}
    {key : InMemCacheBlock} {d : LocalCacheDestination}
    (hd : localCacheDestination w.platform dirs uuid key.fname key.startOff key.blkSize = .ok d)
    {content : PageAlignedDataChunk} (hv : Vouched B key tag content) :
    (reader.storeFetched config env d.destLocalFilepath key content tag).HoldsTo w.platform B := by
  obtain ⟨files, accessMaps, hfiles, hleft, hkeeps⟩ :=
    storeFetched_spec config reader env d.destLocalFilepath key content tag
  have hstored : files.HoldsTo w.platform B := by
    rcases hfiles with rfl | ⟨outcome, rfl⟩
    · exact h.files
    · exact h.files.storeLocalCacheFile hp hd hv outcome
  have h' : HoldsTo w.platform B { reader with files, accessMaps } := ⟨h.mem, hstored, hkeeps hdirs h.access⟩
  rcases hleft with hleft | hput
  · rw [hleft]
    exact h'
  · obtain ⟨reader', hput', hr⟩ := h'.memPut env hv
    cases hput.symm.trans hput'
    exact hr

theorem HoldsTo.recordAccess (h : reader.HoldsTo w.platform B) (config : InstanceConfig) (env : TaskEnv)
    (filepath : String) :
    ∃ reader', reader.recordAccess config env filepath = (.ok (), reader') ∧ reader'.HoldsTo w.platform B := by
  obtain ⟨accessMaps, hreader, hkeeps⟩ := recordAccess_spec config reader env filepath
  obtain ⟨hrecorded, hinv⟩ := hkeeps h.access
  exact ⟨_, Prod.ext hrecorded hreader, h.mem, h.files, hinv⟩

/-- The end of a task that both layers failed. -/
theorem HoldsTo.fetch (h : reader.HoldsTo w.platform B) (hsized : w.remote.Sized) (hp : w.platform.OK)
    (hdirs : config.DistinctDirectories) (ha : B.Admits w.remote path tag) (env : TaskEnv)
    {dirs : List String} {uuid : String} {c : CacheReadChunk} {fileSize : Nat} (hfit : c.Fits fileSize)
    {d : LocalCacheDestination}
    (hd : localCacheDestination w.platform dirs uuid path c.alignedStartOffset c.chunkSize = .ok d) :
    (∃ content copied s', (do
        let content ← w.fetch path c
        let copied ← c.copyBufferToRequestedMemory content
        return (copied, reader.storeFetched config env d.destLocalFilepath (c.blockKey path) content tag)) =
          Except.ok (copied, s') ∧ s'.HoldsTo w.platform B ∧ Supplied B w.remote path tag c content ∧
        c.copyBufferToRequestedMemory content = .ok copied) ∨
    ∃ fault, (do
        let content ← w.fetch path c
        let copied ← c.copyBufferToRequestedMemory content
        return (copied, reader.storeFetched config env d.destLocalFilepath (c.blockKey path) content tag)) =
          Except.error fault ∧ (w.remote path).length < c.alignedStartOffset + c.chunkSize := by
  rcases fetch_cases w path hfit.pos with ⟨content, hfetch, hm⟩ | ⟨fault, hfetch, hpast⟩
  · have hv : Vouched B (c.blockKey path) tag content := .of_mirrors hsized hm ha.fetched
    obtain ⟨copied, hcopy⟩ := hv.copy_total hfit
    refine .inl ⟨content, copied, _, ?_, h.storeFetched hp hdirs env hd hv, .inr hm, hcopy⟩
    rw [hfetch, ok_bind, hcopy]
    rfl
  · refine .inr ⟨fault, ?_, hpast⟩
    rw [hfetch]
    rfl

/-- Whichever layer answers. -/
theorem taskSpec (hsized : w.remote.Sized) (hp : w.platform.OK) (hdirs : config.DistinctDirectories)
    (ha : B.Admits w.remote path tag) {dirs : List String} {info : RemoteFileCachePathInfo}
    (hi : buildRemoteFileCachePathInfo w.platform dirs path = .ok info) :
    TaskSpec B w.remote path tag (fun env => B.sought dirs env.uuid) (HoldsTo w.platform B)
      (processCacheReadChunk w config path tag info) (lookUp w config path tag info) where
  returns {env c reader fileSize} hsought hfit hsize h := by
    obtain ⟨d, hd⟩ := localCacheDestination_of_build hi env.uuid c.alignedStartOffset c.chunkSize
    obtain ⟨info', hi', hr⟩ := localCacheDestination_ok hd
    obtain rfl : info' = info := Except.ok.inj (hi'.symm.trans hi)
    have h₀ : HoldsTo w.platform B { reader with files := reader.files.remove env.removed } :=
      ⟨h.mem, h.files.remove _, h.access⟩
    obtain ⟨hget, hhit⟩ := h₀.memGet env.getNow (c.blockKey path) tag
    rw [processCacheReadChunk]
    dsimp only
    rw [hr, ok_bind]
    generalize DiskCacheReader.memGet { reader with files := reader.files.remove env.removed } env.getNow
      (c.blockKey path)
      tag = got at hget hhit ⊢
    obtain ⟨_ | ⟨pinned, storage⟩, reader₁⟩ := got
    · dsimp only
      split
      · have hin := hfit.inFile
        have hbound : (c.blockKey path).startOff + (c.blockKey path).blkSize < 2 ^ 63 := by
          simp only [CacheReadChunk.blockKey]
          omega
        obtain ⟨found, files, hread, hfiles, hfound⟩ :=
          hget.files.readLocalCacheFile (w := w) hsought hd hfit.pos hbound tag
        have hread : reader₁.files.readLocalCacheFile w d.destLocalFilepath c.chunkSize tag =
            .ok (found, files) := hread
        have h₁ : HoldsTo w.platform B { reader₁ with files } := ⟨hget.mem, hfiles, hget.access⟩
        rw [hread, ok_bind]
        cases found with
        | none => exact h₁.fetch hsized hp hdirs ha env hfit hd
        | some content =>
          obtain ⟨tag', ht, hv⟩ := hfound content rfl
          obtain ⟨copied, hcopy⟩ := hv.copy_total hfit
          obtain ⟨reader₂, hrecorded, h₂⟩ := h₁.recordAccess config env d.destLocalFilepath
          obtain ⟨reader', hput, h'⟩ := h₂.memPut env (hv.mono fun o x => ha.promoted tag' o x ht)
          refine .inl ⟨content, copied, reader', ?_, h', .inl ⟨tag', ht, hv⟩, hcopy⟩
          dsimp only
          rw [hcopy, ok_bind, hrecorded, ok_bind, hput]
          rfl
      · exact hget.fetch hsized hp hdirs ha env hfit hd
    · obtain ⟨tag', ht, hv⟩ := hhit _ rfl
      obtain ⟨copied, hcopy⟩ := hv.copy_total hfit
      refine .inl ⟨_, copied, reader₁, ?_, hget, .inl ⟨tag', ht, hv⟩, hcopy⟩
      dsimp only
      rw [hcopy]
      rfl
  lookUp {env c reader} h := by
    have h₀ : HoldsTo w.platform B { reader with files := reader.files.remove env.removed } :=
      ⟨h.mem, h.files.remove _, h.access⟩
    obtain ⟨hget, _⟩ := h₀.memGet env.getNow (c.blockKey path) tag
    unfold lookUp
    dsimp only
    split
    · exact h₀
    · generalize DiskCacheReader.memGet { reader with files := reader.files.remove env.removed } env.getNow
        (c.blockKey path)
        tag = got at hget ⊢
      obtain ⟨_ | hit, reader₁⟩ := got
      · dsimp only
        split
        · exact hget
        · split
          · exact hget
          next files hread =>
            exact ⟨hget.mem, hget.files.lose fun f x hx => LocalFiles.readLocalCacheFile_sub hread hx,
              hget.access⟩
          next files hread =>
            have h₁ : HoldsTo w.platform B { reader₁ with files } :=
              ⟨hget.mem, hget.files.lose fun f x hx => LocalFiles.readLocalCacheFile_sub hread hx, hget.access⟩
            obtain ⟨reader₂, hrecorded, h₂⟩ := h₁.recordAccess config env _
            rw [hrecorded]
            exact h₂
      · exact hget

theorem HoldsTo.init (h : reader.HoldsTo w.platform B) (config : InstanceConfig) :
    (reader.init config).HoldsTo w.platform B := by
  unfold DiskCacheReader.init
  split
  · exact h
  · refine ⟨?_, h.files, h.access⟩
    dsimp only
    split
    · obtain ⟨m, hm⟩ := DataCacheStorage.buildPlainStorage_built config.inMemCacheStorage
        config.diskReaderMaxMemCacheBlockCount config.diskReaderMaxMemCacheTimeoutMillisec
      exact .some (.built hm)
    · exact .none

/-- The file names of a read under usable directories. -/
theorem build_of_config (p : Platform) (hc : config.OK) (honDisk : config.cacheType = .onDisk) (path : String) :
    ∃ info, buildRemoteFileCachePathInfo p config.onDiskCacheDirectories path = .ok info := by
  obtain ⟨d, hd⟩ := localCacheDestination_total (p := p) (hc.directories honDisk) (hc.noSlash honDisk) "" path 0 0
  obtain ⟨info, hi, _⟩ := localCacheDestination_ok hd
  exact ⟨info, hi⟩

theorem readAndCache_returns (hsized : w.remote.Sized) (hp : w.platform.OK) (hc : config.OK)
    (honDisk : config.cacheType = .onDisk) (hb : BlockSizeOK config.cacheBlockSize) {env : ReadEnv}
    (ha : B.Admits w.remote path (config.expectedTag env))
    (henv : ∀ i, B.sought config.onDiskCacheDirectories (env.task i).uuid) {buffer : Bytes}
    {start n fileSize : Nat} (hn : 0 < n) (hbuf : n ≤ buffer.length) (hin : start + n ≤ fileSize)
    (hsize : fileSize < 2 ^ 63) (h : reader.HoldsTo w.platform B) :
    (∃ buffer' reader', reader.readAndCache w config path env buffer start n fileSize = .ok (buffer', reader') ∧
      reader'.HoldsTo w.platform B ∧ (B.Current w.remote path (config.expectedTag env) →
        start + n ≤ (w.remote path).length ∧ buffer' = writeAt buffer 0 (slice (w.remote path) start n))) ∨
    ∃ fault, reader.readAndCache w config path env buffer start n fileSize = .error fault ∧
      (w.remote path).length < fileSize := by
  obtain ⟨info, hi⟩ := build_of_config w.platform hc honDisk path
  obtain ⟨grid, hgrid, hcuts⟩ := fixedGridChunks_cuts (⟨hn, hin, hsize⟩ : RequestOK start n fileSize) hb
  rw [readAndCache, if_neg (by omega), hi, ok_bind, hgrid, ok_bind]
  exact runTasks_returns (taskSpec hsized hp hc.distinct ha hi) hsized henv hn hcuts hsize hbuf (h.init config)

theorem afterThrow_holds (hsized : w.remote.Sized) (hp : w.platform.OK) (hc : config.OK)
    (honDisk : config.cacheType = .onDisk) (hb : BlockSizeOK config.cacheBlockSize) {env : ReadEnv}
    (ha : B.Admits w.remote path (config.expectedTag env))
    (henv : ∀ i, B.sought config.onDiskCacheDirectories (env.task i).uuid) (fates : Nat → TaskFate)
    {start n fileSize : Nat} (hin : start + n ≤ fileSize) (hsize : fileSize < 2 ^ 63)
    (h : reader.HoldsTo w.platform B) :
    (reader.afterThrow w config path env fates start n fileSize).HoldsTo w.platform B := by
  unfold afterThrow
  split
  · exact h
  · obtain ⟨info, hi⟩ := build_of_config w.platform hc honDisk path
    obtain ⟨grid, hgrid, hcuts⟩ := fixedGridChunks_cuts
      (⟨Nat.pos_of_ne_zero ‹_›, hin, hsize⟩ : RequestOK start n fileSize) hb
    dsimp only
    rw [hi]
    dsimp only
    rw [hgrid]
    exact leftByTasks_keeps (taskSpec hsized hp hc.distinct ha hi) henv fates hcuts.fits hsize (h.init config)

/-! What else happens to it. -/

theorem HoldsTo.clearCache (h : reader.HoldsTo w.platform B) (config : InstanceConfig) :
    (reader.clearCache config).HoldsTo w.platform B := by
  refine ⟨h.mem.map fun s hs => (DataCacheStorage.clear_spec hs).1, h.files.lose fun f x hx => ?_, .empty⟩
  simp only [DiskCacheReader.clearCache] at hx
  split at hx
  · cases hx
  · exact hx

theorem HoldsTo.clearCacheFile (h : reader.HoldsTo w.platform B) (config : InstanceConfig) (hash : PolicyHash)
    (fname : String) :
    ∃ reader', reader.clearCacheFile w config hash fname = .ok reader' ∧ reader'.HoldsTo w.platform B := by
  obtain ⟨accessMaps, hclear, hinv⟩ := clearCacheFile_returns h.access w config hash fname
  refine ⟨_, hclear, h.mem.map fun s hs => (DataCacheStorage.clearFile_spec hs hash fname).1,
    h.files.lose fun f x hx => ?_, hinv⟩
  simp only [forgetFile_files] at hx
  split at hx
  · cases hx
  · exact hx

theorem HoldsTo.remap (h : reader.HoldsTo w.platform B) (env : RemapEnv) {newBlockSize : Nat}
    (hn : BlockSizeOK newBlockSize) :
    ∃ reader', reader.remapInMemoryDataBlocksForNewBlockSize env newBlockSize = .ok reader' ∧
      reader'.HoldsTo w.platform B := by
  unfold remapInMemoryDataBlocksForNewBlockSize
  cases hs : reader.inMemStorage with
  | none => exact ⟨reader, rfl, h⟩
  | some storage =>
    obtain ⟨storage', hremap, h'⟩ := (h.mem storage hs).remap env hn
    exact ⟨{ reader with inMemStorage := some storage' }, by dsimp only; rw [hremap]; rfl, .some h', h.files,
      h.access⟩

end DiskCacheReader

end ReadCacheFs
