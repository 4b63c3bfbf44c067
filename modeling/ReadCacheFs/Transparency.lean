/-
The in-memory reader is transparent: over remote files that do not change,
a read through it leaves in the buffer what the remote file has, whatever
its storage went through before.

What the storage holds mirrors the remote files, so each chunk task copies
the remote file's bytes to their place (`processCacheReadChunk_spec`), and
the chunks of a read tile it (`CutsRequest`), so all tasks together, in any
order, fill the buffer with the request (`readAndCache_spec`).
-/
import ReadCacheFs.Mirror
import ReadCacheFs.Readers

namespace ReadCacheFs

open Lib

variable {w : World} {config : InstanceConfig} {path : String}

/-! ## The tasks of a read -/

/-- The chunks of a request for the `n` bytes at `start`. -/
structure CutsRequest (chunks : List CacheReadChunk) (start n fileSize : Nat) : Prop where
  tiles : Tiles start (start + n) (chunks.map CacheReadChunk.copyRange)
  addr : ∀ c ∈ chunks, c.requestedStartAddr = c.requestedStartOffset - start
  fits : ∀ c ∈ chunks, c.Fits fileSize

/-- A task copies its part of the remote file and keeps `I`. -/
def TaskOK {σ : Type} (remote : Remote) (path : String) (I : σ → Prop)
    (task : TaskEnv → CacheReadChunk → σ → Except Fault ((Nat × Bytes) × σ)) : Prop :=
  ∀ env c s, c.Fits (remote path).length → I s →
    ∃ s', task env c s = .ok ((c.requestedStartAddr, slice (remote path) c.requestedStartOffset c.bytesToCopy), s') ∧ I s'

/-- The tasks in the order they run. -/
theorem foldlM_tasks {σ : Type} {remote : Remote} {I : σ → Prop}
    {task : TaskEnv → CacheReadChunk → σ → Except Fault ((Nat × Bytes) × σ)}
    (ht : TaskOK remote path I task) (env : Nat → TaskEnv) (chunks : List (CacheReadChunk × Nat))
    (hfit : ∀ c ∈ chunks, c.1.Fits (remote path).length) (buffer : Bytes) (s : σ) (hs : I s) :
    ∃ s', chunks.foldlM (fun (buf, s) (c, i) => do
        let (w, s) ← task (env i) c s
        return (writeAt buf w.1 w.2, s)) (buffer, s) =
      Except.ok (writes buffer (chunks.map fun c =>
        (c.1.requestedStartAddr, slice (remote path) c.1.requestedStartOffset c.1.bytesToCopy)), s') ∧ I s' := by
  induction chunks generalizing buffer s with
  | nil => exact ⟨s, rfl, hs⟩
  | cons c chunks ih =>
    obtain ⟨s₁, hc, h₁⟩ := ht (env c.2) c.1 s (hfit c (by simp)) hs
    obtain ⟨s', hrest, h'⟩ := ih (fun d hd => hfit d (by simp [hd])) _ s₁ h₁
    refine ⟨s', ?_, h'⟩
    simp only [List.foldlM_cons, hc, bind, Except.bind, pure, Except.pure]
    exact hrest

theorem runTasks_spec {σ : Type} {remote : Remote} {I : σ → Prop}
    {task : TaskEnv → CacheReadChunk → σ → Except Fault ((Nat × Bytes) × σ)}
    (ht : TaskOK remote path I task) (env : ReadEnv) {chunks : List CacheReadChunk} {start n : Nat}
    (hcut : CutsRequest chunks start n (remote path).length) (hin : start + n ≤ (remote path).length)
    {buffer : Bytes} (hbuf : n ≤ buffer.length) {s : σ} (hs : I s) :
    ∃ s', runTasks task env chunks buffer s = .ok (writeAt buffer 0 (slice (remote path) start n), s') ∧
      I s' := by
  have hperm := env.order.perm chunks
  have hmem : ∀ {c}, c ∈ (env.order.order chunks).zipIdx → c.1 ∈ chunks := fun hc =>
    hperm.mem_iff.mp (List.fst_mem_of_mem_zipIdx hc)
  obtain ⟨s', hrun, h'⟩ := foldlM_tasks ht env.task (env.order.order chunks).zipIdx
    (fun c hc => hcut.fits c.1 (hmem hc)) buffer s hs
  refine ⟨s', ?_, h'⟩
  rw [runTasks, hrun]
  have hwrites : ((env.order.order chunks).zipIdx.map fun c =>
      (c.1.requestedStartAddr, slice (remote path) c.1.requestedStartOffset c.1.bytesToCopy)) =
      ((env.order.order chunks).map CacheReadChunk.copyRange).map fun r =>
        (r.1 - start, slice (remote path) r.1 r.2) := by
    rw [List.map_map, ← List.zipIdx_map_fst 0 (env.order.order chunks), List.map_map, List.zipIdx_map_fst]
    refine List.map_congr_left fun c hc => ?_
    simp only [Function.comp, CacheReadChunk.copyRange, hcut.addr c.1 (hmem hc)]
  rw [hwrites, writes_tiles hcut.tiles (hperm.map _) hin hbuf]

/-! ## Cutting a request -/

/-- A request `ReadImpl` passes on. -/
structure RequestOK (start n fileSize : Nat) : Prop where
  pos : 0 < n
  fits : start + n ≤ fileSize
  sized : fileSize < 2 ^ 63

/-- A block size the setting accepts. -/
structure BlockSizeOK (block : Nat) : Prop where
  pos : 0 < block
  le : block ≤ 2 ^ 63

theorem fixedGridChunks_cuts {start n block fileSize : Nat} (h : RequestOK start n fileSize)
    (hb : BlockSizeOK block) :
    ∃ grid, fixedGridChunks start n block fileSize = .ok grid ∧ CutsRequest grid.chunks start n fileSize := by
  have hsized := h.sized
  have hle := hb.le
  have hgrid : GridRequest start n block fileSize := ⟨h.pos, h.fits, hb.pos, by omega, by omega⟩
  obtain ⟨grid, hok, hchunks⟩ := fixedGridChunks_eq hgrid
  refine ⟨grid, hok, ?_⟩
  rw [hchunks]
  refine ⟨fixedGrid_tiles hgrid, fun c hc => ?_, fun c hc => ?_⟩
  · obtain ⟨io, _, rfl⟩ := List.mem_map.mp hc
    rfl
  · obtain ⟨io, hio, rfl⟩ := List.mem_map.mp hc
    obtain ⟨h1, h2, h3, h4⟩ := gridBlocks_mem hgrid hio
    exact ⟨h3, h4, h1, h2⟩

theorem planColumnChunks_cuts {l : Layouts} (hl : LayoutsOK l) (hhas : l.hasLayout path = true)
    {r : ColumnChunkPlanRequest} (h : RequestOK r.requestedStartOffset r.requestedBytesToRead r.fileSize)
    (hb : BlockSizeOK r.maxGapEntrySize) :
    CutsRequest (planColumnChunks l r path) r.requestedStartOffset r.requestedBytesToRead r.fileSize := by
  obtain ⟨extents, hx⟩ := Option.isSome_iff_exists.mp hhas
  have hsized := h.sized
  obtain ⟨htiles, hall⟩ := planColumnChunks_spec hx (hl path extents hx)
    (⟨h.pos, h.fits, by omega, hb.pos⟩ : PlanRequestOK r)
  refine ⟨htiles, fun c hc => (hall c hc).1.addr, fun c hc => ?_⟩
  have hat := (hall c hc).1
  have h1 := hat.low
  have h2 := hat.high
  have h3 := hat.nonempty
  simp only [CacheReadChunk.nextPos] at h2
  exact ⟨h1, h2, hat.inFile, by omega⟩

/-- An empty plan is cut on the grid. -/
theorem schedule_cuts {r : ColumnChunkPlanRequest} {planned : List CacheReadChunk}
    (h : RequestOK r.requestedStartOffset r.requestedBytesToRead r.fileSize) (hb : BlockSizeOK r.maxGapEntrySize)
    (hplan : planned ≠ [] → CutsRequest planned r.requestedStartOffset r.requestedBytesToRead r.fileSize) :
    ∃ chunks, schedule r planned = .ok chunks ∧
      CutsRequest chunks r.requestedStartOffset r.requestedBytesToRead r.fileSize := by
  unfold schedule
  split
  · obtain ⟨grid, hok, hcuts⟩ := fixedGridChunks_cuts h hb
    exact ⟨grid.chunks, by rw [hok]; rfl, hcuts⟩
  next hne => exact ⟨planned, rfl, hplan hne⟩

theorem cutRequest_cuts (config : InstanceConfig) (path : String) {l : Layouts} (hl : LayoutsOK l)
    {start n fileSize : Nat} (h : RequestOK start n fileSize) (hb : BlockSizeOK config.cacheBlockSize) :
    ∃ chunks, InMemoryCacheReader.cutRequest config path l start n fileSize = .ok chunks ∧
      CutsRequest chunks start n fileSize := by
  refine schedule_cuts (r := ⟨start, n, fileSize, config.cacheBlockSize⟩) h hb ?_
  split
  next hplan => exact fun _ => planColumnChunks_cuts hl hplan.2 h hb
  next => exact fun hne => absurd rfl hne

/-! ## The in-memory reader -/

theorem fetch_spec {c : CacheReadChunk} (hfit : c.Fits (w.remote path).length) :
    ∃ content, w.fetch path c = .ok content ∧ Mirrors w.remote (c.blockKey path) content := by
  have hread : w.remote.read path c.chunkSize c.alignedStartOffset =
      .ok (slice (w.remote path) c.alignedStartOffset c.chunkSize) := if_pos hfit.inFile
  refine ⟨filledChunk w.page c.chunkSize (slice (w.remote path) c.alignedStartOffset c.chunkSize), ?_, ?_⟩
  · rw [World.fetch, hread]
    rfl
  · exact (.filledChunk w.page hfit.pos hfit.inFile : Mirrors w.remote (c.blockKey path) _)

theorem InMemoryCacheReader.processCacheReadChunk_spec (hsized : w.remote.Sized) (tag : String) :
    TaskOK w.remote path (DataCacheStorage.MirrorsRemote w.remote) (processCacheReadChunk w path tag) := by
  intro env c s hfit hs
  obtain ⟨hget, hhit⟩ := hs.get env.getNow (c.blockKey path) tag
  unfold processCacheReadChunk
  dsimp only
  generalize s.get env.getNow (c.blockKey path) tag = got at hget hhit ⊢
  obtain ⟨_ | pinned, storage⟩ := got
  · obtain ⟨content, hfetch, hcontent⟩ := fetch_spec hfit
    obtain ⟨storage', hput, h'⟩ := DataCacheStorage.MirrorsRemote.put hget env.putNow env.evicted hcontent tag
    have hcopy := hcontent.copy hsized hfit
    refine ⟨storage', ?_, h'⟩
    dsimp only at hput ⊢
    rw [hfetch, ok_bind, hcopy, ok_bind, hput]
    rfl
  · have hdata : Mirrors w.remote (c.blockKey path) (storage.pinnedData pinned) := hhit pinned rfl
    refine ⟨storage.release pinned, ?_, hget.lose (DataCacheStorage.release_spec hget.ok pinned)⟩
    have hcopy := hdata.copy hsized hfit
    dsimp only
    rw [hcopy]
    rfl

/-- The settings under which the reader in use works at all: the in-memory
storage can be built, or there are cache directories, each named without a
slash at its end; and `lru_sp` has no directory twice. -/
structure InstanceConfig.OK (config : InstanceConfig) : Prop where
  storage : config.cacheType = .inMem → ∃ s, buildInMemoryDataCacheStorage config.inMemCacheStorage
    config.maxInMemCacheBlockCount config.inMemCacheBlockTimeoutMillisec config.policyOptions = .ok s
  directories : config.cacheType = .onDisk → config.onDiskCacheDirectories ≠ []
  noSlash : config.cacheType = .onDisk → ∀ dir ∈ config.onDiskCacheDirectories, endsWithSlash dir = false
  distinct : config.DistinctDirectories

theorem InMemoryCacheReader.initStorage_spec (hc : config.OK) (hinMem : config.cacheType = .inMem)
    {storage : Option DataCacheStorage} (hs : ∀ s, storage = some s → s.MirrorsRemote w.remote) :
    ∃ s, initStorage config storage = .ok s ∧ s.MirrorsRemote w.remote := by
  cases storage with
  | some s => exact ⟨s, rfl, hs s rfl⟩
  | none =>
    obtain ⟨s, hbuild⟩ := hc.storage hinMem
    exact ⟨s, hbuild, .built hbuild⟩

theorem InMemoryCacheReader.readAndCache_spec (hsized : w.remote.Sized) (hc : config.OK)
    (hinMem : config.cacheType = .inMem) (hb : BlockSizeOK config.cacheBlockSize) {l : Layouts} (hl : LayoutsOK l)
    (env : ReadEnv) {buffer : Bytes} {start n : Nat}
    (hbuf : n ≤ buffer.length) (hin : start + n ≤ (w.remote path).length) {storage : Option DataCacheStorage}
    (hs : ∀ s, storage = some s → s.MirrorsRemote w.remote) :
    ∃ storage', readAndCache w config path l env buffer start n (w.remote path).length storage =
        .ok (writeAt buffer 0 (slice (w.remote path) start n), storage') ∧
      ∀ s, storage' = some s → s.MirrorsRemote w.remote := by
  unfold readAndCache
  by_cases hn : n = 0
  · subst hn
    refine ⟨storage, ?_, hs⟩
    simp [writeAt, slice]
  · rw [if_neg hn]
    obtain ⟨s, hinit, hs₀⟩ := initStorage_spec (w := w) hc hinMem hs
    obtain ⟨chunks, hcut, hcuts⟩ := cutRequest_cuts config path hl
      (⟨Nat.pos_of_ne_zero hn, hin, hsized path⟩ : RequestOK start n (w.remote path).length) hb
    obtain ⟨s', hrun, h'⟩ := runTasks_spec (processCacheReadChunk_spec hsized
      (config.expectedTag env)) env hcuts hin hbuf hs₀
    refine ⟨some s', ?_, fun s hsome => Option.some.inj hsome ▸ h'⟩
    rw [hinit, ok_bind]
    dsimp only
    rw [hcut, ok_bind, hrun]
    rfl

end ReadCacheFs
