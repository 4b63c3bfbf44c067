/-
How old the bytes are that the in-memory reader serves.

The timeout runs from a block's `Put`. A task puts what it has just fetched,
but a block-size change takes all blocks out, cuts them again and puts them
back, and their age starts anew; two of the backends hand over even what has
expired. Where every `Put` comes in the millisecond its bytes were fetched
in, the timeout bounds their age.
-/
import ReadCacheFs.Mirror
import ReadCacheFs.PinnedBlocks
import ReadCacheFs.Readers

namespace ReadCacheFs

open Lib

/-! ## Runs of the reader -/

/-- A block read from the internal filesystem: when, and how long the log of
the storage was by then. -/
structure Fetch where
  now : Nat
  key : InMemCacheBlock
  bytes : Bytes
  logged : Nat
  deriving DecidableEq, Repr

def Fetch.byteAt? (f : Fetch) (fname : String) (p : Nat) : Option UInt8 :=
  if f.key.fname = fname ∧ f.key.startOff ≤ p then f.bytes[p - f.key.startOff]? else none

structure ReaderRun where
  run : StorageRun
  fetches : List Fetch := []

/-- The parts of tasks, of any number of reads at a time, and the other calls. -/
inductive ReaderAct
  /-- `Get`: a hit is served. -/
  | lookUp (now : Nat) (blockKey : InMemCacheBlock) (versionTag : String)
  | fetch (now : Nat) (blockKey : InMemCacheBlock) (bytes : Bytes)
  /-- `Put` of what was fetched. -/
  | store (fetch page now : Nat) (evicted : List String) (versionTag : String)
  | release (i : Nat)
  | clearCache
  | clearCacheFile (hash : PolicyHash) (fname : String)
  | remap (env : RemapEnv) (newBlockSize : Nat)
  | evict (objCacheKey : String)

def ReaderRun.call (s : ReaderRun) (a : PinAct) : Option ReaderRun :=
  (pinStep s.run a).map fun run => { s with run }

def readerStep (s : ReaderRun) : ReaderAct → Option ReaderRun
  | .lookUp now blockKey versionTag => s.call (.op (.get now blockKey versionTag))
  | .fetch now blockKey bytes =>
    if s.run.clock ≤ now ∧ now < clockLimit ∧ 0 < blockKey.blkSize ∧ bytes.length = blockKey.blkSize ∧
        blockKey.startOff + blockKey.blkSize < 2 ^ 63 then
      some { run := { s.run with clock := now }, fetches := s.fetches ++ [⟨now, blockKey, bytes, s.run.log.length⟩] }
    else none
  | .store i page now evicted versionTag => match s.fetches[i]? with
    | none => none
    | some f => s.call (.op (.put now evicted f.key (filledChunk page f.key.blkSize f.bytes) versionTag))
  | .release i => s.call (.op (.release i))
  | .clearCache => s.call (.op .clear)
  | .clearCacheFile hash fname => s.call (.op (.clearFile hash fname))
  | .remap env newBlockSize =>
    if 0 < newBlockSize ∧ newBlockSize ≤ 2 ^ 63 then s.call (.remap env newBlockSize) else none
  | .evict objCacheKey => s.call (.op (.evict objCacheKey))

/-- Each byte of a block served was fetched, before it was served and no
longer ago than the timeout. -/
def ServesWithin (timeoutMillisec : Nat) (s : ReaderRun) : Prop :=
  ∀ (j now : Nat) (key : InMemCacheBlock) (tag : String) (data : PageAlignedDataChunk),
    s.run.log[j]? = some (.get now key tag (some data)) → ∀ i < key.blkSize, ∃ f ∈ s.fetches, f.logged ≤ j ∧
      steadyMillis now ≤ steadyMillis f.now + timeoutMillisec ∧
        ∃ x, data.bytes[i]? = some x ∧ f.byteAt? key.fname (key.startOff + i) = some x

/-- A task is a run: a hit is looked up and released, a miss fetched and put. -/
theorem InMemoryCacheReader.processCacheReadChunk_run {w : World} {path tag : String} {env : TaskEnv}
    {c : CacheReadChunk} {s : ReaderRun} {wrote : Nat × Bytes} {storage : DataCacheStorage}
    (hsized : w.remote.Sized) (hfit : c.Fits (w.remote path).length) {fetchNow : Nat}
    (hget : s.run.clock ≤ env.getNow) (hfetch : env.getNow ≤ fetchNow) (hput : fetchNow ≤ env.putNow)
    (hlim : env.putNow < clockLimit)
    (h : processCacheReadChunk w path tag env c s.run.storage = .ok (wrote, storage)) :
    ∃ as, (exec readerStep s as).map (·.run.storage) = some storage := by
  have hsize := hsized path
  have hin := hfit.inFile
  have hclock : s.run.clock ≤ env.getNow ∧ env.getNow < clockLimit := ⟨hget, by omega⟩
  unfold processCacheReadChunk at h
  dsimp only at h
  split at h
  next p storage₁ hg =>
    obtain ⟨copied, _, h⟩ := except_bind_eq_ok.mp h
    cases h
    refine ⟨[.lookUp env.getNow (c.blockKey path) tag, .release 0], ?_⟩
    simp only [exec, readerStep, ReaderRun.call, pinStep, storageStep, if_pos hclock, hg]
    rfl
  next storage₁ hg =>
    obtain ⟨content, hcontent, h⟩ := except_bind_eq_ok.mp h
    obtain ⟨copied, _, h⟩ := except_bind_eq_ok.mp h
    obtain ⟨storage₂, hstored, h⟩ := except_bind_eq_ok.mp h
    cases h
    rw [World.fetch, Remote.read, if_pos hin] at hcontent
    cases hcontent
    have hfetched : env.getNow ≤ fetchNow ∧ fetchNow < clockLimit ∧ 0 < c.chunkSize ∧
        (slice (w.remote path) c.alignedStartOffset c.chunkSize).length = c.chunkSize ∧
        c.alignedStartOffset + c.chunkSize < 2 ^ 63 :=
      ⟨hfetch, by omega, hfit.pos, length_slice_of_le hin, by omega⟩
    have hclock' : fetchNow ≤ env.putNow ∧ env.putNow < clockLimit := ⟨hput, hlim⟩
    refine ⟨[.lookUp env.getNow (c.blockKey path) tag,
      .fetch fetchNow (c.blockKey path) (slice (w.remote path) c.alignedStartOffset c.chunkSize),
      .store s.fetches.length w.page env.putNow env.evicted tag], ?_⟩
    simp only [CacheReadChunk.blockKey] at hg hstored ⊢
    simp only [exec, readerStep, ReaderRun.call, pinStep, storageStep, if_pos hclock, hg, Option.map_some,
      Option.bind_some,
      if_pos hfetched, List.getElem?_concat_length, if_pos hclock', hstored]

/-! ## Where the timeout bounds the age -/

/-- The blocks a block-size change puts back. -/
def DataCacheStorage.putBack (s : DataCacheStorage) (env : RemapEnv) (newBlockSize : Nat) :
    List (InMemCacheBlock × InMemCacheDataEntry) :=
  (do
    let (taken, _) ← s.take env.clock env.policyHash
    remapInMemCacheEntries env.page env.fileHash (taken.map fun (k, e) => (k, some e)) newBlockSize ∅).toOption.getD []

/-- A block put at this time or later has the byte at offset `p` of the file. -/
def DataCacheStorage.HoldsSince (s : DataCacheStorage) (millis : Nat) (fname : String) (p : Nat) (y : UInt8) :
    Prop :=
  ∃ k x, s.resident k = some x ∧ millis ≤ x.putMillis ∧ k.fname = fname ∧ k.startOff ≤ p ∧
    p < k.startOff + k.blkSize ∧ x.data.bytes[p - k.startOff]? = some y

/-- A `Put` comes in the millisecond its bytes were fetched in. Of a
block-size change: what it puts back was put in that same millisecond. -/
def ReaderRun.Timely (s : ReaderRun) : ReaderAct → Prop
  | .store i _ now _ _ => ∀ f, s.fetches[i]? = some f → steadyMillis now ≤ steadyMillis f.now
  | .remap env newBlockSize => ∀ kv ∈ s.run.storage.putBack env newBlockSize, ∀ i y, kv.2.data.bytes[i]? = some y →
      s.run.storage.HoldsSince (steadyMillis (env.putNow kv.1)) kv.1.fname (kv.1.startOff + i) y
  | _ => True

/-- What was put has bytes fetched at the time it was put or later. -/
structure BlockFetched (fetches : List Fetch) (k : InMemCacheBlock) (x : HeldBlock) : Prop where
  nonempty : x.data.empty = false
  filled : x.data.Filled
  length : x.data.length = k.blkSize
  bound : k.startOff + k.blkSize < 2 ^ 63
  fetched : ∀ i < k.blkSize, ∃ f ∈ fetches, x.putMillis ≤ steadyMillis f.now ∧
    ∃ y, x.data.bytes[i]? = some y ∧ f.byteAt? k.fname (k.startOff + i) = some y

theorem BlockFetched.mono {fetches fetches' : List Fetch} {k : InMemCacheBlock} {x : HeldBlock}
    (h : BlockFetched fetches k x) (hsub : fetches ⊆ fetches') : BlockFetched fetches' k x := by
  refine ⟨h.nonempty, h.filled, h.length, h.bound, fun i hi => ?_⟩
  obtain ⟨f, hf, hb⟩ := h.fetched i hi
  exact ⟨f, hsub hf, hb⟩

theorem BlockFetched.of_filledChunk {fetches : List Fetch} {k : InMemCacheBlock} {page putMillis : Nat}
    {tag : String}
    {bytes : Bytes} (hpos : 0 < k.blkSize) (hlen : bytes.length = k.blkSize)
    (hbound : k.startOff + k.blkSize < 2 ^ 63)
    (hfetched : ∀ i < k.blkSize, ∃ f ∈ fetches, putMillis ≤ steadyMillis f.now ∧
      ∃ y, bytes[i]? = some y ∧ f.byteAt? k.fname (k.startOff + i) = some y) :
    BlockFetched fetches k ⟨filledChunk page k.blkSize bytes, tag, putMillis⟩ := by
  have hb : (filledChunk page k.blkSize bytes).bytes = bytes := filledChunk_bytes hlen
  refine ⟨?_, ?_, rfl, hbound, fun i hi => ?_⟩
  · have hne : k.blkSize ≠ 0 := by omega
    simp [filledChunk, PageAlignedDataChunk.empty, hne]
  · rw [PageAlignedDataChunk.Filled, hb, hlen]
    rfl
  · obtain ⟨f, hf, hput, y, hy, hat⟩ := hfetched i hi
    exact ⟨f, hf, hput, y, by rw [hb]; exact hy, hat⟩

structure Fetch.OK (f : Fetch) : Prop where
  pos : 0 < f.key.blkSize
  length : f.bytes.length = f.key.blkSize
  bound : f.key.startOff + f.key.blkSize < 2 ^ 63

theorem Fetch.OK.block {fetches : List Fetch} {f : Fetch} (h : f.OK) (hf : f ∈ fetches) {now : Nat}
    (hnow : steadyMillis now ≤ steadyMillis f.now) (page : Nat) (tag : String) :
    BlockFetched fetches f.key ⟨filledChunk page f.key.blkSize f.bytes, tag, steadyMillis now⟩ := by
  refine .of_filledChunk h.pos h.length h.bound fun i hi => ⟨f, hf, hnow, ?_⟩
  have hlt : i < f.bytes.length := by rw [h.length]; exact hi
  refine ⟨f.bytes.get ⟨i, hlt⟩, List.getElem?_eq_getElem hlt, ?_⟩
  rw [Fetch.byteAt?, if_pos ⟨rfl, Nat.le_add_right _ _⟩, Nat.add_sub_cancel_left]
  exact List.getElem?_eq_getElem hlt

/-! ## The invariant -/

section Invariant

variable {timeoutMillisec : Nat} {fetches : List Fetch} {s s' : StorageRun}

structure FreshRun (timeoutMillisec : Nat) (fetches : List Fetch) (s : StorageRun) : Prop where
  ok : s.storage.OK
  timeout : s.storage.timeoutMillisec = timeoutMillisec
  past : ∀ k x, s.storage.resident k = some x → x.putMillis ≤ steadyMillis s.clock
  fetched : ∀ k x, s.storage.resident k = some x → BlockFetched fetches k x
  logged : ∀ f ∈ fetches, f.OK ∧ f.logged ≤ s.log.length
  served : ServesWithin timeoutMillisec ⟨s, fetches⟩

theorem ServesWithin.snoc {s : ReaderRun} {run : StorageRun} (h : ServesWithin timeoutMillisec s)
    {ev : CacheEvent}
    (hlog : run.log = s.run.log ++ [ev])
    (hev : ∀ now key tag data, ev = .get now key tag (some data) → ∀ i < key.blkSize, ∃ f ∈ s.fetches,
      f.logged ≤ s.run.log.length ∧ steadyMillis now ≤ steadyMillis f.now + timeoutMillisec ∧
        ∃ x, data.bytes[i]? = some x ∧ f.byteAt? key.fname (key.startOff + i) = some x) :
    ServesWithin timeoutMillisec { s with run } := by
  intro j now key tag data hj
  dsimp only at hj
  rw [hlog] at hj
  rcases getElem?_snoc_iff.mp hj with hold | ⟨rfl, hnew⟩
  · exact h j now key tag data hold
  · exact hev now key tag data hnew.symm

theorem FreshRun.lose (h : FreshRun timeoutMillisec fetches s) {storage : DataCacheStorage}
    (hl : s.storage.Loses storage) {clock : Nat} (hc : s.clock ≤ clock)
    {pins : List (Nat × PageAlignedDataChunk)} {log : List CacheEvent} (hlog : s.log.length ≤ log.length)
    (hserved : ServesWithin timeoutMillisec ⟨⟨storage, clock, pins, log⟩, fetches⟩) :
    FreshRun timeoutMillisec fetches ⟨storage, clock, pins, log⟩ where
  ok := hl.ok
  timeout := hl.timeout.trans h.timeout
  past k x hx := (h.past k x (hl.held k x hx)).trans (steadyMillis_mono hc)
  fetched k x hx := h.fetched k x (hl.held k x hx)
  logged f hf := ⟨(h.logged f hf).1, (h.logged f hf).2.trans hlog⟩
  served := hserved

/-- Each call of the storage keeps the invariant, a `Put` where its bytes are fresh. -/
theorem storageStep_fresh {a : StorageAct} (h : FreshRun timeoutMillisec fetches s) (ht : 0 < timeoutMillisec)
    (hput : ∀ now evicted key chunk tag, a = .put now evicted key chunk tag →
      BlockFetched fetches key ⟨chunk, tag, steadyMillis now⟩) (hs : storageStep s a = some s') :
    FreshRun timeoutMillisec fetches s' := by
  have hsnoc : ∀ {storage clock pins ev}, (∀ now key tag data, ev ≠ .get now key tag (some data)) →
      ServesWithin timeoutMillisec ⟨⟨storage, clock, pins, s.log ++ [ev]⟩, fetches⟩ := fun hev =>
    h.served.snoc rfl fun now key tag data he => absurd he (hev now key tag data)
  have hgrow : ∀ ev, s.log.length ≤ (s.log ++ [ev]).length := by simp
  cases a with
  | put now evicted key chunk tag =>
    simp only [storageStep] at hs
    split at hs
    next hc =>
      split at hs
      next storage hp =>
        cases hs
        obtain ⟨hok, htime, _, hres⟩ := DataCacheStorage.put_spec h.ok hp
        refine ⟨hok, htime.trans h.timeout, fun k x hx => ?_, fun k x hx => ?_,
          fun f hf => ⟨(h.logged f hf).1, (h.logged f hf).2.trans (hgrow _)⟩, hsnoc fun _ _ _ _ he => by cases he⟩
        · rcases hres k x hx with ⟨_, rfl, _⟩ | ⟨hold, _⟩
          · exact Nat.le_refl _
          · exact (h.past k x hold).trans (steadyMillis_mono hc.1)
        · rcases hres k x hx with ⟨rfl, rfl, _⟩ | ⟨hold, _⟩
          · exact hput now evicted k chunk tag rfl
          · exact h.fetched k x hold
      next => cases hs
    next => cases hs
  | get now key tag =>
    simp only [storageStep] at hs
    split at hs
    next hc =>
      obtain ⟨hl, hr⟩ := DataCacheStorage.get_spec h.ok now key tag
      split at hs
      next storage hg =>
        cases hs
        rw [hg] at hl
        exact h.lose hl hc.1 (hgrow _) (hsnoc fun _ _ _ _ he => by cases he)
      next p storage hg =>
        cases hs
        rw [hg] at hl hr
        obtain ⟨x, hx, hd, hserves⟩ := hr
        refine h.lose hl hc.1 (hgrow _) (h.served.snoc rfl fun now' key' tag' data he i hi => ?_)
        cases he
        obtain ⟨f, hf, hput, y, hy, hat⟩ := (h.fetched key x hx).fetched i hi
        have hfresh := (hserves hc.2 ((h.past key x hx).trans (steadyMillis_mono hc.1))).fresh
        rw [h.timeout] at hfresh
        refine ⟨f, hf, (h.logged f hf).2, (hfresh (by omega)).trans (by omega), y, ?_, hat⟩
        rw [DataCacheStorage.pinnedData, hd]
        exact hy
    next => cases hs
  | delete key =>
    cases hs
    exact h.lose (DataCacheStorage.delete_spec h.ok key).1 (Nat.le_refl _) (hgrow _)
      (hsnoc fun _ _ _ _ he => by cases he)
  | clear =>
    cases hs
    exact h.lose (DataCacheStorage.clear_spec h.ok).1 (Nat.le_refl _) (hgrow _)
      (hsnoc fun _ _ _ _ he => by cases he)
  | clearFile hash fname =>
    cases hs
    exact h.lose (DataCacheStorage.clearFile_spec h.ok hash fname).1 (Nat.le_refl _) (hgrow _)
      (hsnoc fun _ _ _ _ he => by cases he)
  | take clock hash =>
    obtain ⟨taken, storage, htake, hl, _⟩ := DataCacheStorage.take_spec h.ok clock hash
    simp only [storageStep, htake] at hs
    cases hs
    exact h.lose hl (Nat.le_refl _) (hgrow _) (hsnoc fun _ _ _ _ he => by cases he)
  | evict objCacheKey =>
    cases hs
    exact h.lose (DataCacheStorage.evict_spec h.ok objCacheKey) (Nat.le_refl _) (Nat.le_refl _) h.served
  | release i =>
    obtain ⟨pin, _, rfl⟩ := Option.map_eq_some_iff.mp hs
    exact h.lose (DataCacheStorage.release_spec h.ok pin.1) (Nat.le_refl _) (Nat.le_refl _) h.served

/-- A block put back has its bytes from blocks no older than its `Put`. -/
theorem FreshRun.recut (h : FreshRun timeoutMillisec fetches s) {page newBlockSize millis : Nat}
    {taken : TakenEntries} (htaken : ∀ k e, (k, some e) ∈ taken → ∃ x, s.storage.resident k = some x)
    {kv : InMemCacheBlock × InMemCacheDataEntry} (hnew : NewBlock page taken newBlockSize kv)
    (hsince : ∀ i y, kv.2.data.bytes[i]? = some y →
      s.storage.HoldsSince millis kv.1.fname (kv.1.startOff + i) y) :
    BlockFetched fetches kv.1 ⟨kv.2.data, kv.2.versionTag, millis⟩ := by
  obtain ⟨bs, hlen, hdata⟩ := hnew.data
  have hpos := hnew.pos
  rw [hdata] at hsince ⊢
  rw [filledChunk_bytes hlen] at hsince
  refine .of_filledChunk hpos hlen ?_ fun i hi => ?_
  · -- The block its last byte was taken from ends no earlier.
    obtain ⟨_, _, k, e, hmem, _, _, _, hlast, _⟩ :=
      hnew.bytes (kv.1.startOff + kv.1.blkSize - 1) (by omega) (by omega)
    obtain ⟨x, hx⟩ := htaken k e hmem
    have hbound := (h.fetched k x hx).bound
    omega
  · have hlt : i < bs.length := by omega
    obtain ⟨k, x, hx, hput, hf, h3, h4, hy⟩ := hsince i (bs.get ⟨i, hlt⟩) (List.getElem?_eq_getElem hlt)
    obtain ⟨f, hfm, hfresh, y, hy', hat⟩ := (h.fetched k x hx).fetched (kv.1.startOff + i - k.startOff) (by omega)
    obtain rfl := Option.some.inj (hy'.symm.trans hy)
    rw [hf, Nat.add_sub_cancel' h3] at hat
    exact ⟨f, hfm, hput.trans hfresh, _, List.getElem?_eq_getElem hlt, hat⟩

theorem FreshRun.remap (h : FreshRun timeoutMillisec fetches s) (ht : 0 < timeoutMillisec) {env : RemapEnv}
    {newBlockSize : Nat} (hn : 0 < newBlockSize) (hle : newBlockSize ≤ 2 ^ 63)
    (htimely : ReaderRun.Timely ⟨s, fetches⟩ (.remap env newBlockSize))
    (hs : pinStep s (.remap env newBlockSize) = some s') :
    FreshRun timeoutMillisec fetches s' := by
  obtain ⟨taken, storage, htake, hl, _, hmem⟩ := DataCacheStorage.take_spec h.ok env.clock env.policyHash
  have htaken : ∀ k e, (k, some e) ∈ taken.map (fun kv => (kv.1, some kv.2)) →
    ∃ x, s.storage.resident k = some x ∧
      e = ⟨x.data, x.versionTag⟩ ∧ s.storage.HandsOver env.clock x := by
    intro k e hke
    obtain ⟨⟨k', e'⟩, hke', heq⟩ := List.mem_map.mp hke
    cases heq
    exact hmem k' e' hke'
  have hall : TakenAllOK newBlockSize (taken.map fun kv => (kv.1, some kv.2)) := by
    intro kv hkv
    obtain ⟨⟨k, e⟩, hke, rfl⟩ := List.mem_map.mp hkv
    obtain ⟨x, hx, rfl, _⟩ := hmem k e hke
    obtain ⟨hne, hfill, hlen, hbound, _⟩ := h.fetched k x hx
    exact ⟨_, rfl, hne, hfill, hlen, by dsimp only; omega⟩
  obtain ⟨rebuilt, hout, hnew, _⟩ := remapInMemCacheEntries_spec env.page env.fileHash hn
    (fun f => (⟨Nat.le_refl _, fun hs => by simp at hs⟩ : Room _ _
      ((∅ : AList fun _ : String => Nat).lookup f))) hall
  have hdrained : FreshRun timeoutMillisec fetches { s with storage, log := s.log ++ [.take] } :=
    h.lose hl (Nat.le_refl _) (by simp) (h.served.snoc rfl fun _ _ _ _ he => by cases he)
  simp only [pinStep, htake, hout] at hs
  refine exec_guarded_invariant (I := FreshRun timeoutMillisec fetches)
    (G := fun _ a => ∀ now evicted key chunk tag, a = .put now evicted key chunk tag →
      BlockFetched fetches key ⟨chunk, tag, steadyMillis now⟩)
    (fun _ _ _ h hput hs => storageStep_fresh h ht hput hs) (Guarded.of_forall fun a ha => ?_) hs hdrained
  obtain ⟨kv, hkv, rfl⟩ := List.mem_map.mp ha
  intro now evicted key chunk tag heq
  cases heq
  have hback : s.storage.putBack env newBlockSize = rebuilt := by
    simp only [DataCacheStorage.putBack, htake, ok_bind, hout]
    rfl
  exact h.recut (fun k e hke => (htaken k e hke).imp fun x hx => hx.1) (hnew kv hkv)
    (htimely kv (by rw [hback]; exact hkv))

end Invariant

variable {timeoutMillisec : Nat}

theorem FreshRun.call {s s' : ReaderRun} {a : StorageAct} (h : FreshRun timeoutMillisec s.fetches s.run)
    (ht : 0 < timeoutMillisec) (hput : ∀ now evicted key chunk tag, a = .put now evicted key chunk tag →
      BlockFetched s.fetches key ⟨chunk, tag, steadyMillis now⟩) (hs : s.call (.op a) = some s') :
    FreshRun timeoutMillisec s'.fetches s'.run := by
  obtain ⟨run, hrun, rfl⟩ := Option.map_eq_some_iff.mp hs
  exact storageStep_fresh h ht hput hrun

theorem readerStep_fresh {s s' : ReaderRun} {a : ReaderAct} (h : FreshRun timeoutMillisec s.fetches s.run)
    (ht : 0 < timeoutMillisec) (htimely : s.Timely a) (hs : readerStep s a = some s') :
    FreshRun timeoutMillisec s'.fetches s'.run := by
  have hcall : ∀ {a : StorageAct}, (∀ now evicted key chunk tag, a ≠ .put now evicted key chunk tag) →
      s.call (.op a) = some s' → FreshRun timeoutMillisec s'.fetches s'.run := fun hne hs =>
    h.call ht (fun now evicted key chunk tag he => absurd he (hne now evicted key chunk tag)) hs
  cases a with
  | lookUp now blockKey versionTag => exact hcall (fun _ _ _ _ _ he => by cases he) hs
  | fetch now blockKey bytes =>
    simp only [readerStep] at hs
    split at hs
    next hc =>
      cases hs
      obtain ⟨hclock, _, hpos, hlen, hbound⟩ := hc
      have hsub : s.fetches ⊆ s.fetches ++ [⟨now, blockKey, bytes, s.run.log.length⟩] :=
        List.subset_append_left _ _
      refine ⟨h.ok, h.timeout, fun k x hx => (h.past k x hx).trans (steadyMillis_mono hclock),
        fun k x hx => (h.fetched k x hx).mono hsub, fun f hf => ?_, fun j now' key tag data hj i hi => ?_⟩
      · rcases List.mem_append.mp hf with hf | hf
        · exact h.logged f hf
        · rw [List.mem_singleton.mp hf]
          exact ⟨⟨hpos, hlen, hbound⟩, Nat.le_refl _⟩
      · obtain ⟨f, hf, hb⟩ := h.served j now' key tag data hj i hi
        exact ⟨f, hsub hf, hb⟩
    next => cases hs
  | store i page now evicted versionTag =>
    simp only [readerStep] at hs
    split at hs
    next => cases hs
    next f hf =>
      refine h.call ht (fun now' evicted' key chunk tag he => ?_) hs
      cases he
      have hmem := List.mem_of_getElem? hf
      exact (h.logged f hmem).1.block hmem (htimely f hf) page versionTag
  | release i => exact hcall (fun _ _ _ _ _ he => by cases he) hs
  | clearCache => exact hcall (fun _ _ _ _ _ he => by cases he) hs
  | clearCacheFile hash fname => exact hcall (fun _ _ _ _ _ he => by cases he) hs
  | remap env newBlockSize =>
    simp only [readerStep] at hs
    split at hs
    next hn =>
      obtain ⟨run, hrun, rfl⟩ := Option.map_eq_some_iff.mp hs
      exact h.remap ht hn.1 hn.2 htimely hrun
    next => cases hs
  | evict objCacheKey => exact hcall (fun _ _ _ _ _ he => by cases he) hs

/-- **The timeout bounds staleness** in every run in which a `Put` always
comes in the millisecond its bytes were fetched in. -/
theorem served_within_timeout (mode : StorageMode) (maxEntries timeoutMillisec : Nat) (ht : 0 < timeoutMillisec)
    (policyOptions : PolicyStorageOptions) (storage : DataCacheStorage)
    (hbuild : buildInMemoryDataCacheStorage mode maxEntries timeoutMillisec policyOptions = .ok storage)
    (as : List ReaderAct) (htimely : Guarded readerStep ReaderRun.Timely ⟨{ storage }, []⟩ as) (s : ReaderRun)
    (hx : exec readerStep ⟨{ storage }, []⟩ as = some s) : ServesWithin timeoutMillisec s := by
  obtain ⟨hok, hn, htime⟩ := DataCacheStorage.build_spec hbuild
  have hnone : ∀ {k x} {P : Prop}, storage.resident k = some x → P := by
    intro k x P hx
    rw [hn k] at hx
    cases hx
  have h₀ : FreshRun timeoutMillisec [] { storage } := by
    refine ⟨hok, htime, fun k x => hnone, fun k x => hnone, fun f hf => ?_, fun j now key tag data hj => ?_⟩
    · cases hf
    · simp at hj
  exact (exec_guarded_invariant (I := fun s : ReaderRun => FreshRun timeoutMillisec s.fetches s.run)
    (fun _ _ _ h hg hs => readerStep_fresh h ht hg hs) htimely hx h₀).served

def remapAt (now : Nat) : RemapEnv := ⟨4096, .inserted, .inserted, fun _ => now, fun _ => now, fun _ => []⟩

/-- A block put at 0 and another version's block beside it put at 8 ms. -/
def mixedTags : List ReaderAct :=
  [ .fetch 0 ⟨"f", 4, 4⟩ [5, 6, 7, 8], .store 0 4096 0 [] "v1", .fetch 8000000 ⟨"f", 0, 4⟩ [1, 2, 3, 4]
  , .store 1 4096 8000000 [] "v2" ]

/-- Blocks of eight bytes would span both: only the later one is put back. -/
def mixedTagsRecut : List ReaderAct := mixedTags ++ [.remap (remapAt 8000000) 8, .lookUp 9000000 ⟨"f", 0, 4⟩ "v2"]

theorem served_within_timeout_extension :
    ∃ storage s, buildInMemoryDataCacheStorage .extension 0 10 ⟨0, .lru, []⟩ = .ok storage ∧
      exec readerStep ⟨{ storage }, []⟩ mixedTagsRecut = some s ∧
      s.run.log[4]? = some (.get 9000000 ⟨"f", 0, 4⟩ "v2" (some ⟨some [1, 2, 3, 4], 4, 4096⟩)) ∧
        ServesWithin 10 s := by
  obtain ⟨storage, hbuild, hend, hold, hboth, hback⟩ :
      ∃ storage, buildInMemoryDataCacheStorage .extension 0 10 ⟨0, .lru, []⟩ = .ok storage ∧
        (exec readerStep ⟨{ storage }, []⟩ mixedTagsRecut).map (·.run.log[4]?) =
          some (some (.get 9000000 ⟨"f", 0, 4⟩ "v2" (some ⟨some [1, 2, 3, 4], 4, 4096⟩))) ∧
        (exec readerStep ⟨{ storage }, []⟩ (mixedTags.take 1)).map (·.fetches[0]?.map (·.now)) = some (some 0) ∧
        (exec readerStep ⟨{ storage }, []⟩ (mixedTags.take 3)).map (·.fetches[1]?.map (·.now)) =
          some (some 8000000) ∧
        (exec readerStep ⟨{ storage }, []⟩ mixedTags).map
            (fun s => (s.run.storage.putBack (remapAt 8000000) 8, s.run.storage.resident ⟨"f", 0, 4⟩)) =
          some ([(⟨"f", 0, 4⟩, ⟨⟨some [1, 2, 3, 4], 4, 4096⟩, "v2"⟩)],
            some ⟨⟨some [1, 2, 3, 4], 4, 4096⟩, "v2", 8⟩) :=
    ⟨_, rfl, by decide +kernel, by decide +kernel, by decide +kernel, by decide +kernel⟩
  obtain ⟨s, hs, hlog⟩ := Option.map_eq_some_iff.mp hend
  refine ⟨storage, s, hbuild, hs, hlog,
    served_within_timeout .extension 0 10 (by decide) _ storage hbuild mixedTagsRecut ?_ s hs⟩
  refine guarded_append.mpr ⟨⟨trivial, fun s₁ h₁ => ⟨fun f hf => ?_, fun s₂ h₂ => ⟨trivial, fun s₃ h₃ =>
    ⟨fun f hf => ?_, fun _ _ => trivial⟩⟩⟩⟩, fun s₄ h₄ => ⟨fun kv hkv i y hy => ?_,
      fun _ _ => ⟨trivial, fun _ _ => trivial⟩⟩⟩
  · rw [show exec readerStep ⟨{ storage }, []⟩ (mixedTags.take 1) = some s₁ from exec_cons.mpr ⟨s₁, h₁, rfl⟩,
      Option.map_some, hf] at hold
    rw [show f.now = 0 from Option.some.inj (Option.some.inj hold)]
  · rw [show exec readerStep ⟨{ storage }, []⟩ (mixedTags.take 3) = some s₃ from
      exec_cons.mpr ⟨s₁, h₁, exec_cons.mpr ⟨s₂, h₂, exec_cons.mpr ⟨s₃, h₃, rfl⟩⟩⟩, Option.map_some, hf] at hboth
    rw [show f.now = 8000000 from Option.some.inj (Option.some.inj hboth)]
  · rw [h₄, Option.map_some] at hback
    obtain ⟨hputs, hheld⟩ := Prod.mk.inj (Option.some.inj hback)
    rw [hputs, List.mem_singleton] at hkv
    subst hkv
    have hi : i < 4 := (List.getElem?_eq_some_iff.mp hy).1
    exact ⟨_, _, hheld, Nat.le_refl _, rfl, Nat.zero_le _, by simpa using hi, by simpa using hy⟩

/-- A block fetched at 0 is put back at 8 ms and served at 15 ms. -/
def agedReads : List ReaderAct :=
  [ .lookUp 0 ⟨"f", 0, 2⟩ "", .fetch 0 ⟨"f", 0, 2⟩ [7, 8], .store 0 4096 0 [] "", .remap (remapAt 8000000) 1
  , .lookUp 15000000 ⟨"f", 0, 1⟩ "" ]

def AgedReadsFail (mode : StorageMode) : Prop :=
  ∃ storage s, buildInMemoryDataCacheStorage mode 0 10 ⟨0, .lru, []⟩ = .ok storage ∧
    exec readerStep ⟨{ storage }, []⟩ agedReads = some s ∧ ¬ServesWithin 10 s

theorem agedReads_fail (mode : StorageMode) : AgedReadsFail mode := by
  obtain ⟨storage, hbuild, hrun⟩ : ∃ storage, buildInMemoryDataCacheStorage mode 0 10 ⟨0, .lru, []⟩ =
    .ok storage ∧
      (exec readerStep ⟨{ storage }, []⟩ agedReads).map (fun s => (s.run.log[5]?, s.fetches)) =
        some (some (.get 15000000 ⟨"f", 0, 1⟩ "" (some ⟨some [7], 1, 4096⟩)), [⟨0, ⟨"f", 0, 2⟩, [7, 8], 1⟩]) := by
    cases mode with
    | extension => exact ⟨_, rfl, by decide +kernel⟩
    | policy => exact ⟨_, rfl, by decide +kernel⟩
    | object => exact ⟨_, rfl, by decide +kernel⟩
  obtain ⟨s, hs, hend⟩ := Option.map_eq_some_iff.mp hrun
  obtain ⟨hlog, hfetches⟩ := Prod.mk.inj hend
  refine ⟨storage, s, hbuild, hs, fun hserves => ?_⟩
  obtain ⟨f, hf, _, hage, _⟩ := hserves 5 _ _ _ _ hlog 0 (by decide)
  rw [hfetches, List.mem_singleton] at hf
  rw [hf] at hage
  exact absurd hage (by decide)

theorem served_after_timeout : AgedReadsFail .extension ∧ AgedReadsFail .policy ∧ AgedReadsFail .object :=
  ⟨agedReads_fail .extension, agedReads_fail .policy, agedReads_fail .object⟩

end ReadCacheFs
