/-
The memory a session's cached blocks take.

On the fixed grid an entry is at most one block, of as many pages as a block
of the size now set takes, and the extension's LRU cache has no more entries
than it was built for. So the blocks held in memory take at most the maximum
block count times the pages of a block (`memory_bounded`), also after reads
that throw and across changes of the block size, which cut every block anew.

Chunks that pinned blocks or reads in flight still point at are not counted,
and neither is the policy storage, which counts bytes itself.
-/
import Mathlib.Algebra.Order.BigOperators.Group.List
import ReadCacheFs.ChangingRemote

namespace ReadCacheFs

open Lib

/-! ## The number of entries -/

namespace SharedValueLruCache

variable {K V : Type} [Ord K] [Std.TransOrd K] [Std.LawfulEqOrd K] {c : SharedValueLruCache K V} {key : K}

/-- The list has a node for each entry. -/
theorem OK.size (h : c.OK) : c.lruList.size = c.entryMap.size := by
  have hnodup : c.entryMap.keys.Nodup := c.entryMap.distinct_keys.imp fun {a b} hab he => by simp [he] at hab
  have hperm : c.lruList.values.Perm c.entryMap.keys := by
    refine (List.perm_ext_iff_of_nodup (by simpa using h.keys_nodup) hnodup).mpr fun k => ?_
    have hmem := h.mem_keys (k := k)
    rw [List.map_id] at hmem
    rw [hmem, mem_keys]
    simp
  have hlen := hperm.length_eq
  rwa [NodeList.values, List.length_map, Std.TreeMap.length_keys] at hlen

omit [Std.LawfulEqOrd K] in
theorem deleteImpl_size (e : LruEntry V) : (c.deleteImpl key e).entryMap.size ≤ c.entryMap.size :=
  Std.TreeMap.size_erase_le

omit [Std.LawfulEqOrd K] in
theorem delete_size (c : SharedValueLruCache K V) (key : K) :
    (c.delete key).2.entryMap.size ≤ c.entryMap.size := by
  unfold delete
  split
  · exact deleteImpl_size _
  · exact Nat.le_refl _

omit [Std.LawfulEqOrd K] in
theorem get_size (c : SharedValueLruCache K V) (now : Nat) (key : K) :
    (c.get now key).2.entryMap.size ≤ c.entryMap.size := by
  unfold get
  split
  · exact Nat.le_refl _
  split
  · exact deleteImpl_size _
  · exact Nat.le_refl _

omit [Std.LawfulEqOrd K] in
theorem clearFrom_size (c : SharedValueLruCache K V) (startKey : K) (filter : K → Bool) :
    (c.clearFrom startKey filter).entryMap.size ≤ c.entryMap.size := by
  unfold clearFrom
  generalize c.keysFrom startKey filter = ks
  induction ks generalizing c with
  | nil => exact Nat.le_refl _
  | cons k ks ih => exact (ih _).trans (delete_size c k)

omit [Std.LawfulEqOrd K] in
theorem removeExisting_size (c : SharedValueLruCache K V) (key : K) :
    (c.removeExisting key).entryMap.size ≤ c.entryMap.size ∧
      (c.removeExisting key).maxEntries = c.maxEntries := by
  unfold removeExisting
  split
  · exact ⟨deleteImpl_size _, rfl⟩
  · exact ⟨Nat.le_refl _, rfl⟩

/-- One entry more than there may be is evicted. -/
theorem evictBack_size (h : c.OK) (hmax : 0 < c.maxEntries) (hsize : c.entryMap.size ≤ c.maxEntries + 1) :
    c.evictBack.entryMap.size ≤ c.maxEntries := by
  have hlist := h.size
  unfold evictBack
  split
  next hfull =>
    cases hb : c.lruList.back? with
    | none =>
      have hnil : c.lruList.nodes = [] := List.getLast?_eq_none_iff.mp hb
      simp [NodeList.size, hnil] at hfull
    | some back =>
      obtain ⟨node, staleKey⟩ := back
      have hget := h.get_of_mem (q := (node, staleKey)) (List.mem_of_getLast? hb)
      obtain ⟨e, he, _⟩ := Option.map_eq_some_iff.mp hget
      have hmem : c.entryMap.contains staleKey = true := by
        rw [Std.TreeMap.contains_eq_isSome_getElem?]
        exact Option.isSome_iff_exists.mpr ⟨e, he⟩
      dsimp only
      rw [Std.TreeMap.size_erase, if_pos hmem]
      omega
  next hroom => omega

theorem put_size (h : c.OK) (hmax : 0 < c.maxEntries) (hsize : c.entryMap.size ≤ c.maxEntries) (now : Nat)
    (key : K) (value : V) : (c.put now key value).entryMap.size ≤ c.maxEntries := by
  obtain ⟨h₁, hn, _⟩ := removeExisting_spec h key
  obtain ⟨hremoved, hlimit⟩ := removeExisting_size c key
  have hinsert : ((c.removeExisting key).insertFront now key value).entryMap.size ≤ c.entryMap.size + 1 :=
    Std.TreeMap.size_insert_le.trans (Nat.add_le_add_right hremoved 1)
  have hlimit' : ((c.removeExisting key).insertFront now key value).maxEntries = c.maxEntries := hlimit
  have hevict := evictBack_size (insertFront_spec h₁ hn now value).1 (by omega) (by omega)
  rwa [hlimit'] at hevict

end SharedValueLruCache

/-! ## Blocks that are bounded -/

/-- The pages `AllocatePageAlignedChunk` gives `n` bytes. -/
def roundUpToPage (page n : Nat) : Nat := (n + page - 1) / page * page

theorem roundUpToPage_of_dvd {page n : Nat} (hp : 0 < page) (h : page ∣ n) : roundUpToPage page n = n := by
  obtain ⟨m, rfl⟩ := h
  rw [roundUpToPage, Nat.add_sub_assoc hp, Nat.mul_add_div hp, Nat.div_eq_of_lt (by omega), Nat.add_zero,
    Nat.mul_comm]

theorem filledChunk_capacity_le {page n m : Nat} {bs : Bytes} (h : n ≤ m) :
    (filledChunk page n bs).capacity ≤ roundUpToPage page m := by
  rw [filledChunk, alignedCapacity]
  dsimp only
  split
  · exact Nat.zero_le _
  · exact (Nat.mod_le _ _).trans (Nat.mul_le_mul_right _ (Nat.div_le_div_right (by omega)))

namespace ExtensionStorage

/-- At most `limit` blocks, none of which takes more than `bound` bytes. -/
structure Bounded (limit bound : Nat) (s : ExtensionStorage) : Prop where
  ok : s.OK
  limited : 0 < s.lruCache.maxEntries ∧ s.lruCache.maxEntries ≤ limit
  count : s.lruCache.entryMap.size ≤ s.lruCache.maxEntries
  blocks : ∀ k x, s.resident k = some x → x.data.capacity ≤ bound

/-- The bytes allocated for the blocks held. -/
def heldBytes (s : ExtensionStorage) : Nat :=
  (s.keys.map fun k => ((s.resident k).map (·.data.capacity)).getD 0).sum

variable {s s' : ExtensionStorage} {limit bound : Nat}

theorem Bounded.heldBytes_le (h : s.Bounded limit bound) : s.heldBytes ≤ limit * bound := by
  have hkeys : s.keys.length ≤ limit := by
    rw [keys, SharedValueLruCache.keys, Std.TreeMap.length_keys]
    exact h.count.trans h.limited.2
  have hblock : ∀ n ∈ s.keys.map fun k => ((s.resident k).map (·.data.capacity)).getD 0, n ≤ bound := by
    intro n hn
    obtain ⟨k, _, rfl⟩ := List.mem_map.mp hn
    cases hk : s.resident k with
    | none => exact Nat.zero_le _
    | some x => exact h.blocks k x hk
  have hsum := List.sum_le_card_nsmul _ _ hblock
  rw [List.length_map, Nat.nsmul_eq_mul] at hsum
  exact hsum.trans (Nat.mul_le_mul_right _ hkeys)

/-- Nothing happens but that blocks go. -/
theorem Bounded.shrink (h : s.Bounded limit bound) (hok : s'.OK)
    (hheld : ∀ k x, s'.resident k = some x → s.resident k = some x)
    (hsize : s'.lruCache.entryMap.size ≤ s.lruCache.entryMap.size)
    (hmax : s'.lruCache.maxEntries = s.lruCache.maxEntries) : s'.Bounded limit bound :=
  ⟨hok, hmax ▸ h.limited, hmax ▸ hsize.trans h.count, fun k x hx => h.blocks k x (hheld k x hx)⟩

theorem Bounded.put (h : s.Bounded limit bound) (now : Nat) (key : InMemCacheBlock)
    {chunk : PageAlignedDataChunk} (hc : chunk.capacity ≤ bound) (versionTag : String) :
    (s.put now key chunk versionTag).Bounded limit bound := by
  obtain ⟨hok, hres⟩ := put_spec h.ok now key chunk versionTag
  have hmax : (s.put now key chunk versionTag).lruCache.maxEntries = s.lruCache.maxEntries :=
    SharedValueLruCache.put_maxEntries _ _ _ _
  refine ⟨hok, hmax ▸ h.limited, ?_, fun k x hx => ?_⟩
  · rw [hmax]
    exact SharedValueLruCache.put_size h.ok.lru h.limited.1 h.count _ _ _
  · rcases hres k x hx with ⟨_, rfl⟩ | ⟨_, hold⟩
    · exact hc
    · exact h.blocks k x hold

theorem get_lruCache (s : ExtensionStorage) (now : Nat) (key : InMemCacheBlock) (tag : String) :
    (s.get now key tag).2.lruCache.entryMap.size ≤ s.lruCache.entryMap.size ∧
      (s.get now key tag).2.lruCache.maxEntries = s.lruCache.maxEntries := by
  have hsize := SharedValueLruCache.get_size s.lruCache (steadyMillis now) key
  have hmax := SharedValueLruCache.get_maxEntries s.lruCache (steadyMillis now) key
  unfold get
  generalize s.lruCache.get (steadyMillis now) key = got at hsize hmax ⊢
  obtain ⟨_ | p, c⟩ := got
  · exact ⟨hsize, hmax⟩
  · dsimp only at hsize hmax ⊢
    split
    · exact ⟨hsize, hmax⟩
    split
    · exact ⟨(SharedValueLruCache.delete_size c key).trans hsize,
        (SharedValueLruCache.delete_maxEntries c key).trans hmax⟩
    · exact ⟨hsize, hmax⟩

theorem Bounded.new {maxEntries : Nat} (hmax : 0 < maxEntries ∧ maxEntries ≤ limit)
    (timeoutMillisec bound : Nat) :
    (newExtensionStorage maxEntries timeoutMillisec).Bounded limit bound := by
  obtain ⟨hok, hn⟩ := OK.new maxEntries timeoutMillisec
  refine ⟨hok, hmax, by simp [newExtensionStorage], fun k x hx => ?_⟩
  rw [hn k] at hx
  cases hx

/-- An emptied storage is bounded by anything. -/
theorem Bounded.take (h : s.Bounded limit bound) {clock : Nat → Nat} {result : List (InMemCacheBlock × Nat)}
    (ht : s.take clock = .ok (result, s')) (bound' : Nat) : s'.Bounded limit bound' := by
  obtain ⟨result', s'', htake, hok, hn, _⟩ := take_spec h.ok clock
  obtain ⟨_, rfl⟩ := Prod.mk.inj (Except.ok.inj (ht.symm.trans htake))
  obtain ⟨⟨_, c⟩, hc, he⟩ := except_map_eq_ok.mp ht
  obtain ⟨-, rfl⟩ := Prod.mk.inj he
  have hempty : c.entryMap = ∅ ∧ c.maxEntries = s.lruCache.maxEntries := by
    unfold SharedValueLruCache.take at hc
    dsimp only at hc
    split at hc
    · cases hc
      exact ⟨rfl, rfl⟩
    · cases hc
  refine ⟨hok, hempty.2 ▸ h.limited, by simp [hempty.1], fun k x hx => ?_⟩
  rw [hn k] at hx
  cases hx

end ExtensionStorage

namespace DataCacheStorage

/-- The extension's storage is bounded. -/
def Bounded (limit bound : Nat) : DataCacheStorage → Prop
  | .extension s => s.Bounded limit bound
  | .policy s => s.Routed
  | .object s => s.OK

variable {s s' : DataCacheStorage} {limit bound : Nat}

theorem Bounded.ok (h : s.Bounded limit bound) : s.OK := by
  cases s with
  | extension s => exact ExtensionStorage.Bounded.ok h
  | policy s => exact h
  | object s => exact h

theorem Bounded.built {mode : StorageMode} {maxEntries timeoutMillisec : Nat} {options : PolicyStorageOptions}
    (hs : buildInMemoryDataCacheStorage mode maxEntries timeoutMillisec options = .ok s)
    (hmax : 0 < maxEntries ∧ maxEntries ≤ limit) : s.Bounded limit bound := by
  have hok := (build_spec hs).1
  cases mode with
  | extension =>
    cases hs
    exact .new hmax timeoutMillisec bound
  | policy =>
    obtain ⟨t, _, rfl⟩ := except_map_eq_ok.mp hs
    exact hok
  | object =>
    cases hs
    exact hok

theorem Bounded.put (h : s.Bounded limit bound) {now : Nat} {evicted : List String} {key : InMemCacheBlock}
    {chunk : PageAlignedDataChunk} (hc : chunk.capacity ≤ bound) {versionTag : String}
    (hp : s.put now evicted key chunk versionTag = .ok s') : s'.Bounded limit bound := by
  have hok := (put_spec h.ok hp).1
  cases s with
  | extension s =>
    cases hp
    exact ExtensionStorage.Bounded.put h now key hc versionTag
  | policy s =>
    cases hp
    exact hok
  | object s =>
    obtain ⟨t, _, rfl⟩ := except_map_eq_ok.mp hp
    exact hok

theorem Bounded.get (h : s.Bounded limit bound) (now : Nat) (key : InMemCacheBlock) (tag : String) :
    (s.get now key tag).2.Bounded limit bound := by
  have hl := (get_spec h.ok now key tag).1
  cases s with
  | extension s =>
    obtain ⟨hsize, hmax⟩ := s.get_lruCache now key tag
    exact ExtensionStorage.Bounded.shrink h hl.ok hl.held hsize hmax
  | policy s => exact hl.ok
  | object s => exact hl.ok

theorem Bounded.release (h : s.Bounded limit bound) (p : Nat) : (s.release p).Bounded limit bound := by
  have hok := (release_spec h.ok p).ok
  cases s with
  | extension s => exact h
  | policy s => exact h
  | object s => exact hok

theorem Bounded.evict (h : s.Bounded limit bound) (objCacheKey : String) :
    (s.evict objCacheKey).Bounded limit bound := by
  have hok := (evict_spec h.ok objCacheKey).ok
  cases s with
  | extension s => exact h
  | policy s => exact h
  | object s => exact hok

theorem Bounded.clear (h : s.Bounded limit bound) : s.clear.Bounded limit bound := by
  have hl := (clear_spec h.ok).1
  cases s with
  | extension s => exact ExtensionStorage.Bounded.shrink h hl.ok hl.held (Nat.zero_le _) rfl
  | policy s => exact hl.ok
  | object s => exact hl.ok

theorem Bounded.clearFile (h : s.Bounded limit bound) (hash : PolicyHash) (fname : String) :
    (s.clearFile hash fname).Bounded limit bound := by
  have hl := (clearFile_spec h.ok hash fname).1
  cases s with
  | extension s =>
    exact ExtensionStorage.Bounded.shrink h hl.ok hl.held (SharedValueLruCache.clearFrom_size _ _ _)
      (SharedValueLruCache.clearFrom_maxEntries _ _ _)
  | policy s => exact hl.ok
  | object s => exact hl.ok

end DataCacheStorage

/-! ## The remap -/

section Remap

variable {page newBlockSize : Nat} {fname : String}

/-- Every block is within a new one. -/
def BlocksWithin (page newBlockSize : Nat) (out : List (InMemCacheBlock × InMemCacheDataEntry)) : Prop :=
  ∀ kv ∈ out, kv.2.data.capacity ≤ roundUpToPage page newBlockSize

theorem BlocksWithin.append {out more : List (InMemCacheBlock × InMemCacheDataEntry)}
    (h : BlocksWithin page newBlockSize out) (h' : BlocksWithin page newBlockSize more) :
    BlocksWithin page newBlockSize (out ++ more) :=
  fun kv hkv => (List.mem_append.mp hkv).elim (h kv) (h' kv)

theorem BlocksWithin.cons {blk : InMemCacheBlock × InMemCacheDataEntry}
    {out : List (InMemCacheBlock × InMemCacheDataEntry)} {run : Run} {b len : Nat}
    (hb : emitBlock page fname run b len = .ok blk) (hlen : len ≤ newBlockSize)
    (h : BlocksWithin page newBlockSize out) :
    BlocksWithin page newBlockSize (blk :: out) := by
  obtain ⟨bs, _, rfl⟩ := except_map_eq_ok.mp hb
  intro kv hkv
  rcases List.mem_cons.mp hkv with rfl | hkv
  · exact filledChunk_capacity_le hlen
  · exact h kv hkv

theorem BlocksWithin.nil : BlocksWithin page newBlockSize [] := fun _ h => absurd h List.not_mem_nil

theorem emitWholeBlocks_within {run : Run} :
    ∀ {fuel b : Nat} {out : List (InMemCacheBlock × InMemCacheDataEntry)},
    emitWholeBlocks page fname run newBlockSize fuel b = .ok out → BlocksWithin page newBlockSize out
  | 0, _, _, h => by cases h
  | fuel + 1, b, out, h => by
    rw [emitWholeBlocks] at h
    split at h
    · obtain ⟨blk, hblk, h⟩ := except_bind_eq_ok.mp h
      obtain ⟨rest, hrest, h⟩ := except_bind_eq_ok.mp h
      cases h
      exact (emitWholeBlocks_within hrest).cons hblk (Nat.le_refl _)
    · cases h
      exact .nil

theorem emitPieces_within {run : Run} {emitEnd : Nat} :
    ∀ {fuel b : Nat} {out : List (InMemCacheBlock × InMemCacheDataEntry)},
      emitPieces page fname run newBlockSize emitEnd fuel b = .ok out → BlocksWithin page newBlockSize out
  | 0, _, _, h => by cases h
  | fuel + 1, b, out, h => by
    rw [emitPieces] at h
    split at h
    · obtain ⟨blk, hblk, h⟩ := except_bind_eq_ok.mp h
      obtain ⟨rest, hrest, h⟩ := except_bind_eq_ok.mp h
      cases h
      exact (emitPieces_within hrest).cons hblk (Nat.min_le_left _ _)
    · cases h
      exact .nil

theorem flushRun_within {fileSize : Option Nat} {run : Option Run}
    {out : List (InMemCacheBlock × InMemCacheDataEntry)}
    (h : flushRun page fname newBlockSize fileSize run = .ok out) : BlocksWithin page newBlockSize out := by
  cases run with
  | none =>
    cases h
    exact .nil
  | some run =>
    rw [flushRun, emitRunOnNewGrid] at h
    split at h
    · cases h
      exact .nil
    split at h
    · exact emitWholeBlocks_within h
    · exact emitPieces_within h

theorem remapSlices_within {fileSize : Option Nat} :
    ∀ {slices : List (Nat × CachedSlice)} {run : Option Run} {out : List (InMemCacheBlock × InMemCacheDataEntry)},
      remapSlices page fname newBlockSize fileSize slices run = .ok out → BlocksWithin page newBlockSize out
  | [], _, _, h => flushRun_within h
  | (s, sl) :: rest, run, out, h => by
    rw [remapSlices] at h
    split at h
    · exact remapSlices_within h
    split at h
    · exact remapSlices_within h
    split at h
    · exact remapSlices_within h
    split at h
    · exact remapSlices_within h
    split at h
    · exact remapSlices_within h
    · obtain ⟨flushed, hflushed, h⟩ := except_bind_eq_ok.mp h
      obtain ⟨more, hmore, h⟩ := except_bind_eq_ok.mp h
      cases h
      exact (flushRun_within hflushed).append (remapSlices_within hmore)

theorem remapFiles_within {sizes : AList fun _ : String => Nat} :
    ∀ {files : List (Σ _ : String, Std.TreeMap Nat CachedSlice)}
      {out : List (InMemCacheBlock × InMemCacheDataEntry)},
      remapFiles page newBlockSize sizes files = .ok out → BlocksWithin page newBlockSize out
  | [], _, h => by
    cases h
    exact .nil
  | ⟨fname, blkMap⟩ :: files, out, h => by
    rw [remapFiles] at h
    obtain ⟨first, hfirst, h⟩ := except_bind_eq_ok.mp h
    obtain ⟨more, hmore, h⟩ := except_bind_eq_ok.mp h
    cases h
    exact (remapSlices_within hfirst).append (remapFiles_within hmore)

/-- What the remap returns is within the new block size, whatever was taken. -/
theorem remapInMemCacheEntries_within {hash : HashOrder (Σ _ : String, Std.TreeMap Nat CachedSlice)}
    {taken : TakenEntries} {sizes : AList fun _ : String => Nat}
    {out : List (InMemCacheBlock × InMemCacheDataEntry)}
    (h : remapInMemCacheEntries page hash taken newBlockSize sizes = .ok out) :
    BlocksWithin page newBlockSize out := by
  rw [remapInMemCacheEntries] at h
  split at h
  · cases h
    exact .nil
  · obtain ⟨byFile, _, h⟩ := except_bind_eq_ok.mp h
    exact remapFiles_within h

/-- A storage is bounded by the new blocks after a remap, whatever its blocks were. -/
theorem DataCacheStorage.Bounded.remap {s s' : DataCacheStorage} {limit bound : Nat} (h : s.Bounded limit bound)
    {env : RemapEnv} (hr : s.remapForNewBlockSize env newBlockSize = .ok s') :
    s'.Bounded limit (roundUpToPage env.page newBlockSize) := by
  rw [remapForNewBlockSize] at hr
  obtain ⟨⟨taken, s₁⟩, htake, hr⟩ := except_bind_eq_ok.mp hr
  obtain ⟨rebuilt, hrebuilt, hput⟩ := except_bind_eq_ok.mp hr
  have hwithin := remapInMemCacheEntries_within hrebuilt
  have h₁ : s₁.Bounded limit (roundUpToPage env.page newBlockSize) := by
    obtain ⟨_, _, htake', hl, _⟩ := take_spec h.ok env.clock env.policyHash
    obtain ⟨_, rfl⟩ := Prod.mk.inj (Except.ok.inj (htake.symm.trans htake'))
    cases s with
    | extension s =>
      obtain ⟨⟨_, t⟩, ht, he⟩ := except_map_eq_ok.mp htake
      obtain ⟨-, rfl⟩ := Prod.mk.inj he
      exact ExtensionStorage.Bounded.take h ht _
    | policy s =>
      cases htake
      exact hl.ok
    | object s =>
      cases htake
      exact hl.ok
  exact foldlM_mem_invariant (fun s kv s' hkv hs hp => hs.put (hwithin kv hkv) hp) hput h₁

end Remap

/-! ## Reads -/

/-- The tasks of chunks in `P` keep `I`, returning or not. -/
structure KeepsTask {σ : Type} (P : CacheReadChunk → Prop) (I : σ → Prop)
    (task : TaskEnv → CacheReadChunk → σ → Except Fault ((Nat × Bytes) × σ))
    (lookUp : TaskEnv → CacheReadChunk → σ → σ) :
    Prop where
  task : ∀ {env c s copied s'}, P c → I s → task env c s = .ok (copied, s') → I s'
  lookUp : ∀ {env c s}, I s → I (lookUp env c s)

section Tasks

variable {σ : Type} {P : CacheReadChunk → Prop} {I : σ → Prop}
  {task : TaskEnv → CacheReadChunk → σ → Except Fault ((Nat × Bytes) × σ)}
  {lookUp : TaskEnv → CacheReadChunk → σ → σ}

theorem KeepsTask.runTasks (ht : KeepsTask P I task lookUp) {env : ReadEnv} {chunks : List CacheReadChunk}
    (hP : ∀ c ∈ chunks, P c) {buffer : Bytes} {s : σ} {r : Bytes × σ}
    (h : runTasks task env chunks buffer s = .ok r) (hs : I s) : I r.2 := by
  rw [runTasks_eq] at h
  refine foldlM_mem_invariant (I := fun bs : Bytes × σ => I bs.2) (fun bs ci bs' hci hbs hok => ?_) h hs
  obtain ⟨ws, hws, rfl⟩ := except_map_eq_ok.mp hok
  exact ht.task (hP ci.1 ((env.order.perm chunks).mem_iff.mp (List.fst_mem_of_mem_zipIdx hci))) hbs hws

theorem KeepsTask.leftByTasks (ht : KeepsTask P I task lookUp) (env : ReadEnv) (fates : Nat → TaskFate)
    {chunks : List CacheReadChunk} (hP : ∀ c ∈ chunks, P c) {s : σ} (hs : I s) :
    I (leftByTasks task lookUp env fates chunks s) := by
  refine leftByTasks_invariant (fun c hc i fate s hs => ?_) fates hs
  cases fate with
  | dropped => exact hs
  | threw => exact ht.lookUp hs
  | ran =>
    cases hok : task (env.task i) c s with
    | ok r =>
      simp only [TaskFate.leave, hok]
      exact ht.task (hP c hc) hs hok
    | error fault =>
      simp only [TaskFate.leave, hok]
      exact ht.lookUp hs

end Tasks

/-- A chunk of one block at most. -/
theorem gridLoop_chunkSize_le {info : ChunkAlignmentInfo} {n block fileSize : Nat} :
    ∀ {fuel io : Nat} {st st' : GridState}, gridLoop info n block fileSize fuel io st = .ok st' →
      (∀ c ∈ st.chunks, c.chunkSize ≤ block) → ∀ c ∈ st'.chunks, c.chunkSize ≤ block
  | 0, _, _, _, h, _ => by cases h
  | fuel + 1, io, st, st', h, hst => by
    rw [gridLoop] at h
    split at h
    · refine gridLoop_chunkSize_le h fun c hc => ?_
      unfold gridStep at hc
      split at hc
      · exact hst c hc
      · dsimp only at hc
        rcases List.mem_append.mp hc with hc | hc
        · exact hst c hc
        · obtain rfl := List.mem_singleton.mp hc
          dsimp only
          split
          · exact Nat.min_le_left _ _
          split
          · exact Nat.le_refl _
          split
          · exact Nat.min_le_left _ _
          · exact Nat.le_refl _
    · cases h
      exact hst

theorem fixedGridChunks_chunkSize_le {start n block fileSize : Nat} {grid : GridState}
    (h : fixedGridChunks start n block fileSize = .ok grid) : ∀ c ∈ grid.chunks, c.chunkSize ≤ block :=
  gridLoop_chunkSize_le h fun _ hc => absurd hc List.not_mem_nil

variable {w : World} {config : InstanceConfig} {path tag : String} {limit block : Nat}

theorem fetch_capacity_le {c : CacheReadChunk} (hc : c.chunkSize ≤ block) {content : PageAlignedDataChunk}
    (h : w.fetch path c = .ok content) : content.capacity ≤ roundUpToPage w.page block := by
  obtain ⟨bs, _, rfl⟩ := except_map_eq_ok.mp h
  exact filledChunk_capacity_le hc

theorem LocalFiles.readLocalCacheFile_capacity {files files' : LocalFiles} {dest : String} {chunkSize : Nat}
    {content : PageAlignedDataChunk}
    (h : files.readLocalCacheFile w dest chunkSize tag = .ok (some content, files')) :
    content.capacity ≤ (filledChunk w.page chunkSize []).capacity := by
  unfold LocalFiles.readLocalCacheFile at h
  split at h
  · cases h
  split at h
  · cases h
  split at h
  · cases h
  · cases h
    exact Nat.le_refl _

/-- The storage of a reader, once it is built, is bounded. -/
def StorageBounded (limit bound : Nat) (storage : Option DataCacheStorage) : Prop :=
  ∀ s, storage = some s → s.Bounded limit bound

theorem StorageBounded.none {bound : Nat} : StorageBounded limit bound none := by
  intro s hs
  cases hs

theorem StorageBounded.some {s : DataCacheStorage} {bound : Nat} (h : s.Bounded limit bound) :
    StorageBounded limit bound (some s) :=
  fun _ hs => Option.some.inj hs ▸ h

theorem StorageBounded.map {storage : Option DataCacheStorage} {bound : Nat}
    (h : StorageBounded limit bound storage) {f : DataCacheStorage → DataCacheStorage}
    (hf : ∀ s : DataCacheStorage, s.Bounded limit bound → (f s).Bounded limit bound) :
    StorageBounded limit bound (storage.map f) := by
  intro s hs
  obtain ⟨s₀, h₀, rfl⟩ := Option.map_eq_some_iff.mp hs
  exact hf s₀ (h s₀ h₀)

namespace InMemoryCacheReader

theorem keepsTask : KeepsTask (fun c => c.chunkSize ≤ block)
    (DataCacheStorage.Bounded limit (roundUpToPage w.page block)) (processCacheReadChunk w path tag)
      (lookUp path tag) where
  task {env c s copied s'} hc hs h := by
    have hget := hs.get env.getNow (c.blockKey path) tag
    unfold processCacheReadChunk at h
    dsimp only at h
    generalize s.get env.getNow (c.blockKey path) tag = got at hget h
    obtain ⟨_ | pinned, storage⟩ := got
    · obtain ⟨content, hfetch, h⟩ := except_bind_eq_ok.mp h
      obtain ⟨copied', _, h⟩ := except_bind_eq_ok.mp h
      obtain ⟨storage', hput, h⟩ := except_bind_eq_ok.mp h
      cases h
      exact hget.put (fetch_capacity_le hc hfetch) hput
    · obtain ⟨copied', _, h⟩ := except_bind_eq_ok.mp h
      cases h
      exact hget.release pinned
  lookUp {env c s} hs := by
    have hget := hs.get env.getNow (c.blockKey path) tag
    unfold lookUp
    generalize s.get env.getNow (c.blockKey path) tag = got at hget ⊢
    obtain ⟨_ | pinned, storage⟩ := got
    · exact hget
    · exact hget.release pinned

theorem initStorage_bounded {bound : Nat}
    (hmax : 0 < config.maxInMemCacheBlockCount ∧ config.maxInMemCacheBlockCount ≤ limit)
    {storage : Option DataCacheStorage} (hs : StorageBounded limit bound storage) {s : DataCacheStorage}
    (h : initStorage config storage = .ok s) : s.Bounded limit bound := by
  cases storage with
  | some s' =>
    cases h
    exact hs s rfl
  | none => exact .built h hmax

/-- On the fixed grid. -/
theorem cutRequest_chunkSize_le (hfixed : config.chunking = .fixed) {layouts : Layouts} {start n fileSize : Nat}
    {chunks : List CacheReadChunk} (h : cutRequest config path layouts start n fileSize = .ok chunks) :
    ∀ c ∈ chunks, c.chunkSize ≤ config.cacheBlockSize := by
  have hno : ¬(config.chunking = .columnChunk ∧ layouts.hasLayout path = true) := by simp [hfixed]
  unfold cutRequest at h
  dsimp only at h
  rw [if_neg hno, schedule, if_pos rfl] at h
  obtain ⟨grid, hgrid, rfl⟩ := except_map_eq_ok.mp h
  exact fixedGridChunks_chunkSize_le hgrid

theorem readAndCache_bounded (hfixed : config.chunking = .fixed)
    (hmax : 0 < config.maxInMemCacheBlockCount ∧ config.maxInMemCacheBlockCount ≤ limit) {layouts : Layouts}
    {env : ReadEnv} {buffer : Bytes} {start n fileSize : Nat} {storage : Option DataCacheStorage}
    (hs : StorageBounded limit (roundUpToPage w.page config.cacheBlockSize) storage)
    {r : Bytes × Option DataCacheStorage}
    (h : readAndCache w config path layouts env buffer start n fileSize storage = .ok r) :
    StorageBounded limit (roundUpToPage w.page config.cacheBlockSize) r.2 := by
  rw [readAndCache] at h
  split at h
  · cases h
    exact hs
  · obtain ⟨s, hinit, h⟩ := except_bind_eq_ok.mp h
    obtain ⟨chunks, hcut, h⟩ := except_bind_eq_ok.mp h
    obtain ⟨⟨buffer', s'⟩, hrun, h⟩ := except_bind_eq_ok.mp h
    cases h
    exact .some (keepsTask.runTasks (cutRequest_chunkSize_le hfixed hcut) hrun
      (initStorage_bounded hmax hs hinit))

theorem afterThrow_bounded (hfixed : config.chunking = .fixed)
    (hmax : 0 < config.maxInMemCacheBlockCount ∧ config.maxInMemCacheBlockCount ≤ limit) (layouts : Layouts)
    (env : ReadEnv) (fates : Nat → TaskFate) (start n fileSize : Nat) {storage : Option DataCacheStorage}
    (hs : StorageBounded limit (roundUpToPage w.page config.cacheBlockSize) storage) :
    StorageBounded limit (roundUpToPage w.page config.cacheBlockSize)
      (afterThrow w config path layouts env fates start n fileSize storage) := by
  unfold afterThrow
  split
  · exact hs
  split
  · exact hs
  next s hinit =>
    have hinit := initStorage_bounded hmax hs hinit
    split
    · exact .some hinit
    next chunks hcut => exact .some (keepsTask.leftByTasks env fates (cutRequest_chunkSize_le hfixed hcut) hinit)

end InMemoryCacheReader

/-! ## The in-memory layer of the disk reader -/

namespace DiskCacheReader

/-- Its in-memory layer is bounded. -/
def MemBounded (limit bound : Nat) (reader : DiskCacheReader) : Prop :=
  StorageBounded limit bound reader.inMemStorage

variable {reader : DiskCacheReader} {bound : Nat}

theorem MemBounded.memGet (h : reader.MemBounded limit bound) (now : Nat) (key : InMemCacheBlock) (tag : String) :
    (reader.memGet now key tag).2.MemBounded limit bound := by
  unfold DiskCacheReader.memGet
  split
  · exact h
  next storage hs =>
    have hget := (h storage hs).get now key tag
    generalize storage.get now key tag = got at hget ⊢
    obtain ⟨_ | pinned, storage'⟩ := got
    · exact StorageBounded.some hget
    · exact StorageBounded.some (hget.release pinned)

theorem MemBounded.memPut (h : reader.MemBounded limit bound) {env : TaskEnv} {key : InMemCacheBlock}
    {content : PageAlignedDataChunk} (hc : content.capacity ≤ bound) {reader' : DiskCacheReader}
    (hp : reader.memPut env key content tag = .ok reader') : reader'.MemBounded limit bound := by
  unfold DiskCacheReader.memPut at hp
  split at hp
  · cases hp
    exact h
  next storage hs =>
    obtain ⟨storage', hput, rfl⟩ := except_map_eq_ok.mp hp
    exact StorageBounded.some ((h storage hs).put hc hput)

theorem MemBounded.storeFetched (h : reader.MemBounded limit bound) (config : InstanceConfig) (env : TaskEnv)
    (dest : String) (key : InMemCacheBlock) {content : PageAlignedDataChunk} (hc : content.capacity ≤ bound) :
    (reader.storeFetched config env dest key content tag).MemBounded limit bound := by
  obtain ⟨files, accessMaps, _, hleft | hput, _⟩ := storeFetched_spec config reader env dest key content tag
  · rw [hleft]
    exact h
  · have hstored : MemBounded limit bound { reader with files, accessMaps } := h
    exact hstored.memPut hc hput

variable {info : RemoteFileCachePathInfo}

theorem keepsTask : KeepsTask (fun c => c.chunkSize ≤ block) (MemBounded limit (roundUpToPage w.page block))
    (processCacheReadChunk w config path tag info) (lookUp w config path tag info) where
  task {env c s copied s'} hc hs h := by
    obtain ⟨found, r, hget, hcases⟩ := processCacheReadChunk_cases h
    have hremoved : MemBounded limit (roundUpToPage w.page block)
        { s with files := s.files.remove env.removed } := hs
    have hr : r.MemBounded limit (roundUpToPage w.page block) := by
      have hfound := hremoved.memGet env.getNow (c.blockKey path) tag
      rwa [hget] at hfound
    obtain rfl | ⟨_, _, files, accessMaps, hread, _, hput⟩ | ⟨_, _, files, hfetch, rfl⟩ := hcases
    · exact hr
    · have hcapacity := (LocalFiles.readLocalCacheFile_capacity hread).trans (filledChunk_capacity_le hc)
      have hrecorded : MemBounded limit (roundUpToPage w.page block) { r with files, accessMaps } := hr
      exact hrecorded.memPut hcapacity hput
    · have hfiles : MemBounded limit (roundUpToPage w.page block) { r with files } := hr
      exact hfiles.storeFetched config env _ _ (fetch_capacity_le hc hfetch)
  lookUp {env c s} hs := by
    have hremoved : MemBounded limit (roundUpToPage w.page block)
        { s with files := s.files.remove env.removed } := hs
    have hget := hremoved.memGet env.getNow (c.blockKey path) tag
    unfold lookUp
    dsimp only
    split
    · exact hs
    · generalize memGet { s with files := s.files.remove env.removed } env.getNow (c.blockKey path) tag =
        got at hget ⊢
      obtain ⟨_ | pinned, reader⟩ := got
      · dsimp only
        split
        · exact hget
        split
        · exact hget
        · exact hget
        next files _ =>
          obtain ⟨_, hmaps, _⟩ := recordAccess_spec config { reader with files } env _
          rw [hmaps]
          exact hget
      · exact hget

theorem MemBounded.init (h : reader.MemBounded limit bound)
    (hmax : 0 < config.diskReaderMaxMemCacheBlockCount ∧ config.diskReaderMaxMemCacheBlockCount ≤ limit) :
    (reader.init config).MemBounded limit bound := by
  unfold DiskCacheReader.init
  split
  · exact h
  · intro s hs
    dsimp only at hs
    split at hs
    · obtain rfl := Option.some.inj hs
      obtain ⟨m, hm⟩ := DataCacheStorage.buildPlainStorage_built config.inMemCacheStorage
        config.diskReaderMaxMemCacheBlockCount config.diskReaderMaxMemCacheTimeoutMillisec
      exact .built hm hmax
    · cases hs

theorem readAndCache_bounded
    (hmax : 0 < config.diskReaderMaxMemCacheBlockCount ∧ config.diskReaderMaxMemCacheBlockCount ≤ limit)
    {env : ReadEnv} {buffer : Bytes} {start n fileSize : Nat}
    (hs : reader.MemBounded limit (roundUpToPage w.page config.cacheBlockSize))
    {r : Bytes × DiskCacheReader}
    (h : readAndCache w config path env buffer start n fileSize reader = .ok r) :
    r.2.MemBounded limit (roundUpToPage w.page config.cacheBlockSize) := by
  rw [readAndCache] at h
  split at h
  · cases h
    exact hs
  · obtain ⟨info, _, h⟩ := except_bind_eq_ok.mp h
    obtain ⟨grid, hgrid, h⟩ := except_bind_eq_ok.mp h
    exact keepsTask.runTasks (fixedGridChunks_chunkSize_le hgrid) h (hs.init hmax)

theorem afterThrow_bounded
    (hmax : 0 < config.diskReaderMaxMemCacheBlockCount ∧ config.diskReaderMaxMemCacheBlockCount ≤ limit)
    (env : ReadEnv) (fates : Nat → TaskFate) (start n fileSize : Nat)
    (hs : reader.MemBounded limit (roundUpToPage w.page config.cacheBlockSize)) :
    (afterThrow w config path env fates start n fileSize reader).MemBounded limit
      (roundUpToPage w.page config.cacheBlockSize) := by
  have hinit := MemBounded.init hs hmax
  unfold afterThrow
  split
  · exact hs
  · dsimp only
    split
    · exact hinit
    split
    · exact hinit
    next grid hgrid => exact keepsTask.leftByTasks env fates (fixedGridChunks_chunkSize_le hgrid) hinit

end DiskCacheReader

/-! ## Sessions -/

namespace CacheFileSystem

/-- Fixed chunking, and no storage without a limit or with one past those given. -/
structure Limits (inMemLimit diskLimit : Nat) (config : InstanceConfig) : Prop where
  fixed : config.chunking = .fixed
  inMem : 0 < config.maxInMemCacheBlockCount ∧ config.maxInMemCacheBlockCount ≤ inMemLimit
  disk : 0 < config.diskReaderMaxMemCacheBlockCount ∧ config.diskReaderMaxMemCacheBlockCount ≤ diskLimit

/-- Both storages are bounded by blocks of the size now set. -/
structure Bounded (page inMemLimit diskLimit : Nat) (fs : CacheFileSystem) : Prop where
  limits : Limits inMemLimit diskLimit fs.config
  storage : StorageBounded inMemLimit (roundUpToPage page fs.config.cacheBlockSize) fs.inMemStorage
  mem : fs.diskReader.MemBounded diskLimit (roundUpToPage page fs.config.cacheBlockSize)

variable {fs fs' : CacheFileSystem} {inMemLimit diskLimit : Nat}

/-- Some operations leave the settings and both storages as they are. -/
theorem Bounded.of_eq {page : Nat} (h : fs.Bounded page inMemLimit diskLimit)
    (hconfig : fs'.config = fs.config) (hstorage : fs'.inMemStorage = fs.inMemStorage)
    (hmem : fs'.diskReader.inMemStorage = fs.diskReader.inMemStorage) :
    fs'.Bounded page inMemLimit diskLimit := by
  refine ⟨hconfig ▸ h.limits, ?_, ?_⟩
  · rw [hconfig, hstorage]
    exact h.storage
  · rw [DiskCacheReader.MemBounded, hconfig, hmem]
    exact h.mem

theorem getFileSize_eq (w : World) (env : ReadEnv) (path : String) (fs : CacheFileSystem) :
    ∃ metadataCache, (fs.getFileSize w env path).2 = { fs with metadataCache } := by
  unfold getFileSize
  split
  · exact ⟨fs.metadataCache, rfl⟩
  split
  · exact ⟨_, rfl⟩
  · exact ⟨_, rfl⟩

theorem Bounded.readAndCache (h : fs.Bounded w.page inMemLimit diskLimit) {env : ReadEnv} {buffer : Bytes}
    {location n fileSize : Nat} {r : Bytes × CacheFileSystem}
    (hr : fs.readAndCache w env path buffer location n fileSize = .ok r) :
    r.2.Bounded w.page inMemLimit diskLimit := by
  unfold CacheFileSystem.readAndCache at hr
  split at hr
  · obtain ⟨_, _, rfl⟩ := except_map_eq_ok.mp hr
    exact h
  · obtain ⟨r', hread, rfl⟩ := except_map_eq_ok.mp hr
    exact { h with
      storage := InMemoryCacheReader.readAndCache_bounded h.limits.fixed h.limits.inMem h.storage hread }
  · obtain ⟨r', hread, rfl⟩ := except_map_eq_ok.mp hr
    exact { h with mem := DiskCacheReader.readAndCache_bounded h.limits.disk h.mem hread }

theorem Bounded.readHandle (h : fs.Bounded w.page inMemLimit diskLimit) {env : ReadEnv} {buffer : Bytes}
    {nrBytes location : Nat} {r : Nat × CacheFileSystem}
    (hr : fs.readHandle w env path buffer nrBytes location = .ok r) :
    r.2.Bounded w.page inMemLimit diskLimit := by
  obtain ⟨⟨returned, fs'⟩, hread, rfl⟩ := except_map_eq_ok.mp hr
  suffices h' : fs'.Bounded w.page inMemLimit diskLimit from { h' with }
  obtain ⟨metadataCache, hstat⟩ := getFileSize_eq w env path fs
  have h₁ : Bounded w.page inMemLimit diskLimit { fs with metadataCache } := h.of_eq rfl rfl rfl
  rw [readImpl] at hread
  generalize fs.getFileSize w env path = stat at hstat hread
  obtain ⟨fileSize, fs₁⟩ := stat
  obtain rfl : fs₁ = { fs with metadataCache } := hstat
  dsimp only at hread
  split at hread
  · cases hread
    exact h₁
  split at hread
  · obtain ⟨_, _, he⟩ := except_map_eq_ok.mp hread
    cases he
    exact h₁
  · obtain ⟨r, hgot, he⟩ := except_map_eq_ok.mp hread
    cases he
    exact h₁.readAndCache hgot

theorem Bounded.afterFailedRead (h : fs.Bounded w.page inMemLimit diskLimit) (env : ReadEnv)
    (fates : Nat → TaskFate) (path : String) (nrBytes location : Nat) :
    (fs.afterFailedRead w env fates path nrBytes location).Bounded w.page inMemLimit diskLimit := by
  obtain ⟨metadataCache, hstat⟩ := getFileSize_eq w env path fs
  have h₁ : Bounded w.page inMemLimit diskLimit { fs with metadataCache } := h.of_eq rfl rfl rfl
  unfold CacheFileSystem.afterFailedRead
  generalize fs.getFileSize w env path = stat at hstat ⊢
  obtain ⟨fileSize, fs₁⟩ := stat
  obtain rfl : fs₁ = { fs with metadataCache } := hstat
  dsimp only
  split
  · exact h₁
  split
  · exact h₁
  · exact { h₁ with
      storage := InMemoryCacheReader.afterThrow_bounded h.limits.fixed h.limits.inMem _ env fates _ _ _ h.storage }
  · exact { h₁ with mem := DiskCacheReader.afterThrow_bounded h.limits.disk env fates _ _ _ h.mem }

/-- Both storages are cut anew. -/
theorem Bounded.remapInMemoryDataCaches {page : Nat} (h : fs.Bounded page inMemLimit diskLimit)
    {newBlockSize : Nat} {inMemEnv diskEnv : RemapEnv} (hpages : inMemEnv.page = page ∧ diskEnv.page = page)
    (hr : fs.remapInMemoryDataCaches newBlockSize inMemEnv diskEnv = .ok fs') :
    fs'.config = fs.config ∧ StorageBounded inMemLimit (roundUpToPage page newBlockSize) fs'.inMemStorage ∧
      fs'.diskReader.MemBounded diskLimit (roundUpToPage page newBlockSize) := by
  have hdisk : ∀ diskReader, fs.diskReader.remapInMemoryDataBlocksForNewBlockSize diskEnv newBlockSize =
    .ok diskReader →
      diskReader.MemBounded diskLimit (roundUpToPage page newBlockSize) := by
    intro diskReader hok
    unfold DiskCacheReader.remapInMemoryDataBlocksForNewBlockSize at hok
    split at hok
    next hs =>
      cases hok
      rw [DiskCacheReader.MemBounded, hs]
      exact .none
    next s hs =>
      obtain ⟨s', hs', rfl⟩ := except_map_eq_ok.mp hok
      exact StorageBounded.some (hpages.2 ▸ (h.mem s hs).remap hs')
  unfold CacheFileSystem.remapInMemoryDataCaches at hr
  dsimp only at hr
  split at hr
  · obtain ⟨inMemStorage, hstorage, hr⟩ := except_bind_eq_ok.mp hr
    cases hstorage
    obtain ⟨diskReader, hok, hr⟩ := except_bind_eq_ok.mp hr
    cases hr
    exact ⟨rfl, .none, hdisk _ hok⟩
  next s hs =>
    obtain ⟨inMemStorage, hstorage, hr⟩ := except_bind_eq_ok.mp hr
    obtain ⟨s', hs', rfl⟩ := except_map_eq_ok.mp hstorage
    obtain ⟨diskReader, hok, hr⟩ := except_bind_eq_ok.mp hr
    cases hr
    exact ⟨rfl, .some (hpages.1 ▸ (h.storage s hs).remap hs'), hdisk _ hok⟩

theorem Bounded.setCacheBlockSize {page : Nat} (h : fs.Bounded page inMemLimit diskLimit)
    {newBlockSize : Nat} {inMemEnv diskEnv : RemapEnv} (hpages : inMemEnv.page = page ∧ diskEnv.page = page)
    (hset : fs.setCacheBlockSize newBlockSize inMemEnv diskEnv = .ok fs') :
    fs'.Bounded page inMemLimit diskLimit := by
  unfold CacheFileSystem.setCacheBlockSize at hset
  split at hset
  · cases hset
    exact h
  · dsimp only at hset
    split at hset
    · obtain ⟨fs₁, hremap, hset⟩ := except_bind_eq_ok.mp hset
      cases hset
      obtain ⟨hconfig, hstorage, hmem⟩ := h.remapInMemoryDataCaches hpages hremap
      exact ⟨⟨hconfig ▸ h.limits.fixed, hconfig ▸ h.limits.inMem, hconfig ▸ h.limits.disk⟩, hstorage, hmem⟩
    next hsame =>
      obtain rfl : fs.config.cacheBlockSize = newBlockSize := Classical.not_not.mp hsame
      cases hset
      exact h

theorem Bounded.clearCacheFile {page : Nat} (h : fs.Bounded page inMemLimit diskLimit) {hash : PolicyHash}
    {filepath : String} (hs : fs.clearCacheFile w hash filepath = .ok fs') :
    fs'.Bounded page inMemLimit diskLimit := by
  obtain ⟨diskReader, hdisk, rfl⟩ := except_map_eq_ok.mp hs
  refine ⟨h.limits, h.storage.map fun s hs => hs.clearFile hash filepath, ?_⟩
  split at hdisk
  · obtain ⟨accessMaps, rfl⟩ := DiskCacheReader.clearCacheFile_eq hdisk
    exact StorageBounded.map h.mem fun s hs => hs.clearFile hash filepath
  · cases hdisk
    exact h.mem

theorem Bounded.clearCache {page : Nat} (h : fs.Bounded page inMemLimit diskLimit) :
    fs.clearCache.Bounded page inMemLimit diskLimit := by
  refine ⟨h.limits, h.storage.map fun s hs => hs.clear, ?_⟩
  dsimp only [CacheFileSystem.clearCache]
  split
  · exact StorageBounded.map h.mem fun s hs => hs.clear
  · exact h.mem

theorem Bounded.openFileExtended (h : fs.Bounded w.page inMemLimit diskLimit) {clearCacheOnWrite : Bool}
    {flags : OpenFlags} {path : String} {hash : PolicyHash}
    (hs : fs.openFileExtended w clearCacheOnWrite flags path hash = .ok fs') :
    fs'.Bounded w.page inMemLimit diskLimit := by
  have hinit : fs.initializeGlobalConfig.Bounded w.page inMemLimit diskLimit := h.of_eq rfl rfl rfl
  obtain ⟨new, ⟨_, fs₁, hclear, rfl⟩ | ⟨_, rfl⟩⟩ := openFileExtended_cases hs
  · exact { hinit.clearCacheFile hclear with }
  · exact { hinit with }

end CacheFileSystem

/-- The settings keep to the limits, and a remap has the pages of the reads. -/
def RemoteAct.KeepsLimits (page inMemLimit diskLimit : Nat) : RemoteAct → Prop
  | .session (.configure config _) => CacheFileSystem.Limits inMemLimit diskLimit config
  | .session (.setCacheBlockSize _ inMemEnv diskEnv) => inMemEnv.page = page ∧ diskEnv.page = page
  | _ => True

theorem fsStep_bounded {fs fs' : CacheFileSystem} {act : FsAct} {inMemLimit diskLimit : Nat}
    (ha : (RemoteAct.session act).KeepsLimits w.page inMemLimit diskLimit)
    (h : fs.Bounded w.page inMemLimit diskLimit) (hs : fsStep w fs act = .ok fs') :
    fs'.Bounded w.page inMemLimit diskLimit := by
  cases act with
  | openFile path =>
    cases hs
    exact h.of_eq rfl rfl rfl
  | seek handle position =>
    cases hs
    exact h.of_eq rfl rfl rfl
  | read handle buffer nrBytes env =>
    unfold fsStep at hs
    dsimp only at hs
    split at hs
    · cases hs
      exact h
    · obtain ⟨r, hread, hs⟩ := except_bind_eq_ok.mp hs
      cases hs
      exact (h.readHandle hread).of_eq rfl rfl rfl
  | readAt handle buffer nrBytes location env =>
    unfold fsStep at hs
    dsimp only at hs
    split at hs
    · cases hs
      exact h
    · obtain ⟨r, hread, rfl⟩ := except_map_eq_ok.mp hs
      exact h.readHandle hread
  | setCacheBlockSize newBlockSize inMemEnv diskEnv => exact h.setCacheBlockSize ha hs
  | configure config metadataConfig =>
    cases hs
    exact ⟨⟨ha.fixed, ha.inMem, ha.disk⟩, h.storage, h.mem⟩
  | registerLayout path extents sorted =>
    cases hs
    exact h.of_eq rfl rfl rfl
  | clearLayouts =>
    cases hs
    exact h.of_eq rfl rfl rfl
  | clearLayout path =>
    cases hs
    exact h.of_eq rfl rfl rfl
  | clearCache =>
    cases hs
    exact h.clearCache
  | clearCacheFile hash filepath => exact h.clearCacheFile hs
  | removeFiles filepaths =>
    cases hs
    exact h.of_eq rfl rfl rfl
  | evict objCacheKey =>
    cases hs
    exact ⟨h.limits, h.storage.map fun s hs => hs.evict objCacheKey,
      StorageBounded.map h.mem fun s hs => hs.evict objCacheKey⟩

theorem remoteStep_bounded {s s' : RemoteState} {a : RemoteAct} {inMemLimit diskLimit : Nat}
    (ha : a.KeepsLimits w.page inMemLimit diskLimit) (h : s.fs.Bounded w.page inMemLimit diskLimit)
    (hs : remoteStep w s a = some s') : s'.fs.Bounded w.page inMemLimit diskLimit := by
  cases a with
  | replaceFile path contents =>
    cases hs
    exact h
  | openFile clearCacheOnWrite flags path hash =>
    obtain ⟨fs', hopen, rfl⟩ := except_map_eq_ok.mp (toOption_eq_some.mp hs)
    exact CacheFileSystem.Bounded.openFileExtended (w := w.over s.remote) h hopen
  | failStat path env =>
    cases hs
    exact h.of_eq rfl rfl rfl
  | failRead path nrBytes location env fates =>
    cases hs
    exact CacheFileSystem.Bounded.afterFailedRead (w := w.over s.remote) h _ _ _ _ _
  | session act =>
    obtain ⟨fs', hstep, rfl⟩ := except_map_eq_ok.mp (toOption_eq_some.mp hs)
    exact fsStep_bounded (w := w.over s.remote) ha h hstep

/-- The bytes allocated for the blocks of the extension's storage, if that is what is in use. -/
def extensionBytes : Option DataCacheStorage → Nat
  | some (.extension s) => s.heldBytes
  | _ => 0

theorem StorageBounded.extensionBytes_le {storage : Option DataCacheStorage} {bound : Nat}
    (h : StorageBounded limit bound storage) : extensionBytes storage ≤ limit * bound := by
  unfold extensionBytes
  split
  next s => exact (h _ rfl : s.Bounded limit bound).heldBytes_le
  next => exact Nat.zero_le _

/-- **Memory is bounded.** In every state of a session on the fixed grid, the
blocks of either storage take at most the maximum block count times the
pages of one block of the size now set. -/
theorem memory_bounded (w : World) (remote : Remote) (config : InstanceConfig)
    (metadataConfig : MetadataConfig) (files : LocalFiles) (inMemLimit diskLimit : Nat)
    (hlimits : CacheFileSystem.Limits inMemLimit diskLimit config) (as : List RemoteAct)
    (has : ∀ a ∈ as, a.KeepsLimits w.page inMemLimit diskLimit) (s : RemoteState)
    (hrun : exec (remoteStep w) ⟨remote, { config, metadataConfig, diskReader := { files } }⟩ as = some s) :
    extensionBytes s.fs.inMemStorage ≤ inMemLimit * roundUpToPage w.page s.fs.config.cacheBlockSize ∧
      extensionBytes s.fs.diskReader.inMemStorage ≤ diskLimit * roundUpToPage w.page s.fs.config.cacheBlockSize := by
  have h : s.fs.Bounded w.page inMemLimit diskLimit := by
    refine exec_guarded_invariant (I := fun s : RemoteState => s.fs.Bounded w.page inMemLimit diskLimit)
      (G := fun _ a => a.KeepsLimits w.page inMemLimit diskLimit)
        (fun s a s' h hg hs => remoteStep_bounded hg h hs)
      (Guarded.of_forall has) hrun ?_
    exact ⟨hlimits, .none, StorageBounded.none⟩
  exact ⟨h.storage.extensionBytes_le, StorageBounded.extensionBytes_le h.mem⟩

/-- Pages of two bytes, and one block of two bytes at a time. -/
def smallWorld : World := { invalidationWorld with page := 2 }

def oneBlockConfig : InstanceConfig :=
  { invalidationConfig with
    cacheBlockSize := 2, cacheType := .inMem, maxInMemCacheBlockCount := 1, diskReaderMaxMemCacheBlockCount := 1 }

/-- Two blocks are read, and the block size is doubled. -/
def growingSession : List RemoteAct :=
  [ .openFile false { forReading := true } "s3://b/x" .inserted, .session (.readAt 0 [0, 0, 0, 0] 4 0 {})
  , .session (.setCacheBlockSize 4 ⟨2, .inserted, .inserted, fun _ => 0, fun _ => 0, fun _ => []⟩
      ⟨2, .inserted, .inserted, fun _ => 0, fun _ => 0, fun _ => []⟩)
  , .session (.readAt 0 [0, 0, 0, 0] 4 0 {}) ]

theorem memory_bounded_growing :
    ∃ s, exec (remoteStep smallWorld) ⟨smallWorld.remote, { config := oneBlockConfig }⟩ growingSession = some s ∧
      extensionBytes s.fs.inMemStorage = 4 ∧ extensionBytes s.fs.inMemStorage ≤ 1 * 4 := by
  have hrun : (exec (remoteStep smallWorld) ⟨smallWorld.remote, { config := oneBlockConfig }⟩ growingSession).map
      (fun s => (extensionBytes s.fs.inMemStorage, s.fs.config.cacheBlockSize)) = some (4, 4) := by decide +kernel
  obtain ⟨s, hs, hfacts⟩ := Option.map_eq_some_iff.mp hrun
  simp only [Prod.mk.injEq] at hfacts
  have hbound := (memory_bounded smallWorld smallWorld.remote oneBlockConfig {} (fun _ => none) 1 1
    ⟨rfl, by decide, by decide⟩ growingSession
      (by simp [growingSession, RemoteAct.KeepsLimits, smallWorld]) s hs).1
  rw [hfacts.2, roundUpToPage_of_dvd (by decide) (by decide)] at hbound
  exact ⟨s, hs, hfacts.1, hbound⟩

end ReadCacheFs
