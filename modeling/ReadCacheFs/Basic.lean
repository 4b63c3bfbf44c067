/-
The data the cache moves around: `idx_t` arithmetic, page-aligned chunks,
block keys, cached entries, read chunks.

`idx_t` is an unsigned 64-bit integer. It is a `Nat` here, and where the
source adds or subtracts without a bound the result is taken modulo `2^64`
(`u64`, `u64Sub`).

A `PageAlignedDataChunk` owns its allocation through a `unique_ptr`, which
moving from the chunk leaves null while `length` and `capacity` stay: so
the allocation is an `Option` and a moved-from chunk is `moved`.
-/
import Mathlib.Order.Defs.LinearOrder
import Mathlib.Data.List.TakeWhile
import ReadCacheFs.Lib.OrderedKeys

namespace ReadCacheFs

open Lib

/-! ## `idx_t` -/

/-- A result of `idx_t` arithmetic. -/
def u64 (n : Nat) : Nat := n % 2 ^ 64

def u64Sub (a b : Nat) : Nat := (a + 2 ^ 64 - b) % 2 ^ 64

theorem u64_eq {n : Nat} (h : n < 2 ^ 64) : u64 n = n := Nat.mod_eq_of_lt h

theorem u64_add (a b : Nat) : u64 (u64 a + b) = u64 (a + b) := Nat.mod_add_mod a (2 ^ 64) b

theorem u64Sub_u64 {a b : Nat} (hb : b < 2 ^ 64) : u64Sub (u64 (a + b)) b = u64 a := by
  unfold u64Sub u64
  omega

theorem u64Sub_eq {a b : Nat} (h : b ≤ a) (ha : a < 2 ^ 64) : u64Sub a b = a - b := by
  unfold u64Sub; omega

/-- A loop over `idx_t` values that has not ended after this many rounds
never ends. -/
def loopBound : Nat := 2 ^ 64

/-- `max_entries`, where 0 is no limit. -/
def entryLimit (maxEntries : Nat) : Option Nat := if maxEntries = 0 then none else some maxEntries

theorem entryLimit_eq_some {maxEntries n : Nat} (h : entryLimit maxEntries = some n) :
    maxEntries = n ∧ 0 < n := by
  unfold entryLimit at h
  split at h
  · cases h
  · cases h
    exact ⟨rfl, by omega⟩

theorem entryLimit_getD (maxEntries : Nat) : (entryLimit maxEntries).getD 0 = maxEntries := by
  unfold entryLimit
  split
  next h0 => exact h0.symm
  next => rfl

/-! ## Faults -/

/-- How a call can fail to return: an exception thrown, an `ALWAYS_ASSERT`
that does not hold, a null pointer read, a loop that never ends. -/
inductive Fault
  | invalidInput (message : String)
  | internal (message : String)
  /-- A filesystem came up short. -/
  | io
  | assertFailed
  | nullDeref
  | diverges
  deriving DecidableEq, Repr

/-! ## Chunks -/

abbrev Bytes := List UInt8

structure PageAlignedDataChunk where
  /-- The allocation: what has been written to it, `none` for `nullptr`. -/
  chunk : Option Bytes := none
  length : Nat := 0
  capacity : Nat := 0
  deriving DecidableEq, Repr, Inhabited

namespace PageAlignedDataChunk

def empty (c : PageAlignedDataChunk) : Bool := c.chunk.isNone || c.length == 0

def bytes (c : PageAlignedDataChunk) : Bytes := (c.chunk.getD []).take c.length

def Filled (c : PageAlignedDataChunk) : Prop := c.bytes.length = c.length

instance (c : PageAlignedDataChunk) : Decidable c.Filled := inferInstanceAs (Decidable (_ = _))

theorem Filled.chunk_eq {c : PageAlignedDataChunk} (h : c.Filled) (he : c.empty = false) :
    ∃ bs, c.chunk = some bs ∧ c.length ≤ bs.length := by
  simp only [empty, Bool.or_eq_false_iff] at he
  cases hc : c.chunk with
  | none => simp [hc] at he
  | some bs =>
    simp only [Filled, bytes, hc, Option.getD_some, List.length_take] at h
    exact ⟨bs, rfl, by omega⟩

/-- What `std::move` leaves behind. -/
def moved (c : PageAlignedDataChunk) : PageAlignedDataChunk := { c with chunk := none }

/-- `CopyTo`: the bytes it writes to the destination. -/
def copyTo (c : PageAlignedDataChunk) (srcOffset copyLength : Nat) : Except Fault Bytes :=
  if u64 (srcOffset + copyLength) > c.length then
    .error (.invalidInput "src_offset + copy_length is greater than length")
  else match c.chunk with
    | none => .error .nullDeref
    | some bs => .ok (slice bs srcOffset copyLength)

end PageAlignedDataChunk

/-- The capacity `AllocatePageAlignedChunk` rounds a request up to. -/
def alignedCapacity (page requestedLength : Nat) : Nat :=
  if requestedLength = 0 then 0 else u64 ((requestedLength + page - 1) / page * page)

/-- `AllocatePageAlignedChunk(n)`, filled with `bs` and its `length` set to
`n`: the only way the source uses it. -/
def filledChunk (page n : Nat) (bs : Bytes) : PageAlignedDataChunk :=
  { chunk := if n = 0 then none else some bs, length := n, capacity := alignedCapacity page n }

@[simp] theorem filledChunk_length {page n : Nat} {bs : Bytes} : (filledChunk page n bs).length = n := rfl

theorem filledChunk_bytes {page n : Nat} {bs : Bytes} (h : bs.length = n) :
    (filledChunk page n bs).bytes = bs := by
  subst h
  cases bs <;> simp [filledChunk, PageAlignedDataChunk.bytes]

/-! ## Remote files -/

/-- The contents of the remote files, which do not change. -/
abbrev Remote := String → Bytes

/-- A file size is an `int64_t`. -/
def Remote.Sized (remote : Remote) : Prop := ∀ path, (remote path).length < 2 ^ 63

/-- `Read` of the internal filesystem: all bytes asked for. -/
def Remote.read (remote : Remote) (path : String) (nrBytes location : Nat) : Except Fault Bytes :=
  if location + nrBytes ≤ (remote path).length then .ok (slice (remote path) location nrBytes) else .error .io

/-! ## Keys and entries -/

/-- The key of an in-memory block: a remote path and a range of it. -/
structure InMemCacheBlock where
  fname : String
  startOff : Nat
  blkSize : Nat
  deriving DecidableEq, Repr, Inhabited

/-- `InMemCacheBlockLess`: path, then offset, then size. -/
instance : Ord InMemCacheBlock where
  compare := compareLex (compareOn (·.fname)) (compareLex (compareOn (·.startOff)) (compareOn (·.blkSize)))

theorem InMemCacheBlock.compare_def (a b : InMemCacheBlock) :
    compare a b = ((compare a.fname b.fname).then
      ((compare a.startOff b.startOff).then (compare a.blkSize b.blkSize))) := rfl

instance : Std.TransOrd InMemCacheBlock :=
  inferInstanceAs (Std.TransCmp (compareLex (compareOn InMemCacheBlock.fname)
    (compareLex (compareOn InMemCacheBlock.startOff) (compareOn InMemCacheBlock.blkSize))))

instance : Std.LawfulEqOrd InMemCacheBlock where
  eq_of_compare {a b} h := by
    rw [InMemCacheBlock.compare_def] at h
    simp only [Ordering.then_eq_eq, Std.compare_eq_iff_eq] at h
    obtain ⟨h1, h2, h3⟩ := h
    cases a; cases b; simp_all
  compare_self {a} := by simp

/-- The keys a loop from `lower_bound(start_key)` visits in an ordered map,
up to the first that does not match. -/
def keysInRange {K : Type} [Ord K] (keys : List K) (startKey : K) (filter : K → Bool) : List K :=
  (keys.dropWhile fun k => (compare k startKey).isLT).takeWhile filter

theorem mem_keysInRange_iff {K : Type} [Ord K] [Std.TransOrd K] {keys : List K}
    (h : keys.Pairwise fun a b => compare a b = .lt) {startKey k : K} {filter : K → Bool} :
    k ∈ keysInRange keys startKey filter ↔ k ∈ keys ∧ matchedFrom keys startKey filter k = true :=
  mem_scan h

theorem filter_of_mem_keysInRange {K : Type} [Ord K] {keys : List K} {startKey k : K} {filter : K → Bool}
    (h : k ∈ keysInRange keys startKey filter) : filter k = true :=
  List.mem_takeWhile_imp h

theorem mem_keysInRange_start {K : Type} [Ord K] [Std.TransOrd K] {keys : List K}
    (h : keys.Pairwise fun a b => compare a b = .lt) {k : K} (hk : k ∈ keys) {filter : K → Bool}
    (hf : filter k = true) :
    k ∈ keysInRange keys k filter := by
  obtain ⟨before, after, rfl⟩ := List.append_of_mem hk
  have hlt : ∀ a ∈ before, (compare a k).isLT = true := by
    intro a ha
    rw [(List.pairwise_append.mp h).2.2 a ha k (by simp)]
    rfl
  rw [keysInRange, List.dropWhile_append_of_pos hlt, List.dropWhile_cons_of_neg (by simp),
    List.takeWhile_cons_of_pos hf]
  exact List.mem_cons_self

/-- From the first key of a path on, the keys that match the path are all
the keys of the path. -/
theorem mem_keysInRange_file {keys : List InMemCacheBlock} (h : keys.Pairwise fun a b => compare a b = .lt)
    {f : String} {k : InMemCacheBlock} : k ∈ keysInRange keys ⟨f, 0, 0⟩ (·.fname == f) ↔ k ∈ keys ∧
      k.fname = f := by
  have hzero : ∀ n : Nat, (compare 0 n).isLE = true := by
    intro n
    rw [Nat.isLE_compare]
    exact Nat.zero_le n
  refine mem_scan_of_first (·.fname) ⟨f, 0, 0⟩ h (fun a b hab => ?_) fun a _ hf => ?_
  · exact (Ordering.isLE_then_iff_and.mp hab).1
  · rw [InMemCacheBlock.compare_def, hf, Std.ReflOrd.compare_self, Ordering.eq_then, Ordering.isLE_then_iff_and]
    exact ⟨hzero _, .inr (hzero _)⟩

structure InMemCacheDataEntry where
  data : PageAlignedDataChunk
  versionTag : String
  deriving DecidableEq, Repr, Inhabited

/-- What `make_shared_ptr<InMemCacheDataEntry>` has allocated; a `shared_ptr`
is a position in it. -/
abbrev DataHeap := List InMemCacheDataEntry

/-- `PinnedBlock::ValidateVersionTag`. -/
def validateVersionTag (cached expected : String) : Bool := expected.isEmpty || cached == expected

theorem validateVersionTag_iff {cached expected : String} :
    validateVersionTag cached expected = true ↔ expected = "" ∨ cached = expected := by
  simp [validateVersionTag]

/-! ## Read chunks -/

/-- One part of a read: a cache entry and the slice of it to copy out. The
destination address is an offset into the caller's buffer. -/
structure CacheReadChunk where
  requestedStartAddr : Nat := 0
  requestedStartOffset : Nat := 0
  alignedStartOffset : Nat := 0
  chunkSize : Nat := 0
  bytesToCopy : Nat := 0
  deriving DecidableEq, Repr, Inhabited

def CacheReadChunk.copyRange (c : CacheReadChunk) : Nat × Nat := (c.requestedStartOffset, c.bytesToCopy)

/-- `CopyBufferToRequestedMemory`: where it writes, and what. -/
def CacheReadChunk.copyBufferToRequestedMemory (c : CacheReadChunk) (buffer : PageAlignedDataChunk) :
    Except Fault (Nat × Bytes) :=
  (buffer.copyTo (u64Sub c.requestedStartOffset c.alignedStartOffset) c.bytesToCopy).map (c.requestedStartAddr, ·)

/-! ## Hash maps -/

/-- The order in which an `unordered_map` is iterated: any order of what is
in it. -/
structure HashOrder (α : Type*) where
  order : List α → List α
  perm : ∀ l, (order l).Perm l

def HashOrder.inserted {α : Type*} : HashOrder α := ⟨id, fun _ => .refl _⟩

/-! ## The clock -/

/-- `GetSteadyNowMilliSecSinceEpoch`, of a steady clock reading in nanoseconds. -/
def steadyMillis (ns : Nat) : Nat := ns / 1000000

theorem steadyMillis_mono {a b : Nat} (h : a ≤ b) : steadyMillis a ≤ steadyMillis b := Nat.div_le_div_right h

/-- The readings a steady clock can give: nanoseconds in an `int64_t`. -/
def clockLimit : Nat := 2 ^ 63

/-! ## What a storage holds -/

/-- A block held under a key: what the `Put` gave, and the millisecond it
was put. -/
structure HeldBlock where
  data : PageAlignedDataChunk
  versionTag : String
  putMillis : Nat
  deriving DecidableEq, Repr, Inhabited

/-- A lookup at `now` that expects `tag` may be answered with the block. -/
structure HeldBlock.Serves (b : HeldBlock) (timeoutMillisec now : Nat) (tag : String) : Prop where
  tag_eq : tag = "" ∨ b.versionTag = tag
  fresh : timeoutMillisec ≠ 0 → steadyMillis now ≤ b.putMillis + timeoutMillisec

end ReadCacheFs
