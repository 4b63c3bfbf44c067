/-
`PolicyDataCacheStorage`: an in-memory storage bounded by bytes, split in
groups, each with its budget, its entries and its eviction policy.

A group is named by its position, which is what the source's `Group *`
amounts to: groups are made once, by the constructor. Readings of the
steady clock are arguments, in nanoseconds. The order in which the hash
maps are iterated is a parameter too.
-/
import Mathlib.Algebra.Group.Int.Defs
import Mathlib.Data.List.Infix
import ReadCacheFs.EvictionPolicy

namespace ReadCacheFs

open Lib

/-- The `Entry` of `PolicyDataCacheStorage`; `data` is a pointer. -/
structure PolicyEntry where
  data : Nat
  bytes : Nat
  insertedAt : Nat
  deriving DecidableEq, Repr

abbrev PolicyEntries := AList fun _ : InMemCacheBlock => PolicyEntry

structure Group where
  name : String
  /-- Empty for the catch-all group. -/
  pattern : String := ""
  policy : EvictionPolicy
  bounded : Bool := false
  capacityBytes : Nat := 0
  usedBytes : Nat := 0
  entries : PolicyEntries := ∅
  hits : Nat := 0
  misses : Nat := 0
  evictions : Nat := 0
  bytesAdmitted : Nat := 0
  bytesEvicted : Nat := 0
  minEntryBytes : Nat := 0
  maxEntryBytes : Nat := 0

/-- What `EvictToFit` went through. -/
structure EvictReport where
  victims : List InMemCacheBlock := []
  /-- It returned because the policy was empty. -/
  policyEmpty : Bool := false
  victimNotFound : Bool := false
  /-- It subtracted more than `used_bytes`. -/
  underflow : Bool := false
  deriving DecidableEq, Repr

namespace Group

def removeEntry (g : Group) (key : InMemCacheBlock) (e : PolicyEntry) : Group :=
  { g with usedBytes := u64Sub g.usedBytes e.bytes, entries := g.entries.erase key, policy := g.policy.onErase key }

/-- What `Put` does with an entry the key already has. -/
def removeExisting (g : Group) (key : InMemCacheBlock) : Group :=
  match g.entries.lookup key with
  | some e => g.removeEntry key e
  | none => g

def evictVictim (g : Group) (policy : EvictionPolicy) (victim : InMemCacheBlock) (e : PolicyEntry) : Group :=
  { g with
    policy
    usedBytes := u64Sub g.usedBytes e.bytes
    bytesEvicted := u64 (g.bytesEvicted + e.bytes)
    evictions := u64 (g.evictions + 1)
    entries := g.entries.erase victim }

def evictToFit (g : Group) (needed : Nat) : Group × EvictReport :=
  if !g.bounded then (g, {})
  else if u64 (g.usedBytes + needed) ≤ g.capacityBytes then (g, {})
  else match _h : g.policy.popVictim with
    | (none, policy) => ({ g with policy }, { policyEmpty := true })
    | (some victim, policy) =>
      match g.entries.lookup victim with
      | none =>
        let (g', r) := evictToFit { g with policy } needed
        (g', { r with victimNotFound := true })
      | some e =>
        let (g', r) := evictToFit (g.evictVictim policy victim e) needed
        (g', { r with victims := victim :: r.victims, underflow := r.underflow || decide (g.usedBytes < e.bytes) })
termination_by g.policy.keys.length
decreasing_by all_goals exact EvictionPolicy.popVictim_size _h

/-- The end of `Put`: the new entry, accounted for and tracked. -/
def insertEntry (g : Group) (key : InMemCacheBlock) (e : PolicyEntry) : Group :=
  { g with
    usedBytes := u64 (g.usedBytes + e.bytes)
    bytesAdmitted := u64 (g.bytesAdmitted + e.bytes)
    minEntryBytes := if g.minEntryBytes = 0 then e.bytes else min g.minEntryBytes e.bytes
    maxEntryBytes := max g.maxEntryBytes e.bytes
    entries := g.entries.insert key e
    policy := g.policy.onInsert key }

def clear (g : Group) : Group := { g with entries := ∅, policy := g.policy.clear, usedBytes := 0 }

/-- The loop of `Clear(start_key, filter)` over a group's entries, in the
order they are iterated. -/
def clearMatching (filter : InMemCacheBlock → Bool) :
    List (Σ _ : InMemCacheBlock, PolicyEntry) → Group → Group
  | [], g => g
  | ⟨key, e⟩ :: rest, g =>
    if filter key then
      clearMatching filter rest
        { g with usedBytes := u64Sub g.usedBytes e.bytes, policy := g.policy.onErase key, entries := g.entries.erase key }
    else clearMatching filter rest g

end Group

structure PolicyStorage where
  groups : List Group
  groupByFile : AList fun _ : String => Nat := ∅
  maxBytes : Nat
  timeoutMillisec : Nat
  heap : DataHeap := []

/-- An entry of the file policy spec, its size resolved to bytes. -/
structure SpecEntry where
  pattern : String
  policy : EvictionPolicyKind
  bytes : Nat := 0
  deriving DecidableEq, Repr

/-- The constructor, from the parsed spec (empty in global scope). -/
def newPolicyStorage (maxBytes timeoutMillisec : Nat) (defaultPolicy : EvictionPolicyKind)
    (spec : List SpecEntry) :
    Except Fault PolicyStorage :=
  let explicitBytes := spec.foldl (fun n e => if 0 < e.bytes then u64 (n + e.bytes) else n) 0
  let unsizedGroups := spec.foldl (fun n e => if 0 < e.bytes then n else u64 (n + 1)) 1
  if 0 < maxBytes ∧ maxBytes < explicitBytes then
    .error (.invalidInput s!"File policy budgets total {explicitBytes} bytes, which exceeds the cache budget of {maxBytes} bytes")
  else
    let share := if maxBytes = 0 then 0 else u64Sub maxBytes explicitBytes / unsizedGroups
    let bounded := decide (0 < maxBytes)
    let groups := spec.map fun e =>
      { name := e.pattern, pattern := e.pattern, policy := createEvictionPolicy e.policy, bounded
        capacityBytes := if 0 < e.bytes then e.bytes else share : Group }
    let fallback : Group :=
      { name := if spec.isEmpty then "global" else "default", policy := createEvictionPolicy defaultPolicy, bounded
        capacityBytes := share }
    .ok { groups := groups ++ [fallback], maxBytes, timeoutMillisec }

/-- The age in milliseconds `Expired` compares, cast to unsigned. -/
def ageMillis (now insertedAt : Nat) : Nat := ((((now : Int) - insertedAt).tdiv 1000000) % 2 ^ 64).toNat

/-- The bytes an entry is charged: its allocation, or its length when it has none. -/
def chargedBytes (chunk : PageAlignedDataChunk) : Nat :=
  if 0 < chunk.capacity then chunk.capacity else chunk.length

namespace PolicyStorage

/-- The first group whose pattern occurs in the path, or the last. -/
def chooseGroup (groups : List Group) (fname : String) : Nat :=
  (groups.findIdx? fun g => decide (g.pattern ≠ "") && decide (g.pattern.toList <:+: fname.toList)).getD
    (groups.length - 1)

def groupFor (s : PolicyStorage) (fname : String) : Nat × PolicyStorage :=
  match s.groupByFile.lookup fname with
  | some i => (i, s)
  | none =>
    let i := chooseGroup s.groups fname
    (i, { s with groupByFile := s.groupByFile.insert fname i })

def expired (s : PolicyStorage) (now : Nat) (e : PolicyEntry) : Bool :=
  decide (s.timeoutMillisec ≠ 0) && decide (s.timeoutMillisec ≤ ageMillis now e.insertedAt)

def put (s : PolicyStorage) (now : Nat) (key : InMemCacheBlock) (chunk : PageAlignedDataChunk)
    (versionTag : String) :
    PolicyStorage :=
  let bytes := chargedBytes chunk
  let (i, s) := s.groupFor key.fname
  match s.groups[i]? with
  | none => s
  | some g =>
    if !g.policy.admits bytes then s
    else if g.bounded && decide (g.capacityBytes < bytes) then s
    else
      let g := ((g.removeExisting key).evictToFit bytes).1
      { s with
        groups := s.groups.set i (g.insertEntry key { data := s.heap.length, bytes, insertedAt := now })
        heap := s.heap ++ [{ data := chunk, versionTag }] }

/-- A hit pins the entry it returns a pointer to. -/
def get (s : PolicyStorage) (now : Nat) (key : InMemCacheBlock) (expectedVersionTag : String) :
    Option Nat × PolicyStorage :=
  let (i, s) := s.groupFor key.fname
  match s.groups[i]? with
  | none => (none, s)
  | some g =>
    match g.entries.lookup key with
    | none => (none, { s with groups := s.groups.set i { g with misses := u64 (g.misses + 1) } })
    | some e =>
      match s.heap[e.data]? with
      | none => (none, s)
      | some data =>
        if s.expired now e || !validateVersionTag data.versionTag expectedVersionTag then
          let g' := g.removeEntry key e
          (none, { s with groups := s.groups.set i { g' with misses := u64 (g.misses + 1) } })
        else
          let g' := { g with hits := u64 (g.hits + 1), policy := g.policy.onHit key }
          (some e.data, { s with groups := s.groups.set i g' })

def delete (s : PolicyStorage) (key : InMemCacheBlock) : Bool × PolicyStorage :=
  let (i, s) := s.groupFor key.fname
  match s.groups[i]? with
  | none => (false, s)
  | some g =>
    match g.entries.lookup key with
    | none => (false, s)
    | some e => (true, { s with groups := s.groups.set i (g.removeEntry key e) })

def clear (s : PolicyStorage) : PolicyStorage := { s with groups := s.groups.map Group.clear }

/-- `Clear(start_key, filter)`, which applies the filter to every entry. -/
def clearFrom (s : PolicyStorage) (hash : HashOrder (Σ _ : InMemCacheBlock, PolicyEntry))
    (_startKey : InMemCacheBlock) (filter : InMemCacheBlock → Bool) : PolicyStorage :=
  { s with groups := s.groups.map fun g => g.clearMatching filter (hash.order g.entries.entries) }

def keys (s : PolicyStorage) (hash : HashOrder (Σ _ : InMemCacheBlock, PolicyEntry)) : List InMemCacheBlock :=
  s.groups.flatMap fun g => (hash.order g.entries.entries).map (·.1)

def take (s : PolicyStorage) (hash : HashOrder (Σ _ : InMemCacheBlock, PolicyEntry)) :
    List (InMemCacheBlock × Nat) × PolicyStorage :=
  (s.groups.flatMap fun g => (hash.order g.entries.entries).map fun kv => (kv.1, kv.2.data), s.clear)

end PolicyStorage

end ReadCacheFs
