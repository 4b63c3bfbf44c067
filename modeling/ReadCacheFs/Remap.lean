/-
The block-size remap: `RemapInMemCacheEntries` takes the entries drained
from a storage and cuts them again on a grid of another block size.

The entries of a file are walked by start offset and joined into runs of
adjacent entries with one version tag; each run is then cut at the new
block boundaries, copying from the run's segments. `CopyRange` walks the
segments with an index that only grows: here the index is the rest of the
list.
-/
import Mathlib.Data.List.AList
import ReadCacheFs.Chunking
import Std.Data.TreeMap

namespace ReadCacheFs

open Lib

abbrev TakenEntries := List (InMemCacheBlock × Option InMemCacheDataEntry)

structure CachedSlice where
  byteLen : Nat := 0
  entry : Option InMemCacheDataEntry := none
  deriving DecidableEq, Repr

structure Segment where
  start : Nat
  byteLen : Nat
  entry : InMemCacheDataEntry
  deriving DecidableEq, Repr

def Segment.range (seg : Segment) : Nat × Nat := (seg.start, seg.byteLen)

def alignUpToBlock (offset block : Nat) : Nat :=
  let aligned := offset / block * block
  if aligned < offset then u64 (aligned + block) else aligned

/-- The inner loop of `CopyRange`: past the segments that end at or before `pos`. -/
def skipSegments (pos : Nat) : List Segment → List Segment
  | [] => []
  | seg :: segs => if u64 (seg.start + seg.byteLen) ≤ pos then skipSegments pos segs else seg :: segs

/-- `CopyRange`, from the round with `done` bytes copied on: what it writes
to `dest + done`. -/
def copyRange (segs : List Segment) (globalStart copyLen done : Nat) : Except Fault Bytes :=
  if _hd : done < copyLen then
    let pos := u64 (globalStart + done)
    match skipSegments pos segs with
    | [] => .error .assertFailed
    | seg :: rest =>
      if _hs : seg.start ≤ pos ∧ pos < u64 (seg.start + seg.byteLen) then
        let inner := pos - seg.start
        let chunk := min (seg.byteLen - inner) (copyLen - done)
        match seg.entry.data.chunk with
        | none => .error .nullDeref
        | some bs => (copyRange (seg :: rest) globalStart copyLen (done + chunk)).map (slice bs inner chunk ++ ·)
      else .error .assertFailed
  else .ok []
termination_by copyLen - done
decreasing_by
  have hle : u64 (seg.start + seg.byteLen) ≤ seg.start + seg.byteLen := Nat.mod_le _ _
  omega

abbrev FileIndex := AList fun _ : String => Std.TreeMap Nat CachedSlice

/-- `by_file[key.fname].emplace(key.start_off, ..)`: the first entry at an
offset stays. -/
def FileIndex.emplace (byFile : FileIndex) (key : InMemCacheBlock) (slice : CachedSlice) : FileIndex :=
  byFile.insert key.fname (((byFile.lookup key.fname).getD ∅).insertIfNew key.startOff slice)

def FileIndex.add (byFile : FileIndex) : InMemCacheBlock × Option InMemCacheDataEntry → Except Fault FileIndex
  | (_, none) => .error .assertFailed
  | (key, some val) =>
    if val.data.empty then .error .assertFailed
    else if val.data.length ≠ key.blkSize then .error .assertFailed
    else .ok (byFile.emplace key ⟨key.blkSize, some val⟩)

def buildFileIndex (taken : TakenEntries) : Except Fault FileIndex := taken.foldlM FileIndex.add ∅

/-- A run of adjacent entries of one file with one version tag. -/
structure Run where
  runStart : Nat
  runEnd : Nat
  runSegments : List Segment
  runTag : String

/-- Where emission stops: at EOF when the file's size is known. -/
def Run.emitEnd (run : Run) : Option Nat → Nat
  | some fileSize => min run.runEnd fileSize
  | none => run.runEnd

section Emit

variable (page : Nat) (fname : String) (run : Run) (newBlockSize : Nat)

def emitBlock (b len : Nat) : Except Fault (InMemCacheBlock × InMemCacheDataEntry) :=
  (copyRange run.runSegments b len 0).map fun bs =>
    (⟨fname, b, len⟩, { data := filledChunk page len bs, versionTag := run.runTag })

/-- A run that ends before EOF: whole new blocks only. -/
def emitWholeBlocks : Nat → Nat → Except Fault (List (InMemCacheBlock × InMemCacheDataEntry))
  | 0, _ => .error .diverges
  | fuel + 1, b =>
    if u64 (b + newBlockSize) ≤ run.runEnd then do
      let blk ← emitBlock page fname run b newBlockSize
      let rest ← emitWholeBlocks fuel (u64 (b + newBlockSize))
      return blk :: rest
    else .ok []

/-- A run up to EOF, or of a file of unknown size: the last block may be short. -/
def emitPieces (emitEnd : Nat) : Nat → Nat → Except Fault (List (InMemCacheBlock × InMemCacheDataEntry))
  | 0, _ => .error .diverges
  | fuel + 1, b =>
    if b < emitEnd then do
      let pieceLen := min newBlockSize (emitEnd - b)
      let blk ← emitBlock page fname run b pieceLen
      let rest ← emitPieces emitEnd fuel (alignUpToBlock (u64 (b + pieceLen)) newBlockSize)
      return blk :: rest
    else .ok []

def emitRunOnNewGrid (fileSize : Option Nat) : Except Fault (List (InMemCacheBlock × InMemCacheDataEntry)) :=
  let first := alignUpToBlock run.runStart newBlockSize
  if run.emitEnd fileSize ≤ run.runStart then .ok []
  else if fileSize.any (run.runEnd < ·) then emitWholeBlocks page fname run newBlockSize loopBound first
  else emitPieces page fname run newBlockSize (run.emitEnd fileSize) loopBound first

end Emit

section Walk

variable (page : Nat) (fname : String) (newBlockSize : Nat) (fileSize : Option Nat)

def beginRun (s len : Nat) (entry : InMemCacheDataEntry) : Run :=
  { runStart := s, runEnd := u64 (s + len), runSegments := [⟨s, len, entry⟩], runTag := entry.versionTag }

/-- `flush_run`: the blocks it adds to the output. -/
def flushRun : Option Run → Except Fault (List (InMemCacheBlock × InMemCacheDataEntry))
  | none => .ok []
  | some run => emitRunOnNewGrid page fname run newBlockSize fileSize

/-- The walk over the slices of one file, and the flush at its end. -/
def remapSlices :
    List (Nat × CachedSlice) → Option Run → Except Fault (List (InMemCacheBlock × InMemCacheDataEntry))
  | [], run => flushRun page fname newBlockSize fileSize run
  | (s, sl) :: rest, run =>
    match sl.entry with
    | none => remapSlices rest run
    | some entry =>
      if sl.byteLen = 0 then remapSlices rest run
      else match run with
        | none => remapSlices rest (some (beginRun s sl.byteLen entry))
        | some r =>
          if s < r.runEnd then remapSlices rest run
          else if s = r.runEnd ∧ entry.versionTag = r.runTag then
            remapSlices rest (some { r with runEnd := u64 (s + sl.byteLen)
                                            runSegments := r.runSegments ++ [⟨s, sl.byteLen, entry⟩] })
          else do
            let out ← flushRun page fname newBlockSize fileSize run
            let more ← remapSlices rest (some (beginRun s sl.byteLen entry))
            return out ++ more

def remapOneFile (blkMap : Std.TreeMap Nat CachedSlice) :
    Except Fault (List (InMemCacheBlock × InMemCacheDataEntry)) :=
  remapSlices page fname newBlockSize fileSize blkMap.toList none

end Walk

def remapFiles (page newBlockSize : Nat) (fileSizeByPath : AList fun _ : String => Nat) :
    List (Σ _ : String, Std.TreeMap Nat CachedSlice) →
      Except Fault (List (InMemCacheBlock × InMemCacheDataEntry))
  | [] => .ok []
  | ⟨fname, blkMap⟩ :: files => do
    let out ← remapOneFile page fname newBlockSize (fileSizeByPath.lookup fname) blkMap
    let more ← remapFiles page newBlockSize fileSizeByPath files
    return out ++ more

def remapInMemCacheEntries (page : Nat) (hash : HashOrder (Σ _ : String, Std.TreeMap Nat CachedSlice))
    (taken : TakenEntries) (newBlockSize : Nat) (fileSizeByPath : AList fun _ : String => Nat) :
    Except Fault (List (InMemCacheBlock × InMemCacheDataEntry)) :=
  if newBlockSize = 0 then .ok []
  else do
    let byFile ← buildFileIndex taken
    remapFiles page newBlockSize fileSizeByPath (hash.order byFile.entries)

end ReadCacheFs
