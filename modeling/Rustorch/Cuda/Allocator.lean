import Mathlib.Data.Nat.Log
import Rustorch.Lib.Machine

/-!
# The caching device allocator

`allocator.rs`: a segment is one device allocation, cut into blocks that are linked in address
order.  Free blocks wait in bins, one queue for each power of two and stream; a block that was
recorded on a stream while in use waits in `pending` after `free`.  Streams are their raw handles.
-/

namespace Rustorch
namespace Cuda

open Function

inductive CudaError
  | oom
  | unsupported (msg : String)
  deriving DecidableEq, Repr

structure DevPtr where
  addr : Nat
  size : Nat
  deriving DecidableEq, Repr

inductive BlockState
  | free
  | inUse
  | freePending
  deriving DecidableEq, Repr

structure Block where
  addr : Nat
  size : Nat
  segmentId : Nat
  prev : Option Nat
  next : Option Nat
  state : BlockState
  recordStreams : List Nat
  deriving DecidableEq, Repr

/-- What is read past the end of the block table, where the code would panic. -/
def Block.absent : Block where
  addr := 0
  size := 0
  segmentId := 0
  prev := none
  next := none
  state := .free
  recordStreams := []

structure Segment where
  baseAddr : Nat
  total : Nat
  blocks : List Nat
  stream : Nat
  deriving DecidableEq, Repr

structure AllocatorStats where
  allocatedBytes : Nat
  reservedBytes : Nat
  peakAllocatedBytes : Nat
  allocCount : Nat
  freeCount : Nat
  cacheHits : Nat
  cacheMisses : Nat
  oomCount : Nat
  trimCount : Nat
  deriving DecidableEq, Repr

def AllocatorStats.zero : AllocatorStats where
  allocatedBytes := 0
  reservedBytes := 0
  peakAllocatedBytes := 0
  allocCount := 0
  freeCount := 0
  cacheHits := 0
  cacheMisses := 0
  oomCount := 0
  trimCount := 0

/-- `next_power_of_two`, at least a page; above `2^63` it wraps to zero. -/
def roundUpPow2 (n : Nat) : Nat :=
  let min := 4096
  if n ≤ min then min else 2 ^ Nat.clog 2 n % u64Size

def trailingZeros : Nat → Nat → Nat
  | 0, _ => 0
  | bits + 1, x => if x % 2 = 1 then 0 else trailingZeros bits (x / 2) + 1

def binIndex (size : Nat) : Nat :=
  trailingZeros 64 (roundUpPow2 size) - 12

structure AllocatorInner where
  bins : Nat → Option (List (List Nat))
  blocks : List Block
  segments : List Segment
  nextSynthAddr : Nat
  stats : AllocatorStats
  pending : Nat → List Nat

def AllocatorInner.new : AllocatorInner where
  bins := fun _ => none
  blocks := []
  segments := []
  nextSynthAddr := 0
  stats := AllocatorStats.zero
  pending := fun _ => []

namespace AllocatorInner

/-! ## The block table -/

def block (s : AllocatorInner) (idx : Nat) : Block :=
  s.blocks.getD idx Block.absent

def setBlock (s : AllocatorInner) (idx : Nat) (b : Block) : AllocatorInner :=
  { s with blocks := s.blocks.set idx b }

def streamOf (s : AllocatorInner) (segmentId : Nat) : Option Nat :=
  s.segments[segmentId]?.map Segment.stream

def devPtr (s : AllocatorInner) (idx : Nat) : DevPtr where
  addr := (s.block idx).addr
  size := (s.block idx).size

/-- `position` of the block in use at an address. -/
def findInUse (s : AllocatorInner) (addr : Nat) : Option Nat :=
  s.blocks.findIdx? (fun b => b.addr == addr && b.state == .inUse)

/-! ## Bins -/

/-- The queues of a stream, at least `bin + 1` of them. -/
def widen (bins : Option (List (List Nat))) (bin : Nat) : List (List Nat) :=
  let bins := bins.getD (List.replicate 32 [])
  bins ++ List.replicate (bin + 1 - bins.length) []

def ensureBins (s : AllocatorInner) (stream bin : Nat) : AllocatorInner :=
  { s with bins := update s.bins stream (some (widen (s.bins stream) bin)) }

def pushBin (s : AllocatorInner) (stream bin idx : Nat) : AllocatorInner :=
  let queues := widen (s.bins stream) bin
  { s with
    bins := update s.bins stream (some (queues.set bin (queues.getD bin [] ++ [idx]))) }

/-- The front of a queue. -/
def front (s : AllocatorInner) (stream bin : Nat) : Option Nat :=
  ((s.bins stream).getD []).getD bin [] |>.head?

def popFront (s : AllocatorInner) (stream bin : Nat) : AllocatorInner :=
  let queues := (s.bins stream).getD []
  { s with bins := update s.bins stream (some (queues.set bin (queues.getD bin []).tail)) }

/-- The first occurrence of `idx` leaves every queue of its stream. -/
def unbin (s : AllocatorInner) (idx : Nat) : AllocatorInner :=
  match s.streamOf (s.block idx).segmentId with
  | none => s
  | some stream =>
    match s.bins stream with
    | none => s
    | some queues =>
      { s with
        bins := update s.bins stream (some (queues.map (fun q => q.erase idx))) }

/-! ## Splitting and fresh segments -/

/-- The smallest free block of the stream that is large enough, the first of these. -/
def findSplittable (s : AllocatorInner) (stream want : Nat) : Option Nat :=
  ((List.range s.blocks.length).foldl
    (fun best i =>
      let b := s.block i
      if b.state = .free ∧ want ≤ b.size ∧ s.streamOf b.segmentId = some stream then
        match best with
        | none => some (i, b.size - want)
        | some (j, least) => if b.size - want < least then some (i, b.size - want) else some (j, least)
      else
        best)
    none).map Prod.fst

def use (s : AllocatorInner) (idx : Nat) : AllocatorInner :=
  s.setBlock idx { s.block idx with state := .inUse, recordStreams := [] }

/-- `blocks[n].prev = Some(idx)` for a next block, if there is one. -/
def relink (s : AllocatorInner) (next : Option Nat) (idx : Nat) : AllocatorInner :=
  match next with
  | none => s
  | some n => s.setBlock n { s.block n with prev := some idx }

/-- The right part of a block that is cut at `want`. -/
def remainder (b : Block) (idx want : Nat) : Block where
  addr := (b.addr + want) % u64Size
  size := b.size - want
  segmentId := b.segmentId
  prev := some idx
  next := b.next
  state := .free
  recordStreams := []

/-- The right part becomes a block of its own, in the bin of its size. -/
def cut (s : AllocatorInner) (idx want : Nat) : AllocatorInner :=
  let b := s.block idx
  let new := s.blocks.length
  let s : AllocatorInner := { s with blocks := s.blocks ++ [remainder b idx want] }
  let s := s.setBlock idx { b with size := want, next := some new }
  let s := s.relink b.next new
  let s : AllocatorInner :=
    { s with
      segments := s.segments.modify b.segmentId (fun seg => { seg with blocks := seg.blocks ++ [new] }) }
  s.pushBin ((s.streamOf b.segmentId).getD 0) (binIndex (b.size - want)) new

def splitAndUse (s : AllocatorInner) (idx want : Nat) : AllocatorInner :=
  if (s.block idx).size > want then (s.cut idx want).use idx else s.use idx

/-- The address of the next segment: the counter moves by the size of the new segment. -/
def freshAddr (s : AllocatorInner) (size : Nat) : Nat :=
  if s.nextSynthAddr = 0 then 0x100000000 else (s.nextSynthAddr + (size + 0x1000)) % u64Size

/-- The synthetic allocation always succeeds. -/
def allocSegment (s : AllocatorInner) (size stream : Nat) :
    AllocatorInner × Except CudaError Nat :=
  let blkIdx := s.blocks.length
  let segIdx := s.segments.length
  let base := s.freshAddr size
  let blk : Block :=
    { addr := base, size := size, segmentId := segIdx, prev := none, next := none, state := .inUse,
      recordStreams := [] }
  let seg : Segment := { baseAddr := base, total := size, blocks := [blkIdx], stream := stream }
  ({ s with
      blocks := s.blocks ++ [blk]
      segments := s.segments ++ [seg]
      nextSynthAddr := base
      stats := { s.stats with reservedBytes := (s.stats.reservedBytes + size) % u64Size } },
    .ok blkIdx)

/-! ## Coalescing -/

/-- Block `l` takes over its right neighbour `r`, which stays behind with size 0. -/
def absorb (s : AllocatorInner) (l r : Nat) : AllocatorInner :=
  let size := (s.block r).size
  let next := (s.block r).next
  let s := s.setBlock l { s.block l with size := ((s.block l).size + size) % u64Size, next := next }
  let s := s.relink next l
  let s := s.unbin r
  s.setBlock r { s.block r with size := 0 }

/-- The left block after a merge. -/
abbrev grown (s : AllocatorInner) (l r : Nat) : Block :=
  { s.block l with
    size := ((s.block l).size + (s.block r).size) % u64Size, next := (s.block r).next }

def mergePrev : Nat → AllocatorInner → Nat → AllocatorInner × Nat
  | 0, s, cur => (s, cur)
  | fuel + 1, s, cur =>
    match (s.block cur).prev with
    | none => (s, cur)
    | some p =>
      if (s.block p).state = .free then mergePrev fuel (s.absorb p cur) p else (s, cur)

def mergeNext : Nat → AllocatorInner → Nat → AllocatorInner
  | 0, s, _ => s
  | fuel + 1, s, cur =>
    match (s.block cur).next with
    | none => s
    | some n => if (s.block n).state = .free then mergeNext fuel (s.absorb cur n) cur else s

/-- Every turn of the two loops leaves one block behind, so the table's length bounds them. -/
def coalesceAndReturn (s : AllocatorInner) (idx : Nat) : AllocatorInner :=
  let fuel := s.blocks.length
  let (s, cur) := mergePrev fuel s idx
  let s := mergeNext fuel s cur
  let b := s.block cur
  s.pushBin ((s.streamOf b.segmentId).getD 0) (binIndex b.size) cur

/-! ## Trimming -/

/-- Every block of the segment is free and none was merged away. -/
def allFree (s : AllocatorInner) (seg : Segment) : Bool :=
  seg.blocks.all (fun idx => (s.block idx).state = .free ∧ 0 < (s.block idx).size)

def drop (s : AllocatorInner) (idx : Nat) : AllocatorInner :=
  s.setBlock idx { s.block idx with state := .free, size := 0 }

def trimFreeSegments (s : AllocatorInner) : AllocatorInner :=
  let trimmed := s.segments.filter s.allFree
  let reserved := trimmed.foldl
    (fun bytes seg => (u64Size + bytes - seg.total) % u64Size) s.stats.reservedBytes
  let s := (trimmed.flatMap Segment.blocks).foldl drop s
  { s with stats := { s.stats with reservedBytes := reserved } }

/-! ## The calls -/

def countAlloc (s : AllocatorInner) (rounded : Nat) : AllocatorInner :=
  let bytes := (s.stats.allocatedBytes + rounded) % u64Size
  { s with
    stats :=
      { s.stats with
        allocatedBytes := bytes
        peakAllocatedBytes := max s.stats.peakAllocatedBytes bytes
        allocCount := s.stats.allocCount + 1 } }

def countHit (s : AllocatorInner) : AllocatorInner :=
  { s with stats := { s.stats with cacheHits := s.stats.cacheHits + 1 } }

def countMiss (s : AllocatorInner) : AllocatorInner :=
  { s with stats := { s.stats with cacheMisses := s.stats.cacheMisses + 1 } }

def countTrim (s : AllocatorInner) : AllocatorInner :=
  { s with stats := { s.stats with trimCount := s.stats.trimCount + 1 } }

def countOom (s : AllocatorInner) : AllocatorInner :=
  { s with stats := { s.stats with oomCount := s.stats.oomCount + 1 } }

/-- A fresh segment, after a trim if the first attempt fails. -/
def allocFresh (s : AllocatorInner) (rounded stream : Nat) :
    AllocatorInner × Except CudaError DevPtr :=
  match s.allocSegment rounded stream with
  | (s, .ok idx) => ((s.countAlloc rounded).countMiss, .ok (s.devPtr idx))
  | (s, .error _) =>
    match s.trimFreeSegments.countTrim.allocSegment rounded stream with
    | (s, .ok idx) => ((s.countAlloc rounded).countMiss, .ok (s.devPtr idx))
    | (s, .error e) => (s.countOom, .error e)

def alloc (s : AllocatorInner) (size stream : Nat) : AllocatorInner × Except CudaError DevPtr :=
  if size = 0 then
    (s, .ok { addr := 0, size := 0 })
  else
    let rounded := roundUpPow2 size
    let bin := binIndex size
    let s := s.ensureBins stream bin
    match s.front stream bin with
    | some idx =>
      let s := (s.popFront stream bin).use idx
      ((s.countAlloc rounded).countHit, .ok (s.devPtr idx))
    | none =>
      match s.findSplittable stream rounded with
      | some idx =>
        let s := s.splitAndUse idx rounded
        ((s.countAlloc rounded).countHit, .ok (s.devPtr idx))
      | none => s.allocFresh rounded stream

def hex (n : Nat) : String :=
  "0x" ++ String.ofList (Nat.toDigits 16 n)

def countFree (s : AllocatorInner) (size : Nat) : AllocatorInner :=
  { s with
    stats :=
      { s.stats with
        allocatedBytes := s.stats.allocatedBytes - size
        freeCount := s.stats.freeCount + 1 } }

def addPending (idx : Nat) (pending : Nat → List Nat) (stream : Nat) : Nat → List Nat :=
  update pending stream (pending stream ++ [idx])

def free (s : AllocatorInner) (ptr : DevPtr) : AllocatorInner × Except CudaError Unit :=
  if ptr.size = 0 then
    (s, .ok ())
  else
    match s.findInUse ptr.addr with
    | none =>
      let addr := hex ptr.addr
      (s, .error (.unsupported s!"free: block @ {addr} not in-use"))
    | some idx =>
      let b := s.block idx
      if b.recordStreams = [] then
        let s := (s.setBlock idx { b with state := .free }).countFree b.size
        (s.coalesceAndReturn idx, .ok ())
      else
        let s := (s.setBlock idx { b with state := .freePending }).countFree b.size
        ({ s with pending := b.recordStreams.foldl (addPending idx) s.pending }, .ok ())

def recordStream (s : AllocatorInner) (ptr : DevPtr) (stream : Nat) :
    AllocatorInner × Except CudaError Unit :=
  match s.findInUse ptr.addr with
  | none => (s, .error (.unsupported "record_stream on non-live block"))
  | some idx =>
    let b := s.block idx
    (s.setBlock idx { b with recordStreams := b.recordStreams ++ [stream] }, .ok ())

/-- One drained entry: the stream is taken off the block's list, and the last one releases it. -/
def drainOne (stream : Nat) (acc : AllocatorInner × Nat) (idx : Nat) : AllocatorInner × Nat :=
  let (s, released) := acc
  let b := s.block idx
  let s := s.setBlock idx { b with recordStreams := b.recordStreams.erase stream }
  if (s.block idx).recordStreams = [] ∧ (s.block idx).state = .freePending then
    ((s.setBlock idx { s.block idx with state := .free }).coalesceAndReturn idx, released + 1)
  else
    (s, released)

def synchronizeStream (s : AllocatorInner) (stream : Nat) : AllocatorInner × Nat :=
  let drained := s.pending stream
  let s := { s with pending := update s.pending stream [] }
  drained.foldl (drainOne stream) (s, 0)

def emptyCache (s : AllocatorInner) : AllocatorInner × Nat :=
  let before := s.stats.reservedBytes
  let s := s.trimFreeSegments.countTrim
  (s, (u64Size + before - s.stats.reservedBytes) % u64Size)

end AllocatorInner

/-! ## Runs -/

inductive Call
  | alloc (size stream : Nat)
  | free (ptr : DevPtr)
  | recordStream (ptr : DevPtr) (stream : Nat)
  | synchronizeStream (stream : Nat)
  | emptyCache
  deriving DecidableEq, Repr

inductive Reply
  | ptr (r : Except CudaError DevPtr)
  | done (r : Except CudaError Unit)
  | count (n : Nat)

def AllocatorInner.answer (s : AllocatorInner) : Call → AllocatorInner × Reply
  | .alloc size stream => (s.alloc size stream).map id Reply.ptr
  | .free ptr => (s.free ptr).map id Reply.done
  | .recordStream ptr stream => (s.recordStream ptr stream).map id Reply.done
  | .synchronizeStream stream => (s.synchronizeStream stream).map id Reply.count
  | .emptyCache => s.emptyCache.map id Reply.count

end Cuda
end Rustorch
