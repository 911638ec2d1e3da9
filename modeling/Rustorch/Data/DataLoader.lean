import Rustorch.Cpu.IndexSelect
import Rustorch.Cpu.ShapeOps
import Rustorch.Lib.Stride

/-!
# The distributed sampler

Every rank shuffles the same range with the same seed and takes one stride of it.  The ranks'
indices share out the range, and `len` counts them.
-/

namespace Rustorch
namespace Data

/-- `shuffle` of a generator seeded with the epoch. -/
abbrev Shuffle : Type := Nat → List Nat → List Nat

/-- The documented behaviour of `shuffle`. -/
def Shuffle.Permutes (shuffle : Shuffle) : Prop :=
  ∀ (seed : Nat) (xs : List Nat), (shuffle seed xs).Perm xs

/-- The fields that `new` asserts on carry its assertions. -/
structure DistributedSampler where
  n : Nat
  rank : Nat
  worldSize : Nat
  epoch : Nat
  worldSize_pos : 0 < worldSize
  rank_lt : rank < worldSize

namespace DistributedSampler

/-- The shuffled range, filtered by `i % world_size == rank`. -/
def iter (shuffle : Shuffle) (s : DistributedSampler) : List Nat :=
  Stride.stride s.worldSize s.rank (shuffle s.epoch (List.range s.n))

def len (s : DistributedSampler) : Nat :=
  let base := s.n / s.worldSize
  let extra := if s.rank < s.n % s.worldSize then 1 else 0
  base + extra

variable {shuffle : Shuffle} (hshuffle : shuffle.Permutes)

include hshuffle

theorem length_iter (s : DistributedSampler) : (s.iter shuffle).length = s.len := by
  rw [iter, Stride.length_stride_eq s.rank_lt, (hshuffle _ _).length_eq, List.length_range, len]

theorem iter_subperm (s : DistributedSampler) : (s.iter shuffle).Subperm (List.range s.n) := by
  refine List.Subperm.trans ?_ (hshuffle s.epoch (List.range s.n)).subperm
  exact (Stride.stride_sublist _ _ _).subperm

theorem lt_of_mem_iter {s : DistributedSampler} {i : Nat} : i ∈ s.iter shuffle → i < s.n := by
  intro hi
  exact List.mem_range.1 ((s.iter_subperm hshuffle).subset hi)

theorem flatMap_iter_perm {n worldSize epoch : Nat} (hw : 0 < worldSize) :
    ((List.range worldSize).flatMap fun rank =>
      Stride.stride worldSize rank (shuffle epoch (List.range n))).Perm (List.range n) :=
  (Stride.flatMap_stride_perm hw _).trans (hshuffle epoch (List.range n))

end DistributedSampler

end Data
end Rustorch

/-!
# The data loader

`iter_epoch` cuts the sampler's indices into chunks, fetches the rows of each chunk one by one and
joins them into a batch.  A `TensorDataset` fetches a row with `index_select`.
-/

namespace Rustorch
namespace Data

open Rustorch.Core Cpu Outcome

inductive DatasetError
  | shapeMismatch (row : Nat) (got expected : List Nat)
  | indexOutOfBounds (idx len : Nat)
  deriving DecidableEq, Repr

inductive DataLoaderError
  | dataset (e : DatasetError)
  | backend (m : String)
  deriving DecidableEq, Repr

section Model

variable {α β : Type}

/-- The number of rows; a tensor without axes has none. -/
def leadingDim (t : Tensor α) : Nat :=
  t.shape.headD 0

structure TensorDataset (α β : Type) where
  inputs : Tensor α
  targets : Tensor β
  len : Nat
  len_inputs : len = leadingDim inputs
  len_targets : len = leadingDim targets

namespace TensorDataset

def new (inputs : Tensor α) (targets : Tensor β) : Except DatasetError (TensorDataset α β) :=
  if h : leadingDim inputs = leadingDim targets then
    .ok
      { inputs := inputs
        targets := targets
        len := leadingDim inputs
        len_inputs := rfl
        len_targets := h }
  else
    .error (.shapeMismatch 0 targets.shape inputs.shape)

def get (ds : TensorDataset α β) (idx : Nat) : Outcome DatasetError (Tensor α × Tensor β) :=
  if ds.len ≤ idx then
    .err (.indexOutOfBounds idx ds.len)
  else do
    let idxT ← unwrap (ofExcept (fromVecTyped .i64 [1] [asI64 idx]))
    let inRow ← unwrap (indexSelect ds.inputs 0 idxT)
    let tgtRow ← unwrap (indexSelect ds.targets 0 idxT)
    return (inRow, tgtRow)

end TensorDataset

/-- A loader of a `TensorDataset` with a `DistributedSampler`. -/
structure DataLoader (α β : Type) where
  dataset : TensorDataset α β
  sampler : DistributedSampler
  batchSize : Nat
  dropLast : Bool

namespace DataLoader

def divCeil (n d : Nat) : Nat :=
  if 0 < n % d then n / d + 1 else n / d

/-- The division panics on a batch size of 0. -/
def numBatches (loader : DataLoader α β) : Option Nat :=
  let n := loader.sampler.len
  if loader.batchSize = 0 then
    none
  else if loader.dropLast then
    some (n / loader.batchSize)
  else
    some (divCeil n loader.batchSize)

/-- Both concatenations run before their results are looked at. -/
def collate (rows : List (Tensor α × Tensor β)) :
    Outcome DataLoaderError (Tensor α × Tensor β) :=
  match cat (rows.map Prod.fst) 0, cat (rows.map Prod.snd) 0 with
  | .panic, _ => .panic
  | _, .panic => .panic
  | .ok x, .ok y => .ok (x, y)
  | .err e, _ => .err (.backend e.display)
  | _, .err e => .err (.backend e.display)

def batch (dataset : TensorDataset α β) (chunk : List Nat) :
    Outcome DataLoaderError (Tensor α × Tensor β) := do
  let rows ← mapErr .dataset (chunk.mapM dataset.get)
  collate rows

/-- The chunks that the loop reaches. -/
def keptChunks (batchSize : Nat) (dropLast : Bool) (indices : List Nat) : List (List Nat) :=
  (Chunks.chunks batchSize indices).takeWhile fun chunk =>
    !(dropLast && decide (chunk.length < batchSize))

/-- One entry of the returned vector; `none` is a panic. -/
def entry : Outcome DataLoaderError (Tensor α × Tensor β) →
    Option (Except DataLoaderError (Tensor α × Tensor β))
  | .ok b => some (.ok b)
  | .err e => some (.error e)
  | .panic => none

def iterEpoch (shuffle : Shuffle) (loader : DataLoader α β) :
    Option (List (Except DataLoaderError (Tensor α × Tensor β))) :=
  if loader.batchSize = 0 then
    none
  else
    (keptChunks loader.batchSize loader.dropLast (loader.sampler.iter shuffle)).mapM fun chunk =>
      entry (batch loader.dataset chunk)

end DataLoader

end Model

end Data
end Rustorch
