import Rustorch.Cpu.Conv
import Rustorch.Lib.RunningMax

/-!
# Scans along one axis

`argmax`, `argmin` and `cumsum` walk the multi-indices of the shape with the scanned axis set to 1,
and at each the cells of that axis.  They decode at least one multi-index, so on a shape with an
axis of size 0 beside the scanned one they take a remainder by zero.
-/

namespace Rustorch
namespace Cpu

open Rustorch.Core Outcome List

section Model

variable {F : Type}

def validateDim (src : Tensor F) (dim : Nat) (op : String) : Outcome BackendError Unit :=
  if src.shape.length ≤ dim then
    .err (.indexOutOfBounds op dim src.shape.length)
  else
    .ok ()

/-- The first cell of a line along the axis, and the stride of the axis. -/
def lineStart (shape walked : Shape) (dim linear : Nat) : Option (Nat × Nat) := do
  let coords ← decodeChecked linear walked
  let stride ← (contiguousStrides shape)[dim]?
  some (flatIndex (coords.set dim 0) (contiguousStrides shape), stride)

/-- `base + k * stride`. -/
def lineCell (line : Nat × Nat) (k : Nat) : Nat :=
  (line.1 + k * line.2) % u64Size

/-- The scan of one line for its best cell. -/
def bestOnLine (better : F → F → Bool) (buf : List F) (dimSize : Nat) (line : Nat × Nat) :
    Option Int := do
  let first ← buf[line.1]?
  let best ← (range' 1 (dimSize - 1)).foldlM (fun best k => do
    let v ← buf[lineCell line k]?
    some (RunningMax.step (fun old new => better new old) best (v, asI64 k))) (first, 0)
  some best.2

def argReduce (T : Dtype) (src : Tensor F) (dim : Nat) (keepdim : Bool) (better : F → F → Bool) :
    Outcome BackendError (Tensor Int) := do
  let buf ← collect T src
  let outShape := src.shape.set dim 1
  let dimSize ← axisSize src.shape dim
  let nOut := max (numel outShape) 1
  withCapacity .i64 nOut
  let out ← (range nOut).mapM fun linear => Outcome.expect do
    let line ← lineStart src.shape outShape dim linear
    bestOnLine better buf dimSize line
  fromVecOrOom .i64 (if keepdim then outShape else outShape.eraseIdx dim) out nOut

/-- The element types that the scans have an arm for. -/
def scannable (T : Dtype) : Bool :=
  T = .f32 ∨ T = .f64 ∨ T = .i64 ∨ T = .i32

/-- `argmax` and `argmin`, which differ in their name and their comparison. -/
def argDispatch (op : String) (better : F → F → Bool) (src : Tensor F) (dim : Nat)
    (keepdim : Bool) : Outcome BackendError (Tensor Int) := do
  validateDim src dim op
  if scannable src.layout.dtype then
    argReduce src.layout.dtype src dim keepdim better
  else
    .err (.dtypeMismatch op src.layout.dtype src.layout.dtype)

def argmax [LT F] [DecidableLT F] (src : Tensor F) (dim : Nat) (keepdim : Bool) :
    Outcome BackendError (Tensor Int) :=
  argDispatch "argmax" (fun a b => a > b) src dim keepdim

def argmin [LT F] [DecidableLT F] (src : Tensor F) (dim : Nat) (keepdim : Bool) :
    Outcome BackendError (Tensor Int) :=
  argDispatch "argmin" (fun a b => a < b) src dim keepdim

/-- The accumulation along one line. -/
def accumulateLine (op : F → F → F) (init : F) (buf : List F) (dimSize : Nat) (line : Nat × Nat)
    (out : List F) : Option (List F) := do
  let last ← (range dimSize).foldlM (fun (s : List F × F) k => do
    let v ← buf[lineCell line k]?
    let out ← LoopNest.put s.1 (lineCell line k) (op s.2 v)
    some (out, op s.2 v)) (out, init)
  some last.1

def cumAlong (T : Dtype) (src : Tensor F) (dim : Nat) (init : F) (op : F → F → F) :
    Outcome BackendError (Tensor F) := do
  let buf ← collect T src
  let dimSize ← axisSize src.shape dim
  let n := src.numel
  let out ← filled T init n
  let otherShape := src.shape.set dim 1
  let nOther := max (numel otherShape) 1
  let out ← Outcome.expect ((range nOther).foldlM (fun out linear => do
    let line ← lineStart src.shape otherShape dim linear
    accumulateLine op init buf dimSize line out) out)
  fromVecOrOom T src.shape out n

def cumsum [Zero F] [Add F] (src : Tensor F) (dim : Nat) : Outcome BackendError (Tensor F) := do
  validateDim src dim "cumsum"
  if scannable src.layout.dtype then
    cumAlong src.layout.dtype src dim 0 (· + ·)
  else
    .err (.dtypeMismatch "cumsum" src.layout.dtype src.layout.dtype)

end Model

/-! ## An axis of size 0 beside the scanned one -/

section Empty

variable {F : Type} {src : Tensor F} {dim : Nat}

variable {S : Shape} {T : Dtype} {keepdim : Bool} {better : F → F → Bool} {out : Tensor Int}

theorem zero_mem_set (h0 : 0 ∈ S) (hdim : 0 < S.getD dim 0) (k : Nat) : 0 ∈ S.set dim k := by
  obtain ⟨i, hi, hzero⟩ := getElem_of_mem h0
  have hne : dim ≠ i := by
    rintro rfl
    rw [getD_eq_getElem _ _ hi, hzero] at hdim
    exact absurd hdim (lt_irrefl 0)
  refine mem_of_getElem? (i := i) ?_
  rw [getElem?_set_ne hne, getElem?_eq_getElem hi, hzero]

theorem lineStart_zero (h0 : 0 ∈ S) (hdim : 0 < S.getD dim 0) (linear : Nat) :
    lineStart S (S.set dim 1) dim linear = none := by
  rw [lineStart, decodeChecked_eq, if_pos (zero_mem_set h0 hdim 1)]
  rfl

/-- The loops decode multi-index 0 first. -/
theorem range_max_one (n : Nat) : ∃ rest, range (max n 1) = 0 :: rest := by
  obtain ⟨m, hm⟩ : ∃ m, max n 1 = m + 1 := ⟨max n 1 - 1, by omega⟩
  exact ⟨(range m).map Nat.succ, by rw [hm, range_succ_eq_map]⟩

variable (h0 : 0 ∈ src.shape)

include h0

variable (hdim : 0 < src.shape.getD dim 0)

include hdim

theorem argReduce_zero :
    argReduce T src dim keepdim better ≠ .ok out := by
  intro h
  obtain ⟨buf, _, h⟩ := bind_eq_ok.1 h
  obtain ⟨dimSize, _, h⟩ := bind_eq_ok.1 h
  obtain ⟨_, _, h⟩ := bind_eq_ok.1 h
  obtain ⟨values, hloop, _⟩ := bind_eq_ok.1 h
  obtain ⟨rest, hrest⟩ := range_max_one (numel (src.shape.set dim 1))
  rw [hrest, mapM_panic] at hloop
  · cases hloop
  · rw [lineStart_zero h0 hdim]
    rfl

theorem cumAlong_zero {init : F} {op : F → F → F} {out : Tensor F} :
    cumAlong T src dim init op ≠ .ok out := by
  intro h
  obtain ⟨buf, _, h⟩ := bind_eq_ok.1 h
  obtain ⟨dimSize, _, h⟩ := bind_eq_ok.1 h
  obtain ⟨start, _, h⟩ := bind_eq_ok.1 h
  obtain ⟨values, hloop, _⟩ := bind_eq_ok.1 h
  obtain ⟨rest, hrest⟩ := range_max_one (numel (src.shape.set dim 1))
  rw [hrest, foldlM_cons, lineStart_zero h0 hdim] at hloop
  cases hloop

theorem argDispatch_zero {op : String} :
    argDispatch op better src dim keepdim ≠ .ok out := by
  intro h
  obtain ⟨_, _, h⟩ := bind_eq_ok.1 h
  split_ifs at h
  exact argReduce_zero h0 hdim h

theorem cumsum_zero [Zero F] [Add F] {out : Tensor F} :
    cumsum src dim ≠ .ok out := by
  intro h
  obtain ⟨_, _, h⟩ := bind_eq_ok.1 h
  split_ifs at h
  exact cumAlong_zero h0 hdim h

end Empty

end Cpu
end Rustorch
