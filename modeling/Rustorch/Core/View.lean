import Rustorch.Core.Layout

/-!
# Tensors and view operations

A tensor is a storage and a layout.  A view operation keeps the storage and changes the layout
only.  `Reachable` are the tensors that the constructors and successful view operations give,
for sizes whose products fit in a machine word.
-/

namespace Rustorch
namespace Core

open Layout

/-! ## View operations on layouts -/

inductive ViewError
  | nonContiguous
  | numelMismatch (srcNumel dstNumel : Nat)
  | permuteRankMismatch (srcNdim permLen : Nat)
  | invalidPermutation (perm : List Nat)
  | dimOutOfRange (dim ndim : Nat)
  | narrowOutOfRange (dim start endOrLen dimSize : Nat)
  | notSqueezable (dim size : Nat)
  deriving DecidableEq, Repr

namespace Layout

/-- Strict zero-copy reshape.  The new layout starts at offset 0. -/
def view (l : Layout) (newShape : Shape) : Except ViewError Layout :=
  if !l.isContiguous then
    .error .nonContiguous
  else if Core.numel newShape ≠ l.numel then
    .error (.numelMismatch l.numel (Core.numel newShape))
  else
    .ok (contiguous newShape l.dtype)

def reshape (l : Layout) (newShape : Shape) : Except ViewError Layout :=
  if l.isContiguous then
    l.view newShape
  else
    .error .nonContiguous

/-- Swap two axes. -/
def transpose (l : Layout) (d0 d1 : Nat) : Except ViewError Layout :=
  if h0 : d0 < l.axes.length then
    if h1 : d1 < l.axes.length then
      .ok (ofAxes ((l.axes.set d0 l.axes[d1]).set d1 l.axes[d0]) l.storageOffset l.offset_lt
        l.dtype)
    else
      .error (.dimOutOfRange d1 l.ndim)
  else
    .error (.dimOutOfRange d0 l.ndim)

/-- The validity loop of `permute`; `seen` marks the axes already named. -/
def validPermutation (ndim : Nat) : List Nat → List Bool → Bool
  | [], _ => true
  | p :: perm, seen =>
    if ndim ≤ p ∨ seen[p]? = some true then
      false
    else
      validPermutation ndim perm (seen.set p true)

def permute (l : Layout) (perm : List Nat) : Except ViewError Layout :=
  if perm.length ≠ l.ndim then
    .error (.permuteRankMismatch l.ndim perm.length)
  else if !validPermutation l.ndim perm (List.replicate l.ndim false) then
    .error (.invalidPermutation perm)
  else
    .ok (ofAxes (perm.filterMap (fun p => l.axes[p]?)) l.storageOffset l.offset_lt l.dtype)

/-- Insert a size-1 axis; it takes the stride of the axis it is put before. -/
def unsqueeze (l : Layout) (dim : Nat) : Except ViewError Layout :=
  if l.ndim < dim then
    .error (.dimOutOfRange dim l.ndim)
  else
    let insertedStride := (l.axes[dim]?.map Axis.stride).getD 1
    .ok (ofAxes (l.axes.insertIdx dim { dim := 1, stride := insertedStride })
      l.storageOffset l.offset_lt l.dtype)

/-- Remove a size-1 axis. -/
def squeeze (l : Layout) (dim : Nat) : Except ViewError Layout :=
  match l.axes[dim]? with
  | none => .error (.dimOutOfRange dim l.ndim)
  | some a =>
    if a.dim ≠ 1 then
      .error (.notSqueezable dim a.dim)
    else
      .ok (ofAxes (l.axes.eraseIdx dim) l.storageOffset l.offset_lt l.dtype)

/-- `offset.saturating_add((start as isize * stride).max(0) as usize)`. -/
def advanceOffset (offset start : Nat) (stride : Int) : Nat :=
  min (offset + (max (wrapI64 (asI64 start * stride)) 0).toNat) (u64Size - 1)

theorem advanceOffset_lt (offset start : Nat) (stride : Int) :
    advanceOffset offset start stride < u64Size := by
  have hsize : 0 < u64Size := by
    decide
  unfold advanceOffset
  omega

/-- The range `[start, start + length)` of one axis. -/
def narrow (l : Layout) (dim start length : Nat) : Except ViewError Layout :=
  match l.axes[dim]? with
  | none => .error (.dimOutOfRange dim l.ndim)
  | some a =>
    if u64Size ≤ start + length ∨ a.dim < start + length then
      .error (.narrowOutOfRange dim start length a.dim)
    else
      .ok (ofAxes (l.axes.set dim { a with dim := length })
        (advanceOffset l.storageOffset start a.stride)
        (advanceOffset_lt l.storageOffset start a.stride) l.dtype)

/-- Every `step`-th element of `[start, end)` of one axis. -/
def slice (l : Layout) (dim start stop step : Nat) : Except ViewError Layout :=
  match l.axes[dim]? with
  | none => .error (.dimOutOfRange dim l.ndim)
  | some a =>
    if stop < start ∨ a.dim < stop ∨ step = 0 then
      .error (.narrowOutOfRange dim start stop a.dim)
    else
      let span := stop - start
      let newDim := if span = 0 then 0 else (span - 1) / step + 1
      .ok (ofAxes
        (l.axes.set dim { dim := newDim, stride := wrapI64 (a.stride * asI64 step) })
        (advanceOffset l.storageOffset start a.stride)
        (advanceOffset_lt l.storageOffset start a.stride) l.dtype)

end Layout

/-- A view call with its arguments. -/
inductive ViewOp
  | view (newShape : Shape)
  | reshape (newShape : Shape)
  | transpose (d0 d1 : Nat)
  | permute (perm : List Nat)
  | unsqueeze (dim : Nat)
  | squeeze (dim : Nat)
  | narrow (dim start length : Nat)
  | slice (dim start stop step : Nat)
  deriving DecidableEq, Repr

def Layout.runView (l : Layout) : ViewOp → Except ViewError Layout
  | .view s => l.view s
  | .reshape s => l.reshape s
  | .transpose d0 d1 => l.transpose d0 d1
  | .permute perm => l.permute perm
  | .unsqueeze dim => l.unsqueeze dim
  | .squeeze dim => l.squeeze dim
  | .narrow dim start length => l.narrow dim start length
  | .slice dim start stop step => l.slice dim start stop step

/-! ## Tensors -/

def Dtype.byteSize : Dtype → Nat
  | .f32 => 4
  | .f64 => 8
  | .f16 => 2
  | .bf16 => 2
  | .i64 => 8
  | .i32 => 4
  | .i8 => 1
  | .bool => 1

/-- A CPU tensor; `storage` lists the elements of its buffer. -/
structure Tensor (α : Type) where
  storage : List α
  layout : Layout

inductive TensorError
  | shapeDataMismatch (expected got : Nat) (shape : List Nat)
  deriving DecidableEq, Repr

section Constructors

variable {α : Type}

def fromVecTyped (T : Dtype) (shape : Shape) (data : List α) : Except TensorError (Tensor α) :=
  if data.length ≠ numel shape then
    .error (.shapeDataMismatch (numel shape) data.length shape)
  else
    .ok { storage := data, layout := contiguous shape T }

/-- The buffer is sized in bytes; `none` is the panic on a buffer over `isize::MAX` bytes. -/
def zerosDtype (zero : α) (shape : Shape) (dtype : Dtype) : Option (Tensor α) :=
  let byteLen := numel shape * dtype.byteSize % u64Size
  if byteLen < 2 ^ 63 then
    some
      { storage := List.replicate (byteLen / dtype.byteSize) zero
        layout := contiguous shape dtype }
  else
    none

namespace Tensor

def numel (t : Tensor α) : Nat :=
  t.layout.numel

def shape (t : Tensor α) : Shape :=
  t.layout.shape

def runView (t : Tensor α) (op : ViewOp) : Except ViewError (Tensor α) :=
  (t.layout.runView op).map (fun l => { storage := t.storage, layout := l })

theorem runView_eq_ok {t t' : Tensor α} {op : ViewOp} :
    t.runView op = .ok t' →
      ∃ l', t.layout.runView op = .ok l' ∧ t' = { storage := t.storage, layout := l' } := by
  intro h
  cases hrun : t.layout.runView op with
  | error e =>
    simp [runView, hrun, Except.map] at h
  | ok l' =>
    exact ⟨l', rfl, by simpa [runView, hrun, Except.map] using h.symm⟩

end Tensor

/-- The sizes a view call names have a product that fits in a machine word. -/
def ViewOp.Fits : ViewOp → Prop
  | .view s => s.prod < u64Size
  | .reshape s => s.prod < u64Size
  | _ => True

/-- Tensors from the constructors by successful view calls.  A vector holds at most `isize::MAX`
bytes. -/
inductive Reachable : Tensor α → Prop
  | fromVecTyped {T : Dtype} {shape : Shape} {data : List α} {t : Tensor α} :
      shape.prod < u64Size → data.length * T.byteSize < 2 ^ 63 →
        fromVecTyped T shape data = .ok t → Reachable t
  | zerosDtype {zero : α} {shape : Shape} {dtype : Dtype} {t : Tensor α} :
      shape.prod * dtype.byteSize < u64Size → zerosDtype zero shape dtype = some t → Reachable t
  | view {t t' : Tensor α} {op : ViewOp} :
      Reachable t → op.Fits → t.runView op = .ok t' → Reachable t'

end Constructors

end Core
end Rustorch
