import Mathlib.Algebra.BigOperators.Ring.List
import Rustorch.Lib.Machine
import Rustorch.Lib.MixedRadix

/-!
# Shapes and broadcasting

A shape is the list of its dimensions.  Two shapes are right-aligned to broadcast: a missing or
size-1 axis stretches to the other shape's size.  `expandStridesTo` gives the strides that read a
shape's row-major buffer as if it had the target shape.

The loops of the source run from the last axis to the first; they are recursions over reversed
dimension lists.
-/

namespace Rustorch
namespace Core

abbrev Shape : Type := List Nat

/-- Number of elements: the `usize` product of the dimensions, 1 for a scalar. -/
def numel (shape : Shape) : Nat :=
  shape.prod % u64Size

structure BroadcastError where
  lhs : List Nat
  rhs : List Nat
  axisFromRight : Nat
  deriving DecidableEq, Repr

/-! ## Broadcasting two shapes -/

/-- The common size of two aligned axes. -/
def broadcastDim (l r : Nat) : Option Nat :=
  if l = r then
    some l
  else if l = 1 then
    some r
  else if r = 1 then
    some l
  else
    none

/-- The loop of `broadcast_with` over reversed dimensions, `n` axes from axis `i` on: a missing
dimension counts as 1, and an error carries the axis index. -/
def broadcastRev : Nat → List Nat → List Nat → Nat → Except Nat (List Nat)
  | 0, _, _, _ => .ok []
  | n + 1, ls, rs, i =>
    match broadcastDim (ls.headD 1) (rs.headD 1) with
    | some d => (broadcastRev n ls.tail rs.tail (i + 1)).map (fun out => d :: out)
    | none => .error i

def broadcastWith (lhs rhs : Shape) : Except BroadcastError Shape :=
  match broadcastRev (max lhs.length rhs.length) lhs.reverse rhs.reverse 0 with
  | .ok out => .ok out.reverse
  | .error i => .error { lhs := lhs, rhs := rhs, axisFromRight := i }

/-! ## Row-major strides -/

/-- Strides of reversed dimensions, starting from `acc` for the innermost axis. -/
def stridesFrom : List Nat → Int → List Int
  | [], _ => []
  | d :: ds, acc => acc :: stridesFrom ds (wrapI64 (acc * asI64 d))

def computeContiguousStrides (shape : Shape) : List Int :=
  (stridesFrom shape.reverse 1).reverse

/-- The stride of one axis of the source, read at the size of the target. -/
def expandAxis (src dst : Nat) (stride : Int) : Option Int :=
  if src = dst then
    some stride
  else if src = 1 then
    some 0
  else
    none

/-- The loop of `expand_strides_to` over the aligned axes; an error carries the axis index. -/
def expandLoop : List Nat → List Nat → List Int → Nat → Except Nat (List Int)
  | src :: srcs, dst :: dsts, stride :: strides, i =>
    match expandAxis src dst stride with
    | some s => (expandLoop srcs dsts strides (i + 1)).map (fun out => s :: out)
    | none => .error i
  | _, _, _, _ => .ok []

def expandStridesTo (lhs target : Shape) : Except BroadcastError (List Int) :=
  if target.length < lhs.length then
    .error { lhs := lhs, rhs := target, axisFromRight := target.length }
  else
    let offset := target.length - lhs.length
    match expandLoop lhs (target.drop offset) (computeContiguousStrides lhs) 0 with
    | .ok out => .ok (List.replicate offset 0 ++ out)
    | .error i => .error { lhs := lhs, rhs := target, axisFromRight := lhs.length - 1 - i }

/-! ## Basic facts -/

@[simp] theorem length_stridesFrom (ds : List Nat) :
    ∀ acc : Int, (stridesFrom ds acc).length = ds.length := by
  induction ds with
  | nil =>
    intro acc
    rfl
  | cons d ds ih =>
    intro acc
    simp [stridesFrom, ih]

@[simp] theorem length_computeContiguousStrides (shape : Shape) :
    (computeContiguousStrides shape).length = shape.length := by
  simp [computeContiguousStrides]

variable {shape : Shape}

theorem numel_of_fits : shape.prod < u64Size → numel shape = shape.prod := by
  intro h
  exact Nat.mod_eq_of_lt h

theorem numel_lt (shape : Shape) : numel shape < u64Size :=
  Nat.mod_lt _ (by decide)

theorem numel_eq_zero_of_mem : 0 ∈ shape → numel shape = 0 := by
  intro h
  rw [numel, List.prod_eq_zero h, Nat.zero_mod]

end Core
end Rustorch

/-!
# Layouts

A layout says where the elements of a tensor lie in its storage: one size and one stride per axis,
an offset, and a cached contiguity flag.  Sizes and strides are kept together as axes, so that
they cannot differ in number, and the flag is a field with its defining equation.

`address` is the storage index of a multi-index, computed in wrapping `isize` arithmetic;
`stridedIndex_eq` says that the decoding loops of the source compute it.
-/

namespace Rustorch
namespace Core

inductive Dtype
  | f32
  | f64
  | f16
  | bf16
  | i64
  | i32
  | i8
  | bool
  deriving DecidableEq, Repr

structure Axis where
  dim : Nat
  stride : Int
  deriving DecidableEq, Repr

/-! ## Contiguity -/

/-- The loop of `is_contiguous_strides` over reversed axes: size-1 axes are free. -/
def contiguousWalk : List Axis → Int → Bool
  | [], _ => true
  | a :: rest, expected =>
    if a.dim ≠ 1 ∧ a.stride ≠ expected then
      false
    else
      contiguousWalk rest (wrapI64 (expected * asI64 a.dim))

def isContiguousStrides (axes : List Axis) : Bool :=
  if axes.isEmpty then
    true
  else if axes.any (fun a => a.dim == 0) then
    true
  else
    contiguousWalk axes.reverse 1

structure Layout where
  axes : List Axis
  storageOffset : Nat
  dtype : Dtype
  isContiguous : Bool
  offset_lt : storageOffset < u64Size
  flag_eq : isContiguous = isContiguousStrides axes

namespace Layout

def shape (l : Layout) : Shape :=
  l.axes.map Axis.dim

def strides (l : Layout) : List Int :=
  l.axes.map Axis.stride

def ndim (l : Layout) : Nat :=
  l.axes.length

def numel (l : Layout) : Nat :=
  Core.numel l.shape

/-- A layout with a recomputed flag. -/
def ofAxes (axes : List Axis) (offset : Nat) (h : offset < u64Size) (dtype : Dtype) : Layout where
  axes := axes
  storageOffset := offset
  dtype := dtype
  isContiguous := isContiguousStrides axes
  offset_lt := h
  flag_eq := rfl

end Layout

/-! ## Axes from separate sizes and strides -/

variable {shape : Shape} {coords : List Nat}

theorem map_dim_zipWith_mk : ∀ {strides : List Int}, strides.length = shape.length →
      (List.zipWith Axis.mk shape strides).map Axis.dim = shape := by
  induction shape with
  | nil =>
    intro strides _
    rfl
  | cons d shape ih =>
    intro strides h
    cases strides with
    | nil => cases h
    | cons s strides => simp [ih (Nat.succ.inj h)]

theorem map_stride_zipWith_mk : ∀ {strides : List Int}, strides.length = shape.length →
      (List.zipWith Axis.mk shape strides).map Axis.stride = strides := by
  induction shape with
  | nil =>
    intro strides h
    simpa using (List.length_eq_zero_iff.1 h).symm
  | cons d shape ih =>
    intro strides h
    cases strides with
    | nil => cases h
    | cons s strides => simp [ih (Nat.succ.inj h)]

theorem zipWith_mk_eq_self (axes : List Axis) :
    List.zipWith Axis.mk (axes.map Axis.dim) (axes.map Axis.stride) = axes := by
  induction axes with
  | nil => rfl
  | cons a axes ih => simp [ih]

/-! ## Row-major layouts -/

/-- Row-major axes of reversed dimensions, starting from stride `acc`. -/
def axesFrom : List Nat → Int → List Axis
  | [], _ => []
  | d :: ds, acc => { dim := d, stride := acc } :: axesFrom ds (wrapI64 (acc * asI64 d))

def contiguousAxes (shape : Shape) : List Axis :=
  (axesFrom shape.reverse 1).reverse

@[simp] theorem map_dim_axesFrom (ds : List Nat) :
    ∀ acc : Int, (axesFrom ds acc).map Axis.dim = ds := by
  induction ds with
  | nil =>
    intro acc
    rfl
  | cons d ds ih =>
    intro acc
    simp [axesFrom, ih]

@[simp] theorem map_stride_axesFrom (ds : List Nat) :
    ∀ acc : Int, (axesFrom ds acc).map Axis.stride = stridesFrom ds acc := by
  induction ds with
  | nil =>
    intro acc
    rfl
  | cons d ds ih =>
    intro acc
    simp [axesFrom, stridesFrom, ih]

theorem contiguousWalk_axesFrom (ds : List Nat) :
    ∀ acc : Int, contiguousWalk (axesFrom ds acc) acc = true := by
  induction ds with
  | nil =>
    intro acc
    rfl
  | cons d ds ih =>
    intro acc
    simp [axesFrom, contiguousWalk, ih]

theorem isContiguousStrides_contiguousAxes (shape : Shape) :
    isContiguousStrides (contiguousAxes shape) = true := by
  unfold isContiguousStrides
  split
  · rfl
  · split
    · rfl
    · simpa [contiguousAxes] using contiguousWalk_axesFrom shape.reverse 1

/-- The C-order layout of a shape, at offset 0, flagged contiguous. -/
def Layout.contiguous (shape : Shape) (dtype : Dtype) : Layout where
  axes := contiguousAxes shape
  storageOffset := 0
  dtype := dtype
  isContiguous := true
  offset_lt := by decide
  flag_eq := (isContiguousStrides_contiguousAxes shape).symm

@[simp] theorem Layout.shape_contiguous (shape : Shape) (dtype : Dtype) :
    (Layout.contiguous shape dtype).shape = shape := by
  simp [Layout.contiguous, Layout.shape, contiguousAxes, List.map_reverse]

theorem Layout.strides_contiguous (shape : Shape) (dtype : Dtype) :
    (Layout.contiguous shape dtype).strides = computeContiguousStrides shape := by
  simp [Layout.contiguous, Layout.strides, contiguousAxes, List.map_reverse,
    computeContiguousStrides]

/-! ## Decoding a linear index -/

/-- The decoding loop over reversed axes: remainder, quotient, and the running `isize` index. -/
def walkAxes : List Axis → Nat → Int → Int
  | [], _, acc => acc
  | a :: rest, idx, acc =>
    walkAxes rest (idx / a.dim) (wrapI64 (acc + wrapI64 (asI64 (idx % a.dim) * a.stride)))

/-- `strided_index`. -/
def stridedIndex (linear : Nat) (axes : List Axis) (offset : Nat) : Nat :=
  asU64 (walkAxes axes.reverse linear (asI64 offset))

/-- `linear_to_offset` of the CPU backend: the same loop over separate shape and stride slices. -/
def linearToOffset (linear : Nat) (shape : Shape) (strides : List Int) (base : Nat) : Nat :=
  stridedIndex linear (List.zipWith Axis.mk shape strides) base

/-- `Σ Jₖ * strideₖ` in exact arithmetic. -/
def displacement (axes : List Axis) (coords : List Nat) : Int :=
  MixedRadix.dot (coords.map Int.ofNat) (axes.map Axis.stride)

@[simp] theorem displacement_nil (coords : List Nat) : displacement [] coords = 0 := by
  simp [displacement, MixedRadix.dot]

theorem displacement_cons (a : Axis) (axes : List Axis) (c : Nat) (coords : List Nat) :
    displacement (a :: axes) (c :: coords) = c * a.stride + displacement axes coords := by
  simp [displacement]

/-- The storage index of a multi-index, cut to the machine word. -/
def address (axes : List Axis) (offset : Nat) (coords : List Nat) : Nat :=
  asU64 (offset + displacement axes coords)

/-- The multi-index of a linear index in shape order. -/
def coordsOf (shape : Shape) (linear : Nat) : List Nat :=
  (MixedRadix.digits shape.reverse linear).reverse

/-- A multi-index has one coordinate per axis, each below the axis size. -/
def InBounds (shape : Shape) (coords : List Nat) : Prop :=
  MixedRadix.Bounded shape coords

/-- The position of a multi-index in shape order. -/
def linearOf (shape : Shape) (coords : List Nat) : Nat :=
  MixedRadix.value shape.reverse coords.reverse

theorem inBounds_coordsOf {i : Nat} : 0 ∉ shape → InBounds shape (coordsOf shape i) := by
  intro h
  have hpos : ∀ d ∈ shape.reverse, 0 < d := by
    intro d hd
    refine Nat.pos_of_ne_zero ?_
    rintro rfl
    exact h (List.mem_reverse.1 hd)
  have hb := MixedRadix.bounded_digits hpos i
  simpa [InBounds, coordsOf] using List.forall₂_reverse_iff.2 hb

/-- An axis of size 0 leaves no multi-index. -/
theorem not_mem_of_inBounds : InBounds shape coords → 0 ∉ shape := by
  intro h
  induction h with
  | nil => simp
  | @cons d c ds cs hc _ ih =>
    intro h0
    rcases List.mem_cons.1 h0 with h0 | h0
    · omega
    · exact ih h0

theorem linearOf_lt : InBounds shape coords → linearOf shape coords < shape.prod := by
  intro h
  have hlt := MixedRadix.value_lt (List.forall₂_reverse_iff.2 h)
  rwa [(List.reverse_perm shape).prod_eq] at hlt

theorem linearOf_coordsOf {i : Nat} : i < shape.prod → linearOf shape (coordsOf shape i) = i := by
  intro h
  have hlt : i < shape.reverse.prod := by
    rwa [(List.reverse_perm shape).prod_eq]
  simpa [linearOf, coordsOf] using MixedRadix.value_digits_of_lt hlt

theorem coordsOf_linearOf :
    InBounds shape coords → coordsOf shape (linearOf shape coords) = coords := by
  intro h
  have hd := MixedRadix.digits_value (List.forall₂_reverse_iff.2 h)
  simp [coordsOf, linearOf, hd]

/-! ## The loops compute the address -/

/-- The loop is the exact sum, modulo the word size. -/
theorem walkAxes_modEq (axes : List Axis) :
    ∀ (idx : Nat) (acc : Int),
      walkAxes axes idx acc ≡
        acc + displacement axes (MixedRadix.digits (axes.map Axis.dim) idx) [ZMOD 2 ^ 64] := by
  induction axes with
  | nil =>
    intro idx acc
    simp [walkAxes, displacement, MixedRadix.digits]
  | cons a axes ih =>
    intro idx acc
    have hstep : wrapI64 (acc + wrapI64 (asI64 (idx % a.dim) * a.stride)) ≡
        acc + ((idx % a.dim : Nat) : Int) * a.stride [ZMOD 2 ^ 64] := by
      refine (wrapI64_modEq _).trans (Int.ModEq.add_left acc ?_)
      exact (wrapI64_modEq _).trans ((asI64_modEq _).mul_right _)
    have hrest := ih (idx / a.dim) (wrapI64 (acc + wrapI64 (asI64 (idx % a.dim) * a.stride)))
    have hsum : acc + displacement (a :: axes)
        (MixedRadix.digits ((a :: axes).map Axis.dim) idx) =
        acc + ((idx % a.dim : Nat) : Int) * a.stride +
          displacement axes (MixedRadix.digits (axes.map Axis.dim) (idx / a.dim)) := by
      simp [displacement, MixedRadix.digits]
      ring
    rw [hsum]
    exact hrest.trans (Int.ModEq.add_right _ hstep)

theorem displacement_reverse (axes : List Axis) :
    ∀ coords : List Nat, coords.length = axes.length →
      displacement axes.reverse coords.reverse = displacement axes coords := by
  induction axes with
  | nil =>
    intro coords h
    have hnil : coords = [] := List.length_eq_zero_iff.1 h
    subst hnil
    rfl
  | cons a axes ih =>
    intro coords h
    cases coords with
    | nil => simp at h
    | cons c coords =>
      have hlen : coords.length = axes.length := by
        simpa using h
      have hrest := ih coords hlen
      unfold displacement at hrest ⊢
      simp only [List.reverse_cons, List.map_append, List.map_cons, List.map_nil]
      rw [MixedRadix.dot_append _ _ _ _ (by simp [hlen]), hrest]
      simp [add_comm]

/-- The decoding loops of the source compute the address of the decoded multi-index. -/
theorem stridedIndex_eq (linear : Nat) (axes : List Axis) (offset : Nat) :
    stridedIndex linear axes offset =
      address axes offset (coordsOf (axes.map Axis.dim) linear) := by
  have hwalk := walkAxes_modEq axes.reverse linear (asI64 offset)
  have hoff := Int.ModEq.add_right
    (displacement axes.reverse
      (MixedRadix.digits (axes.reverse.map Axis.dim) linear)) (asI64_modEq offset)
  have hrev := displacement_reverse axes (coordsOf (axes.map Axis.dim) linear)
    (by simp [coordsOf])
  have hcoords : (coordsOf (axes.map Axis.dim) linear).reverse =
      MixedRadix.digits (axes.reverse.map Axis.dim) linear := by
    simp [coordsOf, List.map_reverse]
  rw [stridedIndex, address, ← hrev, hcoords]
  exact asU64_congr (hwalk.trans hoff)

end Core
end Rustorch
