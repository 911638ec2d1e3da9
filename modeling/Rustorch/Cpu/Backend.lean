import Rustorch.Core.Materialize
import Rustorch.Core.MultiIndex
import Rustorch.Cpu.Elementwise

/-!
# Elementwise entries of the CPU backend

The `F32` arms of `add`, `sub`, `mul`, `div` and `sqrt`.  On dense operands each returns a fresh
tensor whose values are given by the values of the operands (`dispatchBinary_dense`,
`mapUnary_holds`).
-/

namespace Rustorch
namespace Cpu

open Rustorch.Core List Outcome Chunks

/-! ## Error texts -/

def dtypeName : Dtype → String
  | .f32 => "f32"
  | .f64 => "f64"
  | .f16 => "f16"
  | .bf16 => "bf16"
  | .i64 => "i64"
  | .i32 => "i32"
  | .i8 => "i8"
  | .bool => "bool"

/-- Long shapes show their first and last four sizes. -/
def fmtShape (shape : List Nat) : String :=
  if shape.length ≤ 8 then
    toString shape
  else
    "[" ++ toString (shape.take 4) ++ "…" ++ toString (shape.drop (shape.length - 4)) ++ " (rank " ++
      toString shape.length ++ ")]"

def BackendError.display : BackendError → String
  | .shapeMismatch op lhs rhs =>
    op ++ ": sizes of tensors must match: " ++ fmtShape lhs ++ " vs " ++ fmtShape rhs
  | .dtypeMismatch op lhs rhs =>
    op ++ ": dtype mismatch: " ++ dtypeName lhs ++ " vs " ++ dtypeName rhs
  | .outOfMemory bytes => "out of memory allocating " ++ toString bytes ++ " bytes"
  | .unsupportedOp op device => op ++ " is not supported on device " ++ device
  | .numericalError msg => "numerical error: " ++ msg
  | .indexOutOfBounds op index bound =>
    op ++ ": index " ++ toString index ++ " out of bounds (axis size " ++ toString bound ++ ")"

section Kernels

variable {α β : Type}

/-! ## Unary kernels -/

def parallelUnaryThreshold : Nat := 16384

def unaryChunk : Nat := 8192

/-- The branch of `map_unary` for flagged tensors at offset 0. -/
def mapUnaryDirect (U : Dtype) (f : α → β) (src : Tensor α) : Outcome BackendError (Tensor β) := do
  let n := src.numel
  let rawSlice ← sliceTo src.storage n
  withCapacity U n
  let out :=
    if n < parallelUnaryThreshold then
      rawSlice.map f
    else
      ((chunks unaryChunk rawSlice).map (List.map f)).flatten
  fromVecOrOom U src.shape out n

/-- The branch for all other tensors. -/
def mapUnaryStrided (U : Dtype) (f : α → β) (src : Tensor α) :
    Outcome BackendError (Tensor β) := do
  let n := src.numel
  withCapacity U n
  let out ← expect ((range n).mapM fun i =>
    (src.storage[linearToOffset i src.shape src.layout.strides src.layout.storageOffset]?).map f)
  fromVecOrOom U src.shape out n

def mapUnary (T U : Dtype) (opName : String) (f : α → β) (src : Tensor α) :
    Outcome BackendError (Tensor β) :=
  if src.layout.dtype ≠ T then
    .err (.dtypeMismatch opName src.layout.dtype T)
  else if src.layout.isContiguous ∧ src.layout.storageOffset = 0 then
    mapUnaryDirect U f src
  else
    mapUnaryStrided U f src

/-! ## Dense operands -/

theorem withCapacity_ok {U : Dtype} {n : Nat} :
    n * U.byteSize < 2 ^ 63 → withCapacity U n = .ok () := by
  intro h
  exact if_pos h

theorem fromVecOrOom_fresh {U : Dtype} {S : Shape} {f : Nat → β} {n : Nat} :
    S.prod * U.byteSize < 2 ^ 63 →
      ∃ out, fromVecOrOom U S ((range S.prod).map f) n = .ok out ∧ Fresh out U S f := by
  intro h
  obtain ⟨out, hout, hfresh⟩ := @fromVecTyped_fresh β U S f h
  refine ⟨out, ?_, hfresh⟩
  rw [fromVecOrOom, hout]
  rfl

theorem sliceTo_eq {xs : List α} {n : Nat} :
    n ≤ xs.length → sliceTo xs n = .ok (xs.take n) := by
  intro h
  exact if_pos h

theorem flatten_map_chunks (f : α → β) (xs : List α) :
    ((chunks unaryChunk xs).map (List.map f)).flatten = xs.map f := by
  rw [← List.map_flatten, flatten_chunks (by decide)]

section Unary

variable {T U : Dtype} {op : α → β} {a : Tensor α} {S : Shape} {f : Nat → α} (ha : Holds a T S f)

include ha

theorem mapUnaryStrided_eq : mapUnaryStrided U op a = (withCapacity U S.prod).bind fun _ =>
    fromVecOrOom U S ((range S.prod).map fun i => op (f i)) S.prod := by
  have hloop : (range S.prod).mapM (fun i =>
      (a.storage[linearToOffset i S a.layout.strides a.layout.storageOffset]?).map op) =
      some ((range S.prod).map fun i => op (f i)) := by
    refine Traversal.mapM_eq_map ?_
    intro i hi
    have hshape : a.layout.shape = S := ha.shape
    have hoffset := linearToOffset_eq a.layout i
    rw [hshape] at hoffset
    rw [hoffset, ha.indexAt (mem_range.1 hi)]
    rfl
  rw [mapUnaryStrided, ha.numel, ha.shape, hloop]
  rfl

/-- What the direct branch reads are the elements in order. -/
theorem mapUnaryDirect_eq : a.layout.isContiguous = true → a.layout.storageOffset = 0 →
    mapUnaryDirect U op a = mapUnaryStrided U op a := by
  intro hflag hoffset
  have hfresh : Fresh a T S f := ⟨ha.dense hflag, hoffset⟩
  have hmap : ((range S.prod).map f).map op = (range S.prod).map fun i => op (f i) := map_map
  rw [mapUnaryStrided_eq ha, mapUnaryDirect, ha.numel, ha.shape, sliceTo_eq hfresh.prod_le,
    hfresh.take_storage]
  simp only [ok_bind, flatten_map_chunks, ite_self, hmap]
  rfl

theorem mapUnary_holds {opName : String} : S.prod * U.byteSize < 2 ^ 63 →
    ∃ out, mapUnary T U opName op a = .ok out ∧ Fresh out U S (fun i => op (f i)) := by
  intro hbytes
  obtain ⟨out, hout, hfresh⟩ := @fromVecOrOom_fresh β U S (fun i => op (f i)) S.prod hbytes
  refine ⟨out, ?_, hfresh⟩
  have hstrided : mapUnaryStrided U op a = .ok out := by
    rw [mapUnaryStrided_eq ha, withCapacity_ok hbytes]
    exact hout
  rw [mapUnary, if_neg (not_not.2 ha.dtype)]
  split
  · next hfast => rw [mapUnaryDirect_eq ha hfast.1 hfast.2, hstrided]
  · exact hstrided

end Unary

/-! ## Binary kernels -/

/-- The `F32` arm of `dispatch_binary`. -/
def dispatchBinary (opName : String) (f : α → α → α) (lhs rhs : Tensor α) :
    Outcome BackendError (Tensor α) :=
  if lhs.layout.dtype ≠ rhs.layout.dtype then
    .err (.dtypeMismatch opName lhs.layout.dtype rhs.layout.dtype)
  else
    mapBinary .f32 .f32 opName f lhs rhs

theorem rowMajorAt_dense {T : Dtype} {A S : Shape} {a : Tensor α} {f : Nat → α} {i : Nat}
    (ha : Dense a T A f) :
    Stretches A S → i < S.prod →
      rowMajorAt a (restrict a.shape S (coordsOf S i)) = some (f (sourceIndex A S i)) := by
  intro hA hi
  have hb : InBounds A (restrict A S (coordsOf S i)) :=
    inBounds_restrict hA (inBounds_coordsOf (not_mem_of_lt_prod hi))
  rw [rowMajorAt, ha.shape]
  exact ha.cell _ (linearOf_lt hb)

/-- The result, from what the loop reads of both operands. -/
theorem mapBinary_fresh {T U : Dtype} {opName : String} {op : α → α → β} {a b : Tensor α}
    {S : Shape} {f g : Nat → α} (ha : a.layout.dtype = T) (hb : b.layout.dtype = T)
    (hS : broadcastWith a.shape b.shape = .ok S) (hbytes : S.prod * U.byteSize < 2 ^ 63)
    (hf : ∀ i < S.prod, rowMajorAt a (restrict a.shape S (coordsOf S i)) = some (f i))
    (hg : ∀ i < S.prod, rowMajorAt b (restrict b.shape S (coordsOf S i)) = some (g i)) :
    ∃ out, mapBinary T U opName op a b = .ok out ∧ Fresh out U S (fun i => op (f i) (g i)) := by
  have hloop : broadcastLoop S op a b = some ((range S.prod).map fun i => op (f i) (g i)) := by
    rw [broadcastLoop, numel_of_bytes hbytes]
    refine Traversal.mapM_eq_map ?_
    intro i hi
    have hi := mem_range.1 hi
    rw [hf i hi, hg i hi]
    rfl
  exact ⟨_, (mapBinary_eq_ok ha hb hS).2 ⟨by rwa [numel_of_bytes hbytes], _, hloop, rfl⟩,
    fresh_contiguous hbytes⟩

theorem mapBinary_dense {T U : Dtype} {opName : String} {op : α → α → β} {a b : Tensor α}
    {A S : Shape} {f g : Nat → α} (ha : Dense a T S f) (hb : Dense b T A g) :
    Stretches A S → S.prod * U.byteSize < 2 ^ 63 →
      ∃ out, mapBinary T U opName op a b = .ok out ∧
        Fresh out U S (fun i => op (f i) (g (sourceIndex A S i))) := by
  intro hA hbytes
  have hS : broadcastWith a.shape b.shape = .ok S := by
    rw [ha.shape, hb.shape]
    exact broadcastWith_of_stretches hA
  refine mapBinary_fresh ha.dtype hb.dtype hS hbytes (fun i hi => ?_)
    fun i hi => rowMajorAt_dense hb hA hi
  rw [rowMajorAt_dense ha (stretches_self S) hi, sourceIndex_self hi]

theorem dispatchBinary_dense {opName : String} {op : α → α → α} {a b : Tensor α} {A S : Shape}
    {f g : Nat → α} (ha : Dense a .f32 S f) (hb : Dense b .f32 A g) :
    Stretches A S →
      ∃ out, dispatchBinary opName op a b = .ok out ∧
        Fresh out .f32 S (fun i => op (f i) (g (sourceIndex A S i))) := by
  intro hA
  rw [dispatchBinary, if_neg (not_not.2 (ha.dtype.trans hb.dtype.symm))]
  exact mapBinary_dense ha hb hA ha.bytes

end Kernels

section Arithmetic

variable {F : Type}

def add [Add F] (lhs rhs : Tensor F) : Outcome BackendError (Tensor F) :=
  dispatchBinary "add" (· + ·) lhs rhs

def sub [Sub F] (lhs rhs : Tensor F) : Outcome BackendError (Tensor F) :=
  dispatchBinary "sub" (· - ·) lhs rhs

def mul [Mul F] (lhs rhs : Tensor F) : Outcome BackendError (Tensor F) :=
  dispatchBinary "mul" (· * ·) lhs rhs

def div [Div F] (lhs rhs : Tensor F) : Outcome BackendError (Tensor F) :=
  dispatchBinary "div" (· / ·) lhs rhs

/-- The `F32` arm, over the square root of the scalars. -/
def sqrt (sqrtF : F → F) (src : Tensor F) : Outcome BackendError (Tensor F) :=
  mapUnary .f32 .f32 "sqrt" sqrtF src

end Arithmetic

end Cpu
end Rustorch

/-!
# The direct-index path

`map_unary` reads a flagged tensor at offset 0 straight from its buffer and any other tensor
through its strides.  On a reachable tensor that qualifies for the direct path the strided path
returns the same (`mapUnaryDirect_eq`).  `reachable_fast_paths` collects what the flag means for
every fast path that tests it.
-/

namespace Rustorch
namespace Cpu

open Rustorch.Core

section Unary

variable {α : Type}

/-- On every tensor from a constructor by views, the flag is set exactly if element `i` in shape
order is stored at the offset plus `i`; so a slice that is handed out is the list of the elements,
both branches of `map_unary` agree where the direct one is taken, and `contiguous` keeps the shape
and the elements. -/
theorem reachable_fast_paths [Inhabited α] {t : Tensor α} :
    Reachable t →
      (t.layout.isContiguous = true ↔
        ∀ i < t.numel, t.layout.indexAt i = t.layout.storageOffset + i) ∧
      (∀ (T : Dtype) (s : List α), t.asSlice T = .ok s → t.elements = some s) ∧
      (∀ (γ : Type) (U : Dtype) (f : α → γ), t.layout.isContiguous = true →
        t.layout.storageOffset = 0 → mapUnaryDirect U f t = mapUnaryStrided U f t) ∧
      (∃ c, t.contiguous = some c ∧ c.shape = t.shape ∧ c.elements = t.elements ∧
        c.layout.isContiguous = true) := by
  intro h
  refine ⟨reachable_flag_iff h, ?_, ?_, ?_⟩
  · intro T s hs
    exact reachable_asSlice h hs
  · intro γ U f hflag hoffset
    obtain ⟨_, hholds⟩ := reachable_holds h
    exact mapUnaryDirect_eq hholds hflag hoffset
  · rcases reachable_contiguous h with ⟨c, hc, hshape, _, helems, hflag⟩
    exact ⟨c, hc, hshape, helems, hflag⟩

/-- The materialized copy of a transposed and narrowed matrix. -/
theorem transposed_fast_paths :
    ∃ t c : Tensor Nat, t.elements = some [1, 4, 2, 5] ∧ t.contiguous = some c ∧
      c.shape = t.shape ∧ c.elements = t.elements ∧ c.layout.isContiguous = true := by
  have hmatrix : fromVecTyped .f32 [2, 3] [0, 1, 2, 3, 4, 5] = .ok
      { storage := [0, 1, 2, 3, 4, 5], layout := Layout.contiguous [2, 3] .f32 } := rfl
  have hreach := Reachable.fromVecTyped (by decide) (by decide) hmatrix
  have htranspose := @Reachable.view Nat _ _ (.transpose 0 1) hreach trivial rfl
  have hview := @Reachable.view Nat _ _ (.narrow 0 1 2) htranspose trivial rfl
  rcases (reachable_fast_paths hview).2.2.2 with ⟨c, hc, hcopy⟩
  exact ⟨_, c, by decide, hc, hcopy⟩

end Unary

end Cpu
end Rustorch
