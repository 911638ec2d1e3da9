import Rustorch.Cpu.Unbroadcast

/-!
# Arithmetic on every element type

`dispatch_binary` and `neg` with all their arms.  Each arm has its own list of element types.
A binary kernel reads its operands in row-major order, so its result is right for a contiguous
operand; `neg` follows the strides.
-/

namespace Rustorch
namespace Cpu

open Rustorch.Core List Layout

section Model

variable {F : Type}

/-- The element types of the arms of `dispatch_binary`. -/
def arithmetic (T : Dtype) : Bool :=
  T = .f32 ∨ T = .f64 ∨ T = .i64 ∨ T = .i32 ∨ T = .bf16 ∨ T = .f16

/-- `dispatch_binary`; the narrow floats are computed in `f32` and cast back. -/
def dispatchBinaryTyped (opName : String) (f : F → F → F) (lhs rhs : Tensor F) :
    Outcome BackendError (Tensor F) :=
  if lhs.layout.dtype ≠ rhs.layout.dtype then
    .err (.dtypeMismatch opName lhs.layout.dtype rhs.layout.dtype)
  else if arithmetic lhs.layout.dtype then
    mapBinary lhs.layout.dtype lhs.layout.dtype opName f lhs rhs
  else
    .err (.dtypeMismatch opName lhs.layout.dtype lhs.layout.dtype)

/-- The element types of the arms of `neg`. -/
def negatable (T : Dtype) : Bool :=
  T = .f32 ∨ T = .f64 ∨ T = .i64 ∨ T = .i32 ∨ T = .i8

def neg [Neg F] (src : Tensor F) : Outcome BackendError (Tensor F) :=
  if negatable src.layout.dtype then
    mapUnary src.layout.dtype src.layout.dtype "neg" (fun x => -x) src
  else
    .err (.dtypeMismatch "neg" src.layout.dtype src.layout.dtype)

end Model

/-! ## Unary kernels follow the strides -/

section Unary

variable {S : Shape} {F : Type} [Neg F]

theorem neg_holds {a : Tensor F} {T : Dtype} {f : Nat → F} (ha : Holds a T S f) :
    negatable T = true → ∃ out, neg a = .ok out ∧ Fresh out T S (fun i => -f i) := by
  intro harm
  rw [neg, ha.dtype, if_pos harm]
  exact mapUnary_holds ha ha.bytes

theorem negatable_of_ok {a out : Tensor F} : neg a = .ok out → negatable a.layout.dtype = true := by
  intro h
  unfold neg at h
  split_ifs at h with harm
  exact harm

end Unary

/-! ## Binary kernels read row-major buffers -/

section Binary

variable {F : Type} {opName : String} {op : F → F → F} {a b : Tensor F} {T : Dtype} {A S : Shape}
  {f g : Nat → F}

theorem dispatchBinaryTyped_dense (ha : Dense a T S f) (hb : Dense b T A g)
    (harm : arithmetic T = true) :
    Stretches A S →
      ∃ out, dispatchBinaryTyped opName op a b = .ok out ∧
        Fresh out T S (fun i => op (f i) (g (sourceIndex A S i))) := by
  intro hA
  rw [dispatchBinaryTyped, ha.dtype, hb.dtype, if_neg (not_not.2 rfl), if_pos harm]
  exact mapBinary_dense ha hb hA ha.bytes

theorem dispatchBinaryTyped_fresh (ha : a.layout.dtype = T) (hb : b.layout.dtype = T)
    (harm : arithmetic T = true) (hS : broadcastWith a.shape b.shape = .ok S)
    (hbytes : S.prod * T.byteSize < 2 ^ 63)
    (hf : ∀ i < S.prod, rowMajorAt a (restrict a.shape S (coordsOf S i)) = some (f i))
    (hg : ∀ i < S.prod, rowMajorAt b (restrict b.shape S (coordsOf S i)) = some (g i)) :
    ∃ out, dispatchBinaryTyped opName op a b = .ok out ∧
      Fresh out T S (fun i => op (f i) (g i)) := by
  rw [dispatchBinaryTyped, ha, hb, if_neg (not_not.2 rfl), if_pos harm]
  exact mapBinary_fresh ha hb hS hbytes hf hg

theorem dispatchBinaryTyped_reads (hshape : a.shape = S) (hdtype : a.layout.dtype = T)
    (hbytes : S.prod * T.byteSize < 2 ^ 63)
    (hread : ∀ l < S.prod, rowMajorAt a (coordsOf S l) = some (f l)) (hb : Dense b T A g)
    (harm : arithmetic T = true) (hA : Stretches A S) :
    ∃ out, dispatchBinaryTyped opName op a b = .ok out ∧
      Fresh out T S (fun i => op (f i) (g (sourceIndex A S i))) := by
  refine dispatchBinaryTyped_fresh hdtype hb.dtype harm ?_ hbytes (fun i hi => ?_)
    fun i hi => rowMajorAt_dense hb hA hi
  · rw [hshape, hb.shape]
    exact broadcastWith_of_stretches hA
  · rw [hshape, restrict_self (inBounds_coordsOf (not_mem_of_lt_prod hi)), hread i hi]

variable {out : Tensor F}

/-- What a call that returns has checked. -/
theorem dispatchBinaryTyped_eq_ok : dispatchBinaryTyped opName op a b = .ok out →
      a.layout.dtype = b.layout.dtype ∧ arithmetic a.layout.dtype = true ∧
        mapBinary a.layout.dtype a.layout.dtype opName op a b = .ok out := by
  intro h
  unfold dispatchBinaryTyped at h
  split_ifs at h with hdtype harm
  exact ⟨not_not.1 hdtype, harm, h⟩

/-- The values that a binary kernel reads of an operand. -/
def rowMajorValue (a : Tensor F) (S : Shape) (d : F) (l : Nat) : F :=
  (rowMajorAt a (coordsOf S l)).getD d

/-- The result of a call that returns, on any left operand and a dense right one. -/
theorem dispatchBinaryTyped_rowMajor (d : F) (hshape : a.shape = S)
    (hbytes : S.prod * a.layout.dtype.byteSize < 2 ^ 63) (hb : Dense b a.layout.dtype A g)
    (hA : Stretches A S) : dispatchBinaryTyped opName op a b = .ok out →
      (∀ l < S.prod, rowMajorAt a (coordsOf S l) = some (rowMajorValue a S d l)) ∧
        Fresh out a.layout.dtype S
          (fun l => op (rowMajorValue a S d l) (g (sourceIndex A S l))) := by
  intro h
  obtain ⟨hdtype, _, hmap⟩ := dispatchBinaryTyped_eq_ok h
  have hS : broadcastWith a.shape b.shape = .ok S := by
    rw [hshape, hb.shape]
    exact broadcastWith_of_stretches hA
  obtain ⟨_, data, hloop, rfl⟩ := (mapBinary_eq_ok rfl hdtype.symm hS).1 hmap
  have hcells : ∀ l < S.prod, rowMajorAt a (coordsOf S l) = some (rowMajorValue a S d l) ∧
      data[l]? = some (op (rowMajorValue a S d l) (g (sourceIndex A S l))) := by
    intro l hl
    have hI : InBounds S (coordsOf S l) := inBounds_coordsOf (not_mem_of_lt_prod hl)
    obtain ⟨x, y, hx, hy, hcell⟩ := broadcastLoop_eq_some (prod_lt_of_bytes hbytes) hloop _ hI
    rw [hshape, restrict_self hI] at hx
    rw [hb.shape] at hy
    have hread := rowMajorAt_dense hb hA hl
    rw [hb.shape, hy, Option.some_inj] at hread
    rw [linearOf_coordsOf hl] at hcell
    rw [hcell, rowMajorValue, hx, hread]
    exact ⟨rfl, rfl⟩
  refine ⟨fun l hl => (hcells l hl).1, ⟨shape_contiguous S _, rfl, rfl, hbytes, ?_⟩, rfl⟩
  intro l hl
  have hlt : l < 2 ^ 64 := lt_trans hl (prod_lt_of_bytes hbytes)
  simp only [contiguous, Nat.zero_add, Nat.mod_eq_of_lt hlt]
  exact (hcells l hl).2

theorem dispatchBinaryTyped_both (ha : a.shape = S) (hb : b.shape = S) (hda : a.layout.dtype = T)
    (hdb : b.layout.dtype = T) (hbytes : S.prod * T.byteSize < 2 ^ 63)
    (hread : ∀ l < S.prod, rowMajorAt a (coordsOf S l) = some (f l))
    (hread' : ∀ l < S.prod, rowMajorAt b (coordsOf S l) = some (g l))
    (harm : arithmetic T = true) :
    ∃ out, dispatchBinaryTyped opName op a b = .ok out ∧
      Fresh out T S (fun i => op (f i) (g i)) := by
  refine dispatchBinaryTyped_fresh hda hdb harm ?_ hbytes (fun i hi => ?_) fun i hi => ?_
  · rw [ha, hb]
    exact broadcastWith_self S
  · rw [ha, restrict_self (inBounds_coordsOf (not_mem_of_lt_prod hi)), hread i hi]
  · rw [hb, restrict_self (inBounds_coordsOf (not_mem_of_lt_prod hi)), hread' i hi]

theorem reads_of_dispatchBinaryTyped (d : F) (ha : a.shape = S) (hb : b.shape = S)
    (hbytes : S.prod * a.layout.dtype.byteSize < 2 ^ 63) :
    dispatchBinaryTyped opName op a b = .ok out →
      (∀ l < S.prod, rowMajorAt a (coordsOf S l) = some (rowMajorValue a S d l)) ∧
        ∀ l < S.prod, rowMajorAt b (coordsOf S l) = some (rowMajorValue b S d l) := by
  intro h
  obtain ⟨hdtype, _, hmap⟩ := dispatchBinaryTyped_eq_ok h
  have hS : broadcastWith a.shape b.shape = .ok S := by
    rw [ha, hb]
    exact broadcastWith_self S
  obtain ⟨_, data, hloop, _⟩ := (mapBinary_eq_ok rfl hdtype.symm hS).1 hmap
  have hcells : ∀ l < S.prod, rowMajorAt a (coordsOf S l) = some (rowMajorValue a S d l) ∧
      rowMajorAt b (coordsOf S l) = some (rowMajorValue b S d l) := by
    intro l hl
    have hI : InBounds S (coordsOf S l) := inBounds_coordsOf (not_mem_of_lt_prod hl)
    obtain ⟨x, y, hx, hy, _⟩ := broadcastLoop_eq_some (prod_lt_of_bytes hbytes) hloop _ hI
    rw [ha, restrict_self hI] at hx
    rw [hb, restrict_self hI] at hy
    rw [rowMajorValue, rowMajorValue, hx, hy]
    exact ⟨rfl, rfl⟩
  exact ⟨fun l hl => (hcells l hl).1, fun l hl => (hcells l hl).2⟩

end Binary

end Cpu
end Rustorch
