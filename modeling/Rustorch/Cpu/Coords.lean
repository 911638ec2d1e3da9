import Rustorch.Cpu.IndexSelect

/-!
# Coordinates in the kernels

Kernels that walk a tensor in shape order decode a linear index into a multi-index, change some of
its coordinates, and flatten it again with the row-major strides of some shape.  Decoding takes
remainders by axis sizes, so it panics on an axis of size 0; flattening wraps.
-/

namespace Rustorch
namespace Cpu

open Rustorch.Core List MixedRadix Layout

/-! ## Decoding -/

/-- The loop of `decode_coords`, from the last axis on; `none` is a remainder by zero. -/
def decodeFrom : List Nat → Nat → Option (List Nat)
  | [], _ => some []
  | d :: ds, idx =>
    if d = 0 then
      none
    else
      (decodeFrom ds (idx / d)).map (idx % d :: ·)

def decodeChecked (linear : Nat) (shape : Shape) : Option (List Nat) :=
  (decodeFrom shape.reverse linear).map reverse

theorem decodeFrom_eq (ds : List Nat) :
    ∀ i : Nat, decodeFrom ds i = if 0 ∈ ds then none else some (digits ds i) := by
  induction ds with
  | nil =>
    intro i
    rfl
  | cons d ds ih =>
    intro i
    rw [decodeFrom, ih]
    by_cases hd : d = 0
    · simp [hd]
    · by_cases hds : 0 ∈ ds
      · simp [hd, hds]
      · simp [hd, hds, digits, Ne.symm hd]

theorem decodeChecked_eq (shape : Shape) (i : Nat) :
    decodeChecked i shape = if 0 ∈ shape then none else some (coordsOf shape i) := by
  rw [decodeChecked, decodeFrom_eq]
  by_cases h0 : 0 ∈ shape
  · simp [h0]
  · simp [h0, coordsOf]

/-! ## Flattening -/

/-- `coords.iter().zip(strides).map(|(c, s)| c * s).sum()`, in wrapping arithmetic. -/
def flatIndex (coords strides : List Nat) : Nat :=
  dot coords strides % u64Size

theorem flatIndex_eq {S : Shape} {I : List Nat} :
    InBounds S I → S.prod < u64Size → flatIndex I (contiguousStrides S) = linearOf S I := by
  intro hI hS
  rw [flatIndex, dot_usizeStrides S hI.length_eq.symm]
  exact Nat.mod_eq_of_lt (lt_trans (linearOf_lt hI) hS)

theorem Dtype.byteSize_le (T : Dtype) : T.byteSize ≤ 8 := by
  cases T <;> decide

/-! ## Elements -/

section Elements

variable {α : Type} {t : Tensor α} {T : Dtype} {S : Shape} {f : Nat → α}

section

variable (h : Holds t T S f)

include h

theorem collect_holds : collect T t = .ok ((range S.prod).map f) := by
  rw [← h.dtype]
  exact collect_eq_of_elements h.elements

/-- The same tensor, stored anyhow. -/
def SameElements (t t' : Tensor α) : Prop :=
  t.shape = t'.shape ∧ t.layout.dtype = t'.layout.dtype ∧ t.elements = t'.elements

theorem SameElements.of_holds {t' : Tensor α} (h' : Holds t' T S f) :
    SameElements t t' := by
  refine ⟨h.shape.trans h'.shape.symm, h.dtype.trans h'.dtype.symm, ?_⟩
  rw [h.elements, h'.elements]

theorem elementAt_holds {I : List Nat} :
    InBounds S I → elementAt t I = some (f (linearOf S I)) := by
  intro hI
  exact h.address hI

theorem elementAt_coordsOf {i : Nat} :
    i < S.prod → elementAt t (coordsOf S i) = some (f i) := by
  intro hi
  rw [elementAt_holds h (inBounds_coordsOf (not_mem_of_lt_prod hi)), linearOf_coordsOf hi]

omit h in
theorem fromVecOrOom_eq_ok {data : List α} {n : Nat} {out : Tensor α} :
    fromVecOrOom T S data n = .ok out →
      out = { storage := data, layout := contiguous S T } := by
  intro h
  rw [fromVecOrOom, Outcome.mapErr_eq_ok, fromVecTyped] at h
  split_ifs at h
  · cases h
  · cases h
    rfl

/-- The elements at the multi-indices that meet a condition, in shape order. -/
theorem elements_at_filter {p : List Nat → Bool} {q : Nat → Prop} [DecidablePred q]
    (hpq : ∀ l < S.prod, (p (coordsOf S l) = true ↔ q l)) :
    ((LoopNest.indices S).filter p).mapM (elementAt t) =
      some (((range S.prod).filter q).map f) := by
  have hfilter : (LoopNest.indices S).filter p = ((range S.prod).filter q).map (coordsOf S) := by
    rw [indices_eq, filter_map]
    refine congrArg _ (filter_congr ?_)
    intro l hl
    rw [Function.comp_apply, Bool.eq_iff_iff, hpq l (mem_range.1 hl), decide_eq_true_eq]
  rw [hfilter, mapM_map]
  refine Traversal.mapM_eq_map ?_
  intro l hl
  exact elementAt_coordsOf h (mem_range.1 (mem_filter.1 hl).1)

end

/-- A row-major tensor over its own values. -/
theorem contiguous_fresh {n : Nat} (h : S.prod * T.byteSize < 2 ^ 63) :
    fromVecOrOom T S ((range S.prod).map f) n =
        .ok { storage := (range S.prod).map f, layout := contiguous S T } ∧
      Fresh { storage := (range S.prod).map f, layout := contiguous S T } T S f := by
  obtain ⟨out, hout, hfresh⟩ := @fromVecOrOom_fresh α T S f n h
  have heq := @fromVecOrOom_eq α T S ((range S.prod).map f) n (by
    rw [length_map, length_range, numel_of_bytes h])
  rw [heq] at hout
  cases hout
  exact ⟨heq, hfresh⟩

end Elements

end Cpu
end Rustorch
