import Rustorch.Cpu.Coords
import Rustorch.Cpu.ShapeOps

/-!
# Concatenation along any axis

Inputs can be joined along an axis if they share element type and all other axes (`Joinable`).
`cat` then asks for the sum of their sizes on that axis, in wrapping arithmetic, and copies one part
of each input for every position of the axes before it.
-/

namespace Rustorch
namespace Cpu

open Rustorch.Core List

section Joinable

variable {α : Type} {T : Dtype} {S : Shape} {dim : Nat} {ts : List (Tensor α)}

/-- The size on one axis. -/
def sizeAt (dim : Nat) (t : Tensor α) : Nat :=
  t.shape.getD dim 0

/-- The tensors agree with `S` on all axes but one. -/
structure Joinable (T : Dtype) (S : Shape) (dim : Nat) (ts : List (Tensor α)) : Prop where
  dtype : ∀ t ∈ ts, t.layout.dtype = T
  shape : ∀ t ∈ ts, t.shape = S.set dim (sizeAt dim t)
  axis : dim < S.length

theorem catValidate_set {first t : Tensor α} {m n : Nat} :
    t.layout.dtype = first.layout.dtype → first.shape = S.set dim m → t.shape = S.set dim n →
      catValidate first dim t = .ok () := by
  intro hdtype hfirst hshape
  have hsame : (first.shape.zip t.shape).zipIdx.any (fun x =>
      decide (x.2 ≠ dim) && decide (x.1.1 ≠ x.1.2)) = false := by
    rw [any_eq_false, hfirst, hshape]
    rintro ⟨⟨a, b⟩, i⟩ hmem
    obtain ⟨ha, hb⟩ := getElem?_zip_eq_some.1 (mk_mem_zipIdx_iff_getElem?.1 hmem)
    by_cases hi : i = dim
    · simp [hi]
    · rw [getElem?_set_ne (Ne.symm hi)] at ha hb
      obtain rfl : a = b := Option.some.inj (ha.symm.trans hb)
      simp
  have hlen : ¬ t.shape.length ≠ first.shape.length := by
    simp [hfirst, hshape]
  rw [catValidate, if_neg (not_not.2 hdtype), if_neg hlen, hsame]
  rfl

/-- The checks pass; what is left is the copy. -/
theorem cat_joinable (h : Joinable T S dim ts) (hne : ts ≠ []) :
    cat ts dim = if catable T then
        catTyped T ts dim (S.set dim ((ts.map (sizeAt dim)).sum % u64Size))
      else
        .err (.dtypeMismatch "cat" T T) := by
  cases ts with
  | nil => exact absurd rfl hne
  | cons first rest =>
    have hfirst := h.shape first mem_cons_self
    have hdtype := h.dtype first mem_cons_self
    have hvalid : rest.mapM (catValidate first dim) = .ok (rest.map fun _ => ()) := by
      refine Outcome.mapM_eq_ok ?_
      intro t ht
      have ht := mem_cons_of_mem first ht
      exact catValidate_set ((h.dtype t ht).trans hdtype.symm) hfirst (h.shape t ht)
    have hlen : ¬ first.shape.length ≤ dim := by
      rw [hfirst, length_set, not_le]
      exact h.axis
    have hset : ∀ k, first.shape.set dim k = S.set dim k := by
      intro k
      rw [hfirst, set_set]
    rw [cat, if_neg hlen, hvalid, Outcome.ok_bind, hdtype]
    simp only [hset]
    rfl

end Joinable

end Cpu
end Rustorch
