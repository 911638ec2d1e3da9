import Rustorch.Core.Elements

/-!
# Variables

A variable is a shared handle to a tensor; `Store` says what each handle holds.
-/

namespace Rustorch
namespace Autograd

open Rustorch.Core Layout

abbrev Var : Type := Nat

/-- The tensor that each variable holds. -/
abbrev Store (α : Type) : Type := Var → Tensor α

section Slices

variable {α : Type}

/-- Replace the tensor of a variable. -/
def setData (σ : Store α) (v : Var) (t : Tensor α) : Store α :=
  Function.update σ v t

/-- A gradient for some of the variables. -/
abbrev Grads (α : Type) : Type := Var → Option (Tensor α)

/-- Tensors of one shape with the same `f32` slice. -/
def SameData (t u : Tensor α) : Prop :=
  t.shape = u.shape ∧ t.asSlice .f32 = u.asSlice .f32

theorem SameData.refl (t : Tensor α) : SameData t t :=
  ⟨rfl, rfl⟩

variable {T : Dtype} {t : Tensor α}

theorem length_of_asSlice {xs : List α} : t.asSlice T = .ok xs → xs.length = t.numel := by
  intro h
  unfold Tensor.asSlice at h
  split at h
  · cases h
  · split at h
    · cases h
    · split at h
      · cases h
      · cases h
        rw [List.length_take]
        omega

/-- A tensor built from a vector is the vector. -/
theorem fromVecTyped_eq_ok {shape : Shape} {data : List α} : fromVecTyped T shape data = .ok t →
      t.shape = shape ∧ t.asSlice T = .ok data ∧ data.length = numel shape := by
  intro h
  unfold fromVecTyped at h
  split at h
  · cases h
  · rename_i hlen
    cases h
    have hn : Tensor.numel (α := α) { storage := data, layout := contiguous shape T } =
        data.length := by
      rw [Tensor.numel, Layout.numel, shape_contiguous, not_not.1 hlen]
    refine ⟨shape_contiguous shape T, ?_, not_not.1 hlen⟩
    have hnil : ¬ (data = [] ∧ 0 < data.length) := by
      rintro ⟨rfl, h0⟩
      simp at h0
    simp only [Tensor.asSlice, hn]
    rw [if_neg (by simp [contiguous]), if_neg hnil, if_neg (lt_irrefl _), List.take_length]

end Slices

end Autograd
end Rustorch
