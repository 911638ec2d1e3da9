import Rustorch.Autograd.Ops

/-!
# Gradients enabled and disabled

A layer's forward has a fused path for the mode without gradients.  `Agrees` says what the two modes
have to share; an operand of the fused path is a contiguous tensor, which need not start at offset 0.
-/

namespace Rustorch
namespace Nn

open Rustorch.Core Cpu
open Autograd (BackwardError)

section Modes

variable {α : Type} {t : Tensor α} {T : Dtype} {S : Shape} {f : Nat → α}

/-- One call returns a tensor exactly if the other does, and then the same one. -/
def Agrees (r r' : Outcome BackwardError (Tensor α)) : Prop :=
  ((∃ y, r = .ok y) ↔ ∃ y, r' = .ok y) ∧
    ∀ y y', r = .ok y → r' = .ok y' → SameElements y y'

theorem Agrees.refl (r : Outcome BackwardError (Tensor α)) : Agrees r r := by
  refine ⟨Iff.rfl, ?_⟩
  intro y y' hy hy'
  rw [hy] at hy'
  cases hy'
  exact ⟨rfl, rfl, rfl⟩

variable {r r' : Outcome BackwardError (Tensor α)} {size : Nat}

theorem Agrees.of_fresh (h : ∃ y, r = .ok y ∧ Fresh y T S f) (h' : ∃ y, r' = .ok y ∧ Fresh y T S f) :
    Agrees r r' := by
  obtain ⟨y, hy, hfresh⟩ := h
  obtain ⟨y', hy', hfresh'⟩ := h'
  refine ⟨⟨fun _ => ⟨y', hy'⟩, fun _ => ⟨y, hy⟩⟩, ?_⟩
  intro z z' hz hz'
  rw [hy] at hz
  rw [hy'] at hz'
  cases hz
  cases hz'
  exact .of_holds hfresh.holds hfresh'.holds

theorem Agrees.of_not_ok (h : ∀ y, r ≠ .ok y) (h' : ∀ y, r' ≠ .ok y) : Agrees r r' := by
  refine ⟨⟨?_, ?_⟩, ?_⟩
  · rintro ⟨y, hy⟩
    exact absurd hy (h y)
  · rintro ⟨y, hy⟩
    exact absurd hy (h' y)
  · intro y _ hy
    exact absurd hy (h y)

/-- Where the reference returns, a fused path that returns under a condition only agrees with it
under the condition only. -/
theorem Agrees.iff_of_fresh {c : Prop} (hreference : ∃ y, r' = .ok y ∧ Fresh y T S f)
    (hfused : c → ∃ y, r = .ok y ∧ Fresh y T S f) (hneeds : ∀ y, r = .ok y → c) :
    Agrees r r' ↔ c := by
  constructor
  · intro hagrees
    obtain ⟨y, hy, _⟩ := hreference
    obtain ⟨z, hz⟩ := hagrees.1.2 ⟨y, hy⟩
    exact hneeds z hz
  · intro hc
    exact Agrees.of_fresh (hfused hc) hreference

/-- A contiguous tensor of the CPU. -/
structure Contiguous (t : Tensor α) (T : Dtype) : Prop where
  reachable : Reachable t
  dtype : t.layout.dtype = T
  flag : t.layout.isContiguous = true

theorem Contiguous.dense [Inhabited α] (h : Contiguous t T) : ∃ f, Dense t T t.shape f := by
  obtain ⟨f, hf⟩ := reachable_dense h.reachable h.flag
  rw [h.dtype] at hf
  exact ⟨f, hf⟩

/-- A parameter with one value for each of `size` channels. -/
structure ChannelParam (p : Tensor α) (size : Nat) : Prop extends Contiguous p .f32 where
  shape : p.shape = [size]

theorem ChannelParam.dense [Inhabited α] {p : Tensor α} (h : ChannelParam p size) :
    ∃ g, Dense p .f32 [size] g := by
  obtain ⟨g, hg⟩ := h.toContiguous.dense
  rw [h.shape] at hg
  exact ⟨g, hg⟩

theorem dense_of_last [Inhabited α] (ht : Contiguous t .f32) (h0 : 0 ∉ t.shape)
    (hlast : t.shape.getLast? = some size) :
    ∃ L f, Dense t .f32 (L ++ [size]) f ∧ 0 < size ∧ 0 ∉ L := by
  have hshape : t.shape = t.shape.dropLast ++ [size] := (List.dropLast_append_getLast? _ hlast).symm
  obtain ⟨f, hf⟩ := ht.dense
  rw [hshape] at hf h0
  rw [List.mem_append, List.mem_singleton, not_or] at h0
  exact ⟨_, f, hf, Nat.pos_of_ne_zero fun hz => h0.2 hz.symm, h0.1⟩

theorem offset_of_slice {xs : List α} :
    (Outcome.unwrap (t.asSlice T) : Outcome BackwardError (List α)) = .ok xs →
      t.layout.storageOffset = 0 := by
  intro h
  by_contra hoff
  rw [Tensor.asSlice_offset T hoff] at h
  cases h

end Modes

end Nn
end Rustorch
