import Rustorch.Core.Materialize
import Rustorch.Core.MultiIndex
import Rustorch.Lib.AxisMotion

/-!
# Transposed tensors

A transposed tensor holds at a multi-index what the tensor holds at the multi-index with the two
coordinates swapped, whatever the layout.
-/

namespace Rustorch
namespace Core

open AxisSwap List Layout

variable {α : Type} {t : Tensor α} {T : Dtype} {S : Shape} {f : Nat → α} {d0 d1 : Nat}

/-- A copy in shape order, or the tensor itself. -/
theorem Holds.contiguous (h : Holds t T S f) : ∃ c, t.contiguous = some c ∧ Fresh c T S f := by
  unfold Tensor.contiguous
  split_ifs with hfast
  · exact ⟨t, rfl, h.dense hfast.1, hfast.2⟩
  · obtain ⟨c, hc, hfresh⟩ := @fromVecTyped_fresh α T S f h.bytes
    refine ⟨c, ?_, hfresh⟩
    have hiter : (t.iterElements t.layout.dtype).bind (fun it => it.collect it.numel) =
        some ((range S.prod).map f) := h.elements
    unfold Tensor.copyToContiguous
    cases hit : t.iterElements t.layout.dtype with
    | none =>
      rw [hit] at hiter
      cases hiter
    | some it =>
      rw [hit, Option.bind_some] at hiter
      simp only [Option.bind_eq_bind, Option.bind_some, hiter, h.shape, h.dtype, hc]
      rfl

/-- The cell of the tensor that is cell `l` of the tensor of the shape `S` with two axes swapped. -/
def swapCell (S : Shape) (d0 d1 l : Nat) : Nat :=
  linearOf S (swapAt d0 d1 (coordsOf (swapAt d0 d1 S) l))

theorem prod_swapAt (S : Shape) (d0 d1 : Nat) : (swapAt d0 d1 S).prod = S.prod :=
  (swapAt_perm d0 d1 S).prod_eq

theorem not_mem_swapAt (h0 : 0 ∉ S) : 0 ∉ swapAt d0 d1 S := by
  rwa [(swapAt_perm d0 d1 S).mem_iff]

theorem inBounds_swapAt {I : List Nat} (hI : InBounds (swapAt d0 d1 S) I) (hd0 : d0 < S.length)
    (hd1 : d1 < S.length) : InBounds S (swapAt d0 d1 I) := by
  have hlen : (swapAt d0 d1 S).length = S.length := length_swapAt d0 d1 S
  have hswap := forall₂_swapAt hI (hlen.symm ▸ hd0) (hlen.symm ▸ hd1)
  rwa [swapAt_swapAt hd0 hd1] at hswap

theorem swapCell_lt (h0 : 0 ∉ S) (hd0 : d0 < S.length) (hd1 : d1 < S.length) (l : Nat) :
    swapCell S d0 d1 l < S.prod :=
  linearOf_lt (inBounds_swapAt (inBounds_coordsOf (not_mem_swapAt h0)) hd0 hd1)

theorem swapCell_swapCell (h0 : 0 ∉ S) (hd0 : d0 < S.length) (hd1 : d1 < S.length) {l : Nat}
    (hl : l < S.prod) : swapCell S d0 d1 (swapCell (swapAt d0 d1 S) d0 d1 l) = l := by
  have hI : InBounds S (coordsOf S l) := inBounds_coordsOf h0
  have hJ : InBounds (swapAt d0 d1 S) (swapAt d0 d1 (coordsOf S l)) :=
    forall₂_swapAt hI hd0 hd1
  have hlen : (coordsOf S l).length = S.length := hI.length_eq.symm
  rw [swapCell, swapCell, swapAt_swapAt hd0 hd1, coordsOf_linearOf hJ,
    swapAt_swapAt (hlen ▸ hd0) (hlen ▸ hd1), linearOf_coordsOf hl]

theorem displacement_swapAt {axes : List Axis} {I : List Nat} (hlen : I.length = axes.length)
    (hd0 : d0 < axes.length) (hd1 : d1 < axes.length) :
    displacement (swapAt d0 d1 axes) I = displacement axes (swapAt d0 d1 I) := by
  have hd0' : d0 < I.length := hlen ▸ hd0
  have hd1' : d1 < I.length := hlen ▸ hd1
  have hdot : zipWith (· * ·) (I.map Int.ofNat) ((swapAt d0 d1 axes).map Axis.stride) =
      swapAt d0 d1 (zipWith (· * ·) ((AxisSwap.swapAt d0 d1 I).map Int.ofNat)
        (axes.map Axis.stride)) := by
    rw [map_swapAt _ hd0 hd1, map_swapAt _ hd0' hd1',
      ← zipWith_swapAt _ (by simpa) (by simpa) (by simpa),
      swapAt_swapAt (by simpa) (by simpa)]
  rw [displacement, displacement, MixedRadix.dot, MixedRadix.dot, hdot]
  exact (swapAt_perm d0 d1 _).sum_eq

theorem Holds.transpose (h : Holds t T S f) (h0 : 0 ∉ S) (hd0 : d0 < S.length)
    (hd1 : d1 < S.length) :
    ∃ out, t.runView (.transpose d0 d1) = .ok out ∧
      Holds out T (swapAt d0 d1 S) (fun l => f (swapCell S d0 d1 l)) := by
  have hshape : t.layout.axes.map Axis.dim = S := h.shape
  have hlen : t.layout.axes.length = S.length := by
    rw [← hshape, length_map]
  have hd0' : d0 < t.layout.axes.length := hlen ▸ hd0
  have hd1' : d1 < t.layout.axes.length := hlen ▸ hd1
  have hview : t.layout.transpose d0 d1 = .ok (ofAxes (swapAt d0 d1 t.layout.axes)
      t.layout.storageOffset t.layout.offset_lt t.layout.dtype) := by
    rw [Layout.transpose, dif_pos hd0', dif_pos hd1', swapAt_eq hd0' hd1']
  have hswapped : (ofAxes (swapAt d0 d1 t.layout.axes) t.layout.storageOffset
      t.layout.offset_lt t.layout.dtype).shape = swapAt d0 d1 S := by
    rw [← hshape, ← map_swapAt _ hd0' hd1']
    rfl
  have hbytes : (swapAt d0 d1 S).prod * T.byteSize < 2 ^ 63 := by
    rw [prod_swapAt]
    exact h.bytes
  refine ⟨⟨t.storage, ofAxes (swapAt d0 d1 t.layout.axes) t.layout.storageOffset
    t.layout.offset_lt t.layout.dtype⟩, ?_, h.dtype, hswapped, hbytes, ?_⟩
  · rw [Tensor.runView, runView, hview]
    rfl
  · rw [Tensor.elements_eq, Tensor.numel, Layout.numel, hswapped, numel_of_bytes hbytes]
    refine Traversal.mapM_eq_map fun l _ => ?_
    have hI : InBounds (swapAt d0 d1 S) (coordsOf (swapAt d0 d1 S) l) :=
      inBounds_coordsOf (not_mem_swapAt h0)
    have hcell := h.address (inBounds_swapAt hI hd0 hd1)
    have hIlen : (coordsOf (swapAt d0 d1 S) l).length = t.layout.axes.length := by
      rw [← hI.length_eq, length_swapAt, hlen]
    rw [Core.address, ← displacement_swapAt hIlen hd0' hd1'] at hcell
    rw [indexAt_eq, hswapped]
    exact hcell

end Core
end Rustorch
