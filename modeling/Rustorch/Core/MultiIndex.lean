import Mathlib.Algebra.DualNumber
import Rustorch.Core.Dense
import Rustorch.Lib.LoopNest

/-!
# Elements by multi-index

`Holds t T S f` says that the elements of a tensor, in shape order, are the values of `f`; the
layout of the tensor does not matter.  Every reachable tensor holds some function
(`reachable_holds`).  A sum over the multi-indices of a shape is a sum over linear indices.
-/

namespace Rustorch
namespace Core

open List Layout

open LoopNest (indices)

section Holds

variable {α : Type}

structure Holds (t : Tensor α) (T : Dtype) (S : Shape) (f : Nat → α) : Prop where
  dtype : t.layout.dtype = T
  shape : t.shape = S
  bytes : S.prod * T.byteSize < 2 ^ 63
  elements : t.elements = some ((range S.prod).map f)

variable {t t' : Tensor α} {T : Dtype} {S : Shape} {f g : Nat → α}

theorem Dense.holds (h : Dense t T S f) : Holds t T S f where
  dtype := h.dtype
  shape := h.shape
  bytes := h.bytes
  elements := h.elements

theorem Fresh.holds (h : Fresh t T S f) : Holds t T S f :=
  h.toDense.holds

/-- Every reachable tensor holds its elements. -/
theorem reachable_holds [Inhabited α] : Reachable t → ∃ f, Holds t t.layout.dtype t.shape f := by
  intro h
  obtain ⟨xs, hxs, hlen⟩ := reachable_elements h
  refine ⟨fun i => xs.getD i default, rfl, rfl, reachable_shape_bytes h, ?_⟩
  rw [hxs, ← hlen]
  refine congrArg some (ext_getElem (by simp) ?_)
  intro i hi _
  simp [hi]

namespace Holds

variable (h : Holds t T S f)

include h

theorem numel : t.numel = S.prod :=
  (congrArg Core.numel h.shape).trans (numel_of_bytes h.bytes)

theorem congr : (∀ i < S.prod, f i = g i) → Holds t T S g := by
  intro hfg
  refine ⟨h.dtype, h.shape, h.bytes, ?_⟩
  rw [h.elements]
  refine congrArg some (map_congr_left ?_)
  intro i hi
  exact hfg i (mem_range.1 hi)

theorem elements_eq (h' : Holds t' T S g) :
    (∀ i < S.prod, f i = g i) → t.elements = t'.elements := by
  intro hfg
  rw [(h.congr hfg).elements, h'.elements]

theorem indexAt {i : Nat} :
    i < S.prod → t.storage[t.layout.indexAt i]? = some (f i) := by
  intro hi
  have hall := h.elements
  rw [Tensor.elements_eq, h.numel, Traversal.mapM_eq_some, forall₂_map_right_iff,
    forall₂_same] at hall
  exact hall i (mem_range.2 hi)

theorem address {I : List Nat} :
    InBounds S I → t.storage[Core.address t.layout.axes t.layout.storageOffset I]? =
      some (f (linearOf S I)) := by
  intro hI
  have hshape : t.layout.shape = S := h.shape
  have hget := h.indexAt (linearOf_lt hI)
  rwa [indexAt_eq, hshape, coordsOf_linearOf hI] at hget

/-- With the flag the elements lie in order from the offset on. -/
theorem dense : t.layout.isContiguous = true → Dense t T S f := by
  intro hflag
  refine ⟨h.shape, h.dtype, hflag, h.bytes, ?_⟩
  intro i hi
  rw [← h.indexAt hi, indexAt_of_contiguous hflag (lt_of_lt_of_eq hi h.numel.symm)]

end Holds

/-! ## Other contents -/

/-- A tensor of the values of a function. -/
abbrev tabulated (S : Shape) (T : Dtype) (f : Nat → α) : Tensor α where
  storage := (range S.prod).map f
  layout := contiguous S T

theorem reachable_tabulated : S.prod * T.byteSize < 2 ^ 63 → Reachable (tabulated S T f) := by
  intro h
  refine @Reachable.fromVecTyped α T S ((range S.prod).map f) _ (prod_lt_of_bytes h) ?_ ?_
  · rwa [length_map, length_range]
  · rw [fromVecTyped, if_neg (by simp [numel_of_bytes h])]

theorem reachable_refill : Reachable t → ∀ s : List α, s.length = t.storage.length →
    Reachable { storage := s, layout := t.layout } := by
  intro h
  induction h with
  | @fromVecTyped T shape data t hfits hbytes hmk =>
    intro s hs
    unfold Core.fromVecTyped at hmk
    split_ifs at hmk with hlen
    cases hmk
    refine @Reachable.fromVecTyped α T shape s _ hfits (by rwa [hs]) ?_
    rw [Core.fromVecTyped, if_neg (by rw [hs]; exact hlen)]
  | @zerosDtype zero shape dtype t hfits hmk =>
    intro s hs
    simp only [Core.zerosDtype, numel_of_fits (lt_of_le_of_lt
      (Nat.le_mul_of_pos_right _ dtype.byteSize_pos) hfits), Nat.mod_eq_of_lt hfits] at hmk
    split_ifs at hmk with hbytes
    cases hmk
    rw [length_replicate, Nat.mul_div_cancel _ dtype.byteSize_pos] at hs
    have hprod := lt_of_le_of_lt (Nat.le_mul_of_pos_right shape.prod dtype.byteSize_pos) hfits
    refine @Reachable.fromVecTyped α dtype shape s _ hprod (by rwa [hs]) ?_
    rw [Core.fromVecTyped, if_neg (by rw [hs, numel_of_fits hprod]; exact not_not.2 rfl)]
  | @view t t' op _ hop hrun ih =>
    intro s hs
    obtain ⟨l', hl', rfl⟩ := Tensor.runView_eq_ok hrun
    refine @Reachable.view α _ _ op (ih s hs) hop ?_
    rw [Tensor.runView, hl']
    rfl

/-- Other contents behind a layout that lies in order from the front. -/
theorem Fresh.refill (h : Fresh t T S f) (v : Nat → α) :
    Fresh { storage := (range t.storage.length).map v, layout := t.layout } T S v := by
  refine ⟨⟨h.shape, h.dtype, h.flag, h.bytes, ?_⟩, h.offset⟩
  intro i hi
  have hlen : i < t.storage.length := lt_of_lt_of_le hi h.prod_le
  have hlt : i < 2 ^ 64 := lt_trans hi (prod_lt_of_bytes h.bytes)
  rw [h.offset, Nat.zero_add, Nat.mod_eq_of_lt hlt, getElem?_map, getElem?_range hlen]
  rfl

theorem Dense.refill (h : Dense t T S f) (v : Nat → α) :
    Dense
      { storage := (range t.storage.length).map fun j =>
          v ((j + (u64Size - t.layout.storageOffset)) % u64Size)
        layout := t.layout } T S v := by
  refine ⟨h.shape, h.dtype, h.flag, h.bytes, ?_⟩
  intro i hi
  have hlt : (t.layout.storageOffset + i) % 2 ^ 64 < t.storage.length :=
    (List.getElem?_eq_some_iff.1 (h.cell i hi)).1
  have hoff : t.layout.storageOffset < u64Size := t.layout.offset_lt
  have hback : ((t.layout.storageOffset + i) % 2 ^ 64 + (u64Size - t.layout.storageOffset)) %
      u64Size = i := by
    have hi' := lt_trans hi (prod_lt_of_bytes h.bytes)
    unfold u64Size at hoff hi' ⊢
    omega
  rw [getElem?_map, getElem?_range hlt, Option.map_some, hback]

end Holds

/-! ## Inner products -/

section Inner

variable {R : Type}

/-- `Σ a * b` over the elements of two tensors, in shape order. -/
def innerProduct [NonUnitalNonAssocSemiring R] (a b : Tensor R) : Option R := do
  let xs ← a.elements
  let ys ← b.elements
  some (MixedRadix.dot xs ys)

theorem innerProduct_holds [NonUnitalNonAssocSemiring R] {a b : Tensor R} {T U : Dtype} {S : Shape}
    {f g : Nat → R} (ha : Holds a T S f) (hb : Holds b U S g) :
    innerProduct a b = some (∑ i ∈ Finset.range S.prod, f i * g i) := by
  rw [innerProduct, ha.elements, hb.elements, Option.bind_eq_bind, Option.bind_some,
    Option.bind_some, MixedRadix.dot, zipWith_map, zipWith_self]
  rfl

end Inner

/-! ## All multi-indices -/

variable {S : Shape}

theorem indices_eq (S : Shape) : indices S = (range S.prod).map (coordsOf S) := by
  apply ext_getElem
  · simp
  · intro i hi _
    have hget := getElem?_eq_getElem hi
    have hpos : linearOf S (indices S)[i] = i := LoopNest.position_indices S i _ hget
    have hb : InBounds S (indices S)[i] := LoopNest.mem_indices.1 (getElem_mem hi)
    rw [getElem_map, getElem_range, ← coordsOf_linearOf hb, hpos]

theorem mem_indices {I : List Nat} : I ∈ indices S ↔ InBounds S I :=
  LoopNest.mem_indices

theorem map_indices {β : Type} (S : Shape) (v : List Nat → β) :
    (indices S).map v = (range S.prod).map fun l => v (coordsOf S l) := by
  rw [indices_eq, map_map]
  rfl

variable {M : Type}

theorem sum_indices [AddCommMonoid M] (S : Shape) (f : List Nat → M) :
    ((indices S).map f).sum = ∑ i ∈ Finset.range S.prod, f (coordsOf S i) := by
  rw [map_indices]
  rfl

/-- A sum over the multi-indices that meet a condition, by linear index. -/
theorem sum_indices_filter [AddCommMonoid M] (S : Shape) (p : List Nat → Prop) [DecidablePred p]
    (f : List Nat → M) : (((indices S).filter p).map f).sum =
      ∑ i ∈ (Finset.range S.prod).filter (fun i => p (coordsOf S i)), f (coordsOf S i) := by
  rw [indices_eq, filter_map, map_map]
  rfl

theorem sum_linearOf [AddCommMonoid M] (S : Shape) (f : Nat → M) :
    ((indices S).map fun I => f (linearOf S I)).sum = ∑ i ∈ Finset.range S.prod, f i := by
  rw [sum_indices]
  refine Finset.sum_congr rfl ?_
  intro i hi
  rw [linearOf_coordsOf (Finset.mem_range.1 hi)]

end Core
end Rustorch

/-!
# Tensors of dual numbers

A tensor of dual numbers is a tensor and a tangent of the same layout.
-/

namespace Rustorch
namespace Core

section Map

variable {α β : Type} {t : Tensor α} {T : Dtype} {S : Shape} {f : Nat → α}

/-- Apply a function to the cells of the storage. -/
def Tensor.map (h : α → β) (t : Tensor α) : Tensor β :=
  { storage := t.storage.map h, layout := t.layout }

theorem Dense.map (h : α → β) (ht : Dense t T S f) : Dense (t.map h) T S fun i => h (f i) where
  shape := ht.shape
  dtype := ht.dtype
  flag := ht.flag
  bytes := ht.bytes
  cell := by
    intro i hi
    rw [Tensor.map, List.getElem?_map, ht.cell i hi]
    rfl

theorem Fresh.map (h : α → β) (ht : Fresh t T S f) : Fresh (t.map h) T S fun i => h (f i) :=
  ⟨ht.toDense.map h, ht.offset⟩

theorem Tensor.elements_map (h : α → β) (t : Tensor α) :
    (t.map h).elements = t.elements.map (List.map h) := by
  have hmap : ∀ is : List Nat, is.mapM (fun i => (t.map h).storage[t.layout.indexAt i]?) =
      (is.mapM fun i => t.storage[t.layout.indexAt i]?).map (List.map h) := by
    intro is
    induction is with
    | nil => rfl
    | cons i is ih =>
      rw [List.mapM_cons, List.mapM_cons, ih, Tensor.map, List.getElem?_map]
      cases t.storage[t.layout.indexAt i]? with
      | none => rfl
      | some a => cases is.mapM (fun i => t.storage[t.layout.indexAt i]?) <;> rfl
  rw [Tensor.elements_eq, Tensor.elements_eq]
  exact hmap _

theorem Holds.map (h : α → β) (ht : Holds t T S f) : Holds (t.map h) T S fun i => h (f i) where
  dtype := ht.dtype
  shape := ht.shape
  bytes := ht.bytes
  elements := by
    rw [Tensor.elements_map, ht.elements, Option.map_some, List.map_map]
    rfl

/-- The elements behind those of an image. -/
theorem Holds.of_map [Inhabited α] {h : α → β} {g : Nat → β} (ht : Holds (t.map h) T S g) :
    ∃ e, Holds t T S e ∧ ∀ i < S.prod, h (e i) = g i := by
  have helements := ht.elements
  rw [Tensor.elements_map, Option.map_eq_some_iff] at helements
  obtain ⟨xs, hxs, himage⟩ := helements
  have hlen : xs.length = S.prod := by simpa using congrArg List.length himage
  have hxs' : xs = (List.range S.prod).map fun i => xs.getD i default := by
    refine List.ext_getElem (by simp [hlen]) fun i hi _ => ?_
    simp [hi]
  refine ⟨fun i => xs.getD i default, ⟨ht.dtype, ht.shape, ht.bytes, hxs.trans ?_⟩, ?_⟩
  · exact congrArg some hxs'
  · intro i hi
    have hget := congrArg (fun ys => ys[i]?) himage
    have hi' : i < xs.length := hlen.symm ▸ hi
    simpa [hi, hi'] using hget

end Map

section Parts

variable {F : Type}

def realPart (t : Tensor (DualNumber F)) : Tensor F :=
  t.map TrivSqZeroExt.fst

def tangentPart (t : Tensor (DualNumber F)) : Tensor F :=
  t.map TrivSqZeroExt.snd

/-- A tensor that does not move. -/
def constant [Zero F] (t : Tensor F) : Tensor (DualNumber F) :=
  t.map TrivSqZeroExt.inl

end Parts

end Core
end Rustorch
