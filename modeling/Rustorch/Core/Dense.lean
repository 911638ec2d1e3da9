import Mathlib.Data.List.GetD
import Rustorch.Core.Broadcast
import Rustorch.Core.Elements

/-!
# Dense tensors

`Dense t T S f` says that a tensor is flagged contiguous and that its element at linear index `i`
is `f i`.  Kernels are specified by the functions of their operands and of their result; an
operand of a smaller shape is read at `sourceIndex`.
-/

namespace Rustorch
namespace Core

open List Layout MixedRadix Traversal

section Dense

variable {α : Type}

structure Dense (t : Tensor α) (T : Dtype) (S : Shape) (f : Nat → α) : Prop where
  shape : t.shape = S
  dtype : t.layout.dtype = T
  flag : t.layout.isContiguous = true
  bytes : S.prod * T.byteSize < 2 ^ 63
  cell : ∀ i < S.prod, t.storage[(t.layout.storageOffset + i) % 2 ^ 64]? = some (f i)

/-- A dense tensor that owns its buffer from the front. -/
structure Fresh (t : Tensor α) (T : Dtype) (S : Shape) (f : Nat → α) : Prop
    extends Dense t T S f where
  offset : t.layout.storageOffset = 0

variable {t : Tensor α} {T : Dtype} {S : Shape} {f : Nat → α}

theorem prod_lt_of_bytes : S.prod * T.byteSize < 2 ^ 63 → S.prod < u64Size := by
  intro h
  calc
    S.prod = S.prod * 1 := (Nat.mul_one _).symm
    _ ≤ S.prod * T.byteSize := Nat.mul_le_mul_left _ T.byteSize_pos
    _ < 2 ^ 63 := h
    _ < u64Size := by decide

theorem numel_of_bytes : S.prod * T.byteSize < 2 ^ 63 → numel S = S.prod := by
  intro h
  exact numel_of_fits (prod_lt_of_bytes h)

namespace Dense

variable (h : Dense t T S f)

include h

theorem numel : t.numel = S.prod :=
  (congrArg Core.numel h.shape).trans (numel_of_bytes h.bytes)

theorem indexAt {i : Nat} :
    i < S.prod → t.layout.indexAt i = (t.layout.storageOffset + i) % 2 ^ 64 := by
  intro hi
  apply indexAt_of_contiguous h.flag
  exact lt_of_lt_of_eq hi h.numel.symm

/-- The iterator yields the values of the function. -/
theorem elements : t.elements = some ((range S.prod).map f) := by
  rw [Tensor.elements_eq, h.numel]
  refine mapM_eq_map ?_
  intro i hi
  have hi := mem_range.1 hi
  rw [h.indexAt hi]
  exact h.cell i hi

theorem address {coords : List Nat} :
    InBounds S coords →
      t.storage[Core.address t.layout.axes t.layout.storageOffset coords]? =
        some (f (linearOf S coords)) := by
  intro hb
  have hshape : t.layout.shape = S := h.shape
  rw [address_of_contiguous h.flag (by rwa [hshape]), hshape]
  exact h.cell _ (linearOf_lt hb)

theorem of_eq {g : Nat → α} : (∀ i < S.prod, f i = g i) → Dense t T S g := by
  intro hfg
  refine ⟨h.shape, h.dtype, h.flag, h.bytes, ?_⟩
  intro i hi
  rw [h.cell i hi, hfg i hi]

end Dense

namespace Fresh

theorem storage_getElem? (h : Fresh t T S f) {i : Nat} : i < S.prod → t.storage[i]? = some (f i) := by
  intro hi
  have hc := h.cell i hi
  have hlt : i < 2 ^ 64 := lt_trans hi (prod_lt_of_bytes h.bytes)
  rwa [h.offset, Nat.zero_add, Nat.mod_eq_of_lt hlt] at hc

theorem prod_le (h : Fresh t T S f) : S.prod ≤ t.storage.length := by
  by_contra hlt
  have hnone := h.storage_getElem? (not_le.1 hlt)
  rw [getElem?_eq_none le_rfl] at hnone
  cases hnone

theorem take_storage (h : Fresh t T S f) : t.storage.take S.prod = (range S.prod).map f := by
  apply ext_getElem?
  intro i
  rw [getElem?_take, getElem?_map]
  by_cases hi : i < S.prod
  · rw [if_pos hi, h.storage_getElem? hi, getElem?_range hi]
    rfl
  · rw [if_neg hi, getElem?_eq_none (by simpa using hi)]
    rfl

theorem asSlice (h : Fresh t T S f) : t.asSlice T = .ok ((range S.prod).map f) := by
  have hlen := h.prod_le
  have hnil : ¬ (t.storage = [] ∧ 0 < t.numel) := by
    rintro ⟨hnil, hpos⟩
    rw [hnil, length_nil] at hlen
    rw [h.numel] at hpos
    omega
  have hflags : ¬ (t.layout.dtype ≠ T ∨ t.layout.isContiguous = false ∨
      t.layout.storageOffset ≠ 0) := by
    simp [h.dtype, h.flag, h.offset]
  rw [Tensor.asSlice, if_neg hflags, if_neg hnil, h.numel, if_neg (not_lt.2 hlen), h.take_storage]

end Fresh

theorem Tensor.asSlice_offset {t : Tensor α} (T : Dtype) :
    t.layout.storageOffset ≠ 0 → t.asSlice T = .err () := by
  intro hoff
  rw [Tensor.asSlice, if_pos (Or.inr (Or.inr hoff))]

/-- A vector of the right length makes a fresh tensor. -/
theorem fresh_contiguous (h : S.prod * T.byteSize < 2 ^ 63) :
    Fresh { storage := (range S.prod).map f, layout := contiguous S T } T S f := by
  refine ⟨⟨shape_contiguous S T, rfl, rfl, h, ?_⟩, rfl⟩
  intro i hi
  have hlt : i < 2 ^ 64 := lt_trans hi (prod_lt_of_bytes h)
  simp only [contiguous, Nat.zero_add, Nat.mod_eq_of_lt hlt, getElem?_map, getElem?_range hi]
  rfl

theorem fromVecTyped_fresh (h : S.prod * T.byteSize < 2 ^ 63) :
    ∃ t, fromVecTyped T S ((range S.prod).map f) = .ok t ∧ Fresh t T S f := by
  refine ⟨_, ?_, fresh_contiguous h⟩
  have hlen : ¬ ((range S.prod).map f).length ≠ Core.numel S := by
    simp [numel_of_bytes h]
  rw [fromVecTyped, if_neg hlen]

/-- A tensor made from a vector yields the vector. -/
theorem fromVecTyped_elements [Inhabited α] {data : List α} :
    data.length = S.prod → S.prod * T.byteSize < 2 ^ 63 →
      ∃ t, fromVecTyped T S data = .ok t ∧ t.shape = S ∧ t.layout.dtype = T ∧
        t.elements = some data := by
  intro hlen hbytes
  have hdata : (range S.prod).map (fun i => data.getD i default) = data := by
    rw [← hlen]
    apply ext_getElem
    · simp
    · intro i _ hi
      simp [hi]
  obtain ⟨t, ht, hfresh⟩ := @fromVecTyped_fresh α T S (fun i => data.getD i default) hbytes
  rw [hdata] at ht
  refine ⟨t, ht, hfresh.shape, hfresh.dtype, ?_⟩
  rw [hfresh.elements, hdata]

/-! ## Reachable tensors -/

theorem Layout.runView_dtype {l l' : Layout} {op : ViewOp} :
    l.runView op = .ok l' → l'.dtype = l.dtype := by
  intro h
  cases op with
  | view s =>
    rw [(view_eq_ok (Or.inl h)).2.2]
    rfl
  | reshape s =>
    rw [(view_eq_ok (Or.inr h)).2.2]
    rfl
  | transpose d0 d1 =>
    simp only [runView, transpose] at h
    split_ifs at h
    cases h
    rfl
  | permute perm =>
    simp only [runView, permute] at h
    split_ifs at h
    cases h
    rfl
  | unsqueeze dim =>
    simp only [runView, unsqueeze] at h
    split_ifs at h
    cases h
    rfl
  | squeeze dim =>
    simp only [runView, squeeze] at h
    split at h
    · cases h
    · split_ifs at h
      cases h
      rfl
  | narrow dim start length =>
    simp only [runView, narrow] at h
    split at h
    · cases h
    · split_ifs at h
      cases h
      rfl
  | slice dim start stop step =>
    simp only [runView, slice] at h
    split at h
    · cases h
    · split_ifs at h
      all_goals
        cases h
        rfl

/-- A buffer holds at most `isize::MAX` bytes. -/
theorem reachable_bytes :
    Reachable t → t.storage.length * t.layout.dtype.byteSize < 2 ^ 63 := by
  intro h
  induction h with
  | @fromVecTyped T shape data t _ hlen hmk =>
    unfold Core.fromVecTyped at hmk
    split at hmk
    · cases hmk
    · cases hmk
      exact hlen
  | @zerosDtype zero shape dtype t _ hmk =>
    simp only [Core.zerosDtype] at hmk
    split_ifs at hmk with hbytes
    cases hmk
    simp only [length_replicate]
    exact lt_of_le_of_lt (Nat.div_mul_le_self _ _) hbytes
  | @view t t' op _ _ hrun ih =>
    obtain ⟨l', hl', rfl⟩ := Tensor.runView_eq_ok hrun
    simpa only [runView_dtype hl'] using ih

/-- A view shows no more elements than its storage holds. -/
theorem reachable_prod_le : Reachable t → t.shape.prod ≤ t.storage.length := by
  intro h
  rcases (reachable_inside h).2 with h0 | hc
  · exact (prod_eq_zero h0).trans_le (Nat.zero_le _)
  · exact hc.numel_le

theorem reachable_shape_bytes : Reachable t → t.shape.prod * t.layout.dtype.byteSize < 2 ^ 63 := by
  intro h
  exact lt_of_le_of_lt (Nat.mul_le_mul_right _ (reachable_prod_le h)) (reachable_bytes h)

theorem not_mem_of_lt_prod {S : Shape} {i : Nat} : i < S.prod → 0 ∉ S := by
  intro hi h0
  rw [prod_eq_zero h0] at hi
  cases hi

theorem reachable_elements :
    Reachable t → ∃ xs, t.elements = some xs ∧ xs.length = t.shape.prod := by
  intro h
  have hnumel : t.numel = t.shape.prod := numel_of_bytes (reachable_shape_bytes h)
  have hcells : ∀ i ∈ range t.numel, ∃ v, t.storage[t.layout.indexAt i]? = some v := by
    intro i hi
    rw [hnumel] at hi
    have hb : InBounds t.layout.shape (coordsOf t.layout.shape i) :=
      inBounds_coordsOf (not_mem_of_lt_prod (mem_range.1 hi))
    refine ⟨_, getElem?_eq_getElem ?_⟩
    rw [indexAt_eq]
    exact reachable_readable h _ hb
  obtain ⟨xs, hxs⟩ := exists_mapM hcells
  refine ⟨xs, by rw [Tensor.elements_eq, hxs], ?_⟩
  have hlen := ((mapM_eq_some _ _).1 hxs).length_eq
  rw [← hlen, length_range, hnumel]

theorem reachable_dense [Inhabited α] :
    Reachable t → t.layout.isContiguous = true → ∃ f, Dense t t.layout.dtype t.shape f := by
  intro h hflag
  refine ⟨fun i => (t.storage[(t.layout.storageOffset + i) % 2 ^ 64]?).getD default, rfl, rfl,
    hflag, reachable_shape_bytes h, ?_⟩
  · intro i hi
    have h0 : 0 ∉ t.shape := not_mem_of_lt_prod hi
    have hlt := reachable_readable h (coordsOf t.layout.shape i) (inBounds_coordsOf h0)
    have hlinear : linearOf t.layout.shape (coordsOf t.layout.shape i) = i := linearOf_coordsOf hi
    rw [address_of_contiguous hflag (inBounds_coordsOf h0), hlinear] at hlt
    rw [getElem?_eq_getElem hlt]
    rfl

end Dense

/-! ## The last axis -/

variable {L : Shape} {D : Nat}

theorem coordsOf_concat (L : Shape) (D i : Nat) :
    coordsOf (L ++ [D]) i = coordsOf L (i / D) ++ [i % D] := by
  simp [coordsOf, digits]

theorem linearOf_concat (L : Shape) (D : Nat) (cs : List Nat) (c : Nat) :
    linearOf (L ++ [D]) (cs ++ [c]) = c + D * linearOf L cs := by
  simp [linearOf, value]

theorem prod_concat (L : Shape) (D : Nat) : (L ++ [D]).prod = L.prod * D := by
  simp

/-- The linear index that an operand of shape `A` is read at for index `i` of shape `S`. -/
def sourceIndex (A S : Shape) (i : Nat) : Nat :=
  linearOf A (restrict A S (coordsOf S i))

variable {i : Nat}

theorem sourceIndex_self {S : Shape} : i < S.prod → sourceIndex S S i = i := by
  intro hi
  rw [sourceIndex, restrict_self (inBounds_coordsOf (not_mem_of_lt_prod hi)), linearOf_coordsOf hi]

theorem div_lt_of_lt_prod : i < (L ++ [D]).prod → i / D < L.prod := by
  intro hi
  rw [prod_concat] at hi
  exact Nat.div_lt_of_lt_mul (by rwa [Nat.mul_comm])

/-- An operand with one value per row. -/
theorem sourceIndex_keepdim :
    i < (L ++ [D]).prod → sourceIndex (L ++ [1]) (L ++ [D]) i = i / D := by
  intro hi
  have hL : 0 ∉ L := fun h => not_mem_of_lt_prod hi (mem_append_left _ h)
  have hb : InBounds L (coordsOf L (i / D)) := inBounds_coordsOf hL
  have hlen : L.length = (coordsOf L (i / D)).length := hb.length_eq
  have hrestrict : restrict (L ++ [1]) (L ++ [D]) (coordsOf (L ++ [D]) i) =
      coordsOf L (i / D) ++ [0] := by
    rw [coordsOf_concat, restrict]
    simp only [length_append, length_cons, Nat.sub_self, drop_zero]
    rw [restrictAxes, zipWith_append hlen]
    exact congrArg (· ++ [0]) (restrictAxes_self hb)
  rw [sourceIndex, hrestrict, linearOf_concat, linearOf_coordsOf (div_lt_of_lt_prod hi),
    Nat.zero_add, Nat.one_mul]

/-- An operand with one value per column. -/
theorem sourceIndex_last : i < (L ++ [D]).prod → sourceIndex [D] (L ++ [D]) i = i % D := by
  intro hi
  have hrestrict : restrict [D] (L ++ [D]) (coordsOf (L ++ [D]) i) = [i % D] := by
    have hlen : (coordsOf L (i / D)).length = L.length := by
      simp [coordsOf]
    have hdrop : (coordsOf L (i / D) ++ [i % D]).drop ((L ++ [D]).length - [D].length) =
        [i % D] := by
      simp [← hlen]
    rw [coordsOf_concat, restrict, hdrop, restrictAxes, zipWith_cons_cons, zipWith_nil_left]
    by_cases h1 : D = 1
    · simp [h1, Nat.mod_one]
    · simp [h1]
  rw [sourceIndex, hrestrict]
  simp [linearOf, value]

theorem broadcastRev_of_fits (ls : List Nat) :
    ∀ (rs : List Nat) (i : Nat), rs.length ≤ ls.length →
      Forall₂ FitsAxis rs (ls.take rs.length) → broadcastRev ls.length ls rs i = .ok ls := by
  induction ls with
  | nil =>
    intro rs i _ _
    rfl
  | cons l ls ih =>
    intro rs i hlen hfits
    have hdim : broadcastDim l (rs.headD 1) = some l := by
      have hr : rs.headD 1 = l ∨ rs.headD 1 = 1 := by
        cases rs with
        | nil => exact Or.inr rfl
        | cons r rs =>
          rcases forall₂_cons.1 hfits with ⟨hr, _⟩
          exact hr
      unfold broadcastDim
      rcases hr with hr | hr
      · rw [if_pos hr.symm]
      · rw [hr]
        by_cases h1 : l = 1
        · rw [if_pos h1]
        · rw [if_neg h1, if_neg h1, if_pos rfl]
    have hrest : broadcastRev ls.length ls rs.tail (i + 1) = .ok ls := by
      apply ih
      · rw [length_tail]
        rw [length_cons] at hlen
        omega
      · cases rs with
        | nil => exact Forall₂.nil
        | cons r rs => exact (forall₂_cons.1 hfits).2
    rw [length_cons, broadcastRev]
    simp only [headD_cons, hdim, tail_cons, hrest]
    rfl

theorem broadcastWith_of_stretches {A S : Shape} : Stretches A S → broadcastWith S A = .ok S := by
  rintro ⟨hlen, hfits⟩
  have hrev : Forall₂ FitsAxis A.reverse (S.reverse.take A.reverse.length) := by
    rw [length_reverse, take_reverse]
    exact forall₂_reverse_iff.2 hfits
  have h := broadcastRev_of_fits S.reverse A.reverse 0 (by simpa using hlen) hrev
  rw [length_reverse] at h
  rw [broadcastWith, Nat.max_eq_left hlen, h]
  exact congrArg Except.ok (reverse_reverse S)

theorem forall₂_fitsAxis_refl (S : Shape) : Forall₂ FitsAxis S S := by
  induction S with
  | nil => exact Forall₂.nil
  | cons d S ih => exact Forall₂.cons (Or.inl rfl) ih

theorem stretches_self (S : Shape) : Stretches S S := by
  refine ⟨le_rfl, ?_⟩
  rw [Nat.sub_self, drop_zero]
  exact forall₂_fitsAxis_refl S

theorem stretches_keepdim (L : Shape) (D : Nat) : Stretches (L ++ [1]) (L ++ [D]) := by
  refine ⟨by simp, ?_⟩
  have hlen : (L ++ [D]).length - (L ++ [1]).length = 0 := by simp
  rw [hlen, drop_zero]
  refine rel_append (forall₂_fitsAxis_refl L) ?_
  exact Forall₂.cons (Or.inr rfl) Forall₂.nil

theorem stretches_last (L : Shape) (D : Nat) : Stretches [D] (L ++ [D]) := by
  refine ⟨by simp, ?_⟩
  have hdrop : (L ++ [D]).drop ((L ++ [D]).length - [D].length) = [D] := by simp
  rw [hdrop]
  exact forall₂_fitsAxis_refl [D]

theorem stretches_nil (S : Shape) : Stretches [] S := by
  refine ⟨Nat.zero_le _, ?_⟩
  simp

end Core
end Rustorch
