import Mathlib.Order.Interval.Finset.Nat
import Rustorch.Core.Materialize

/-!
# Distinct elements in distinct cells

No view operation repeats a cell: two multi-indices of a reachable tensor are stored at two
places (`reachable_address_inj`).  So a tensor with elements leaves room for all of them behind
its offset (`reachable_room`).
-/

namespace Rustorch
namespace Core

open List Layout Forall₂

/-- Two multi-indices of the axes are displaced differently. -/
def Distinct (axes : List Axis) : Prop :=
  ∀ c c', InBounds (axes.map Axis.dim) c → InBounds (axes.map Axis.dim) c' →
    displacement axes c = displacement axes c' → c = c'

/-! ## Reordered axes -/

variable {axes axes' : List Axis} {a : Axis}

/-- A reordering of axes carries the multi-indices over, one to one, with their displacement. -/
theorem exists_reindex : axes.Perm axes' → ∃ φ : List Nat → List Nat,
      (∀ c, InBounds (axes'.map Axis.dim) c → InBounds (axes.map Axis.dim) (φ c) ∧
        displacement axes (φ c) = displacement axes' c) ∧
      ∀ c c', InBounds (axes'.map Axis.dim) c → InBounds (axes'.map Axis.dim) c' →
        φ c = φ c' → c = c' := by
  intro hperm
  induction hperm with
  | nil =>
    exact ⟨id, fun c hc => ⟨hc, rfl⟩, fun c c' _ _ h => h⟩
  | @cons a l l' _ ih =>
    rcases ih with ⟨φ, hφ, hinj⟩
    refine ⟨fun c => c.headD 0 :: φ c.tail, ?_, ?_⟩
    · intro c hc
      rcases forall₂_cons_left_iff.1 hc with ⟨x, xs, hx, hxs, rfl⟩
      refine ⟨cons hx (hφ xs hxs).1, ?_⟩
      simp only [headD_cons, tail_cons, displacement_cons, (hφ xs hxs).2]
    · intro c c' hc hc' heq
      rcases forall₂_cons_left_iff.1 hc with ⟨x, xs, _, hxs, rfl⟩
      rcases forall₂_cons_left_iff.1 hc' with ⟨x', xs', _, hxs', rfl⟩
      simp only [headD_cons, tail_cons, cons.injEq] at heq
      rw [heq.1, hinj xs xs' hxs hxs' heq.2]
  -- the first two coordinates change places
  | @swap a b l =>
    refine ⟨fun c => c.tail.headD 0 :: c.headD 0 :: c.tail.tail, ?_, ?_⟩
    · intro c hc
      rcases forall₂_cons_left_iff.1 hc with ⟨x, xs, hx, hxs, rfl⟩
      rcases forall₂_cons_left_iff.1 hxs with ⟨y, ys, hy, hys, rfl⟩
      refine ⟨cons hy (cons hx hys), ?_⟩
      simp only [headD_cons, tail_cons, displacement_cons]
      ring
    · intro c c' hc hc' heq
      rcases forall₂_cons_left_iff.1 hc with ⟨x, xs, _, hxs, rfl⟩
      rcases forall₂_cons_left_iff.1 hxs with ⟨y, ys, _, _, rfl⟩
      rcases forall₂_cons_left_iff.1 hc' with ⟨x', xs', _, hxs', rfl⟩
      rcases forall₂_cons_left_iff.1 hxs' with ⟨y', ys', _, _, rfl⟩
      simp only [headD_cons, tail_cons, cons.injEq] at heq
      rw [heq.1, heq.2.1, heq.2.2]
  -- the maps compose, and both are one to one
  | @trans l l' l'' _ _ ih ih' =>
    rcases ih with ⟨φ, hφ, hinj⟩
    rcases ih' with ⟨ψ, hψ, hinj'⟩
    refine ⟨fun c => φ (ψ c), ?_, ?_⟩
    · intro c hc
      have hmid := hψ c hc
      exact ⟨(hφ _ hmid.1).1, (hφ _ hmid.1).2.trans hmid.2⟩
    · intro c c' hc hc' heq
      exact hinj' c c' hc hc' (hinj _ _ (hψ c hc).1 (hψ c' hc').1 heq)

theorem Distinct.perm : axes.Perm axes' → Distinct axes → Distinct axes' := by
  intro hperm h c c' hc hc' heq
  rcases exists_reindex hperm with ⟨φ, hφ, hinj⟩
  refine hinj c c' hc hc' (h _ _ (hφ c hc).1 (hφ c' hc').1 ?_)
  rw [(hφ c hc).2, (hφ c' hc').2, heq]

/-! ## One axis changed -/

theorem distinct_cons_one : a.dim = 1 → (Distinct (a :: axes) ↔ Distinct axes) := by
  intro ha
  constructor
  · intro h c c' hc hc' heq
    have hzero : ∀ d, InBounds (axes.map Axis.dim) d →
        InBounds ((a :: axes).map Axis.dim) (0 :: d) := by
      intro d hd
      exact cons (by omega) hd
    have hcons := h (0 :: c) (0 :: c') (hzero c hc) (hzero c' hc')
      (by rw [displacement_cons, displacement_cons, heq])
    exact (cons.inj hcons).2
  · intro h c c' hc hc' heq
    rcases forall₂_cons_left_iff.1 hc with ⟨x, xs, hx, hxs, rfl⟩
    rcases forall₂_cons_left_iff.1 hc' with ⟨x', xs', hx', hxs', rfl⟩
    have h0 : x = 0 := by
      omega
    have h0' : x' = 0 := by
      omega
    subst h0 h0'
    rw [displacement_cons, displacement_cons] at heq
    rw [h xs xs' hxs hxs' (by simpa using heq)]

/-- Every `m`-th element of an axis, `m` positive, with the exact stride wherever it counts. -/
theorem Distinct.stepped {dim m : Nat} {stride : Int} :
    1 ≤ m → (dim - 1) * m < a.dim → (2 ≤ dim → stride = a.stride * m) →
      Distinct (a :: axes) → Distinct ({ dim := dim, stride := stride } :: axes) := by
  intro hm hdim hstride h c c' hc hc' heq
  rcases forall₂_cons_left_iff.1 hc with ⟨x, xs, hx, hxs, rfl⟩
  rcases forall₂_cons_left_iff.1 hc' with ⟨x', xs', hx', hxs', rfl⟩
  have hbound : ∀ y < dim, y * m < a.dim := by
    intro y hy
    exact lt_of_le_of_lt (Nat.mul_le_mul_right m (by omega)) hdim
  have hhead : ∀ y < dim, (y : Int) * stride = ((y * m : Nat) : Int) * a.stride := by
    intro y hy
    by_cases h2 : 2 ≤ dim
    · rw [hstride h2]
      push_cast
      ring
    · have hy0 : y = 0 := by
        omega
      simp [hy0]
  rw [displacement_cons, displacement_cons, hhead x hx, hhead x' hx'] at heq
  have hold := h (x * m :: xs) (x' * m :: xs') (cons (hbound x hx) hxs)
    (cons (hbound x' hx') hxs') (by rw [displacement_cons, displacement_cons]; exact heq)
  rw [cons.injEq] at hold
  rw [Nat.eq_of_mul_eq_mul_right hm hold.1, hold.2]

/-! ## Row-major layouts -/

theorem distinct_of_contiguous {l : Layout} {n : Nat} :
    l.isContiguous = true → n < 2 ^ 63 → l.Inside n → Distinct l.axes := by
  intro hflag hn hin c c' hc hc' heq
  have hprod : l.shape.prod ≤ n := by
    rcases hin with h0 | hcont
    · exact absurd h0 (not_mem_of_inBounds hc)
    · exact hcont.numel_le
  have hmod : (linearOf l.shape c : Int) ≡ linearOf l.shape c' [ZMOD 2 ^ 64] := by
    calc
      (linearOf l.shape c : Int) ≡ displacement l.axes c [ZMOD 2 ^ 64] :=
            (displacement_of_contiguous hflag hc).symm
      _ = displacement l.axes c' := heq
      _ ≡ linearOf l.shape c' [ZMOD 2 ^ 64] := displacement_of_contiguous hflag hc'
  have hlt : linearOf l.shape c < l.shape.prod := linearOf_lt hc
  have hlt' : linearOf l.shape c' < l.shape.prod := linearOf_lt hc'
  have hlinear : linearOf l.shape c = linearOf l.shape c' := by
    unfold Int.ModEq at hmod
    omega
  calc
    c = coordsOf l.shape (linearOf l.shape c) := (coordsOf_linearOf hc).symm
    _ = coordsOf l.shape (linearOf l.shape c') := congrArg _ hlinear
    _ = c' := coordsOf_linearOf hc'

/-! ## Views -/

section Views

variable {n : Nat} {l l' : Layout}

theorem distinct_narrow {dim start length : Nat} :
    Distinct l.axes → l.narrow dim start length = .ok l' → Distinct l'.axes := by
  intro h hview
  unfold narrow at hview
  split at hview
  · cases hview
  · rename_i a ha
    split at hview
    · cases hview
    · rename_i hend
      cases hview
      refine Distinct.perm (perm_set_cons_eraseIdx ha).symm ?_
      by_cases hlen : length = 0
      · intro c c' hc
        rcases forall₂_cons_left_iff.1 hc with ⟨x, xs, hx, _, rfl⟩
        simp only at hx
        omega
      · refine (h.perm (perm_cons_eraseIdx ha)).stepped le_rfl ?_ ?_
        · omega
        · intro _
          simp

theorem distinct_slice {dim start stop step : Nat} :
    n < 2 ^ 63 → l.Inside n → Distinct l.axes → l.slice dim start stop step = .ok l' →
      Distinct l'.axes := by
  intro hn hin h hview
  unfold slice at hview
  split at hview
  · cases hview
  · rename_i a ha
    split at hview
    · cases hview
    · rename_i hend
      cases hview
      refine Distinct.perm (perm_set_cons_eraseIdx ha).symm ?_
      have hold := h.perm (perm_cons_eraseIdx ha)
      have hcons : Core.Inside n (a :: l.axes.eraseIdx dim) l.storageOffset :=
        Core.Inside.perm (perm_cons_eraseIdx ha).symm hin
      by_cases hspan : stop - start = 0
      · intro c c' hc
        rcases forall₂_cons_left_iff.1 hc with ⟨x, xs, hx, _, rfl⟩
        simp only [hspan, if_true] at hx
        omega
      · have hquot : (stop - start - 1) / step * step ≤ stop - start - 1 := Nat.div_mul_le_self _ _
        simp only [hspan, if_false]
        rcases hcons with h0 | hc
        · -- Another axis is empty: there is no multi-index.
          intro c c' hb
          rcases forall₂_cons_left_iff.1 hb with ⟨x, xs, _, hxs, rfl⟩
          rcases mem_cons.1 h0 with h0 | h0
          · omega
          · exact absurd h0 (not_mem_of_inBounds hxs)
        · refine Distinct.stepped (m := step) (by omega) ?_ ?_ hold
          · rw [Nat.add_sub_cancel]
            omega
          · intro h2
            exact hc.slice_stride hn h2 (by omega)

theorem Layout.distinct_runView {op : ViewOp} :
    n < 2 ^ 63 → op.Fits → l.Inside n → Distinct l.axes → l.runView op = .ok l' →
      Distinct l'.axes := by
  intro hn hfits hin h hview
  have hin' := hin.runView hn hfits hview
  cases op with
  | view s =>
    refine distinct_of_contiguous ?_ hn hin'
    rw [(view_eq_ok (Or.inl hview)).2.2]
    rfl
  | reshape s =>
    refine distinct_of_contiguous ?_ hn hin'
    rw [(view_eq_ok (Or.inr hview)).2.2]
    rfl
  | transpose d0 d1 =>
    simp only [runView, transpose] at hview
    split_ifs at hview with h0 h1
    cases hview
    exact h.perm (set_set_perm h0 h1).symm
  | permute perm =>
    simp only [runView, permute] at hview
    split_ifs at hview with hlen hvalid
    cases hview
    exact h.perm (permute_perm (not_not.1 hlen) (by simpa [ndim] using hvalid)).symm
  | unsqueeze dim =>
    simp only [runView, unsqueeze] at hview
    split_ifs at hview with hdim
    cases hview
    exact Distinct.perm (perm_insertIdx _ _ (not_lt.1 hdim)).symm
      ((distinct_cons_one rfl).2 h)
  | squeeze dim =>
    simp only [runView, squeeze] at hview
    split at hview
    · cases hview
    · rename_i a ha
      split_ifs at hview with hone
      cases hview
      exact (distinct_cons_one (not_not.1 hone)).1 (h.perm (perm_cons_eraseIdx ha))
  | narrow dim start length =>
    exact distinct_narrow h hview
  | slice dim start stop step =>
    exact distinct_slice hn hin h hview

end Views

/-! ## Reachable tensors -/

section Reachable

variable {α : Type} {t : Tensor α}

theorem reachable_distinct : Reachable t → Distinct t.layout.axes := by
  intro h
  induction h with
  | @fromVecTyped T shape data t hfits hlen hmk =>
    have hin := reachable_inside (Reachable.fromVecTyped hfits hlen hmk)
    refine distinct_of_contiguous ?_ hin.1 hin.2
    unfold Core.fromVecTyped at hmk
    split_ifs at hmk
    cases hmk
    rfl
  | @zerosDtype zero shape dtype t hfits hmk =>
    have hin := reachable_inside (Reachable.zerosDtype hfits hmk)
    refine distinct_of_contiguous ?_ hin.1 hin.2
    simp only [Core.zerosDtype] at hmk
    split_ifs at hmk
    cases hmk
    rfl
  | @view t t' op hreach hfits hrun ih =>
    rcases Tensor.runView_eq_ok hrun with ⟨l', hl', rfl⟩
    rcases reachable_inside hreach with ⟨hlen, hin⟩
    exact distinct_runView hlen hfits hin ih hl'

/-- Two multi-indices of a reachable tensor are stored in two cells. -/
theorem reachable_address_inj {c c' : List Nat} :
    Reachable t → InBounds t.shape c → InBounds t.shape c' →
      address t.layout.axes t.layout.storageOffset c =
        address t.layout.axes t.layout.storageOffset c' → c = c' := by
  intro h hc hc' heq
  rcases reachable_inside h with ⟨hlen, hin⟩
  rcases hin with h0 | hcont
  · exact absurd h0 (not_mem_of_inBounds hc)
  · have haddr := (hcont.address_lt hlen c hc).1
    have haddr' := (hcont.address_lt hlen c' hc').1
    refine reachable_distinct h c c' hc hc' ?_
    omega

theorem reachable_indexAt_inj {i j : Nat} :
    Reachable t → i < t.numel → j < t.numel → t.layout.indexAt i = t.layout.indexAt j → i = j := by
  intro h hi hj heq
  rw [indexAt_eq, indexAt_eq] at heq
  have hcoords := reachable_address_inj h (inBounds_coordsOf (zero_not_mem_of_lt_numel hi))
    (inBounds_coordsOf (zero_not_mem_of_lt_numel hj)) heq
  rw [reachable_numel h] at hi hj
  calc
    i = linearOf t.shape (coordsOf t.shape i) := (linearOf_coordsOf hi).symm
    _ = linearOf t.shape (coordsOf t.shape j) := congrArg _ hcoords
    _ = j := linearOf_coordsOf hj

/-- Behind its offset a tensor has room for all its elements. -/
theorem reachable_room {i : Nat} :
    Reachable t → i < t.numel → t.layout.storageOffset + t.numel ≤ t.storage.length := by
  intro h hi
  have hcont := reachable_contained h hi
  have hlen := (reachable_inside h).1
  have hcells : ∀ j < t.numel, t.layout.storageOffset ≤ t.layout.indexAt j ∧
      t.layout.indexAt j < t.storage.length := by
    intro j hj
    have hb : InBounds t.layout.shape (coordsOf t.layout.shape j) :=
      inBounds_coordsOf (zero_not_mem_of_lt_numel hj)
    have haddr := hcont.address_lt hlen _ hb
    have hdisp := displacement_bounds hcont.stride_nonneg _ hb
    rw [indexAt_eq]
    omega
  have hcard := Finset.card_le_card_of_injOn (s := Finset.range t.numel)
    (t := Finset.Ico t.layout.storageOffset t.storage.length) t.layout.indexAt
    (by
      intro j hj
      have hmem := hcells j (Finset.mem_range.1 hj)
      exact Finset.mem_coe.2 (Finset.mem_Ico.2 hmem))
    (by
      intro j hj k hk heq
      exact reachable_indexAt_inj h (Finset.mem_range.1 hj) (Finset.mem_range.1 hk) heq)
  rw [Finset.card_range, Nat.card_Ico] at hcard
  omega

end Reachable

end Core
end Rustorch
