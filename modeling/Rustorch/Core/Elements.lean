import Mathlib.Data.Finset.Card
import Rustorch.Core.Contiguity
import Rustorch.Lib.Traversal

/-!
# Reading a tensor's elements

`ShapeIter` walks the elements in shape order.  `asSlice` hands out the buffer itself, for tensors
that are flagged contiguous and start at offset 0.

On a flagged layout the element at linear index `i` is stored at `offset + i`
(`indexAt_of_contiguous`).  `view` builds its result at offset 0, so it keeps the elements
whatever they are only when the source starts at offset 0 or has none (`view_elements_iff`).
-/

namespace Rustorch
namespace Core

open List Layout

/-! ## Iterators and slices -/

section Reading

variable {α : Type}

structure ShapeIter (α : Type) where
  data : List α
  axes : List Axis
  offset : Nat
  index : Nat
  numel : Nat

/-- `next`: the outer `none` is an index out of bounds, the inner one the end. -/
def ShapeIter.next (it : ShapeIter α) : Option (Option (α × ShapeIter α)) :=
  if it.numel ≤ it.index then
    some none
  else
    match it.data[stridedIndex it.index it.axes it.offset]? with
    | some v => some (some (v, { it with index := it.index + 1 }))
    | none => none

/-- Run the iterator for at most `fuel` elements; `none` is the panic. -/
def ShapeIter.collect : Nat → ShapeIter α → Option (List α)
  | 0, _ => some []
  | fuel + 1, it =>
    match it.next with
    | none => none
    | some none => some []
    | some (some (v, it')) => (ShapeIter.collect fuel it').map (fun vs => v :: vs)

namespace Tensor

/-- `iter_elements::<T>`; `none` on a dtype mismatch. -/
def iterElements (T : Dtype) (t : Tensor α) : Option (ShapeIter α) :=
  if t.layout.dtype ≠ T then
    none
  else
    some
      { data := t.storage
        axes := t.layout.axes
        offset := t.layout.storageOffset
        index := 0
        numel := t.numel }

/-- The elements that `iter_elements` yields; `none` is a panic. -/
def elements (t : Tensor α) : Option (List α) :=
  (t.iterElements t.layout.dtype).bind (fun it => it.collect it.numel)

/-- `as_slice::<T>`: an error is the source's `None`, a panic the slicing past the buffer. -/
def asSlice (T : Dtype) (t : Tensor α) : Outcome Unit (List α) :=
  if t.layout.dtype ≠ T ∨ t.layout.isContiguous = false ∨ t.layout.storageOffset ≠ 0 then
    .err ()
  else if t.storage = [] ∧ 0 < t.numel then
    .err ()
  else if t.storage.length < t.numel then
    .panic
  else
    .ok (t.storage.take t.numel)

end Tensor

/-- The storage index the iterator reads at linear index `i`. -/
def Layout.indexAt (l : Layout) (i : Nat) : Nat :=
  stridedIndex i l.axes l.storageOffset

theorem collect_eq (n : Nat) :
    ∀ it : ShapeIter α, it.index + n = it.numel →
      it.collect n =
        (range' it.index n).mapM (fun i => it.data[stridedIndex i it.axes it.offset]?) := by
  induction n with
  | zero =>
    intro it _
    rfl
  | succ n ih =>
    intro it hn
    have hlt : ¬ it.numel ≤ it.index := by
      omega
    rw [range'_succ, mapM_cons]
    cases hget : it.data[stridedIndex it.index it.axes it.offset]? with
    | none =>
      simp [ShapeIter.collect, ShapeIter.next, hlt, hget]
    | some v =>
      have hrest := ih { it with index := it.index + 1 } (by simp only; omega)
      simp only [ShapeIter.collect, ShapeIter.next, hlt, if_false, hget, hrest]
      cases (range' (it.index + 1) n).mapM
          (fun i => it.data[stridedIndex i it.axes it.offset]?) with
      | none => rfl
      | some vs => rfl

/-- The elements are the storage cells at the decoded indices, in shape order. -/
theorem Tensor.elements_eq (t : Tensor α) :
    t.elements = (range t.numel).mapM (fun i => t.storage[t.layout.indexAt i]?) := by
  have h := collect_eq t.numel
    { data := t.storage, axes := t.layout.axes, offset := t.layout.storageOffset, index := 0,
      numel := t.numel } (by simp)
  rw [range_eq_range']
  simpa [Tensor.elements, Tensor.iterElements, indexAt] using h

/-! ## Every logical index is a storage index -/

theorem indexAt_eq (l : Layout) (i : Nat) :
    l.indexAt i = address l.axes l.storageOffset (coordsOf l.shape i) :=
  stridedIndex_eq i l.axes l.storageOffset

theorem linearToOffset_eq (l : Layout) (i : Nat) :
    linearToOffset i l.shape l.strides l.storageOffset = l.indexAt i := by
  rw [linearToOffset, shape, strides, zipWith_mk_eq_self]
  rfl

theorem zero_not_mem_of_lt_numel {shape : Shape} {i : Nat} : i < numel shape → 0 ∉ shape := by
  intro hi h0
  rw [numel_eq_zero_of_mem h0] at hi
  omega

/-- On every tensor that constructors and successful views give, the three decoders send every
logical index below `numel` to a storage index: `strided_index`, `linear_to_offset`, and the
shape iterator, whose `next` yields an element. -/
theorem reachable_index_lt {t : Tensor α} :
    Reachable t → ∀ i < t.numel,
      stridedIndex i t.layout.axes t.layout.storageOffset < t.storage.length ∧
        linearToOffset i t.layout.shape t.layout.strides t.layout.storageOffset <
          t.storage.length ∧
        ∃ v it', ShapeIter.next
          { data := t.storage, axes := t.layout.axes, offset := t.layout.storageOffset, index := i,
            numel := t.numel } = some (some (v, it')) := by
  intro h i hi
  have hb : InBounds t.shape (coordsOf t.shape i) := inBounds_coordsOf (zero_not_mem_of_lt_numel hi)
  have hlt : t.layout.indexAt i < t.storage.length := by
    rw [indexAt_eq]
    exact reachable_readable h _ hb
  refine ⟨hlt, ?_, ?_⟩
  · rw [linearToOffset_eq]
    exact hlt
  · have hget : t.storage[stridedIndex i t.layout.axes t.layout.storageOffset]? =
        some (t.storage[t.layout.indexAt i]) := getElem?_eq_getElem hlt
    have hnot : ¬ t.numel ≤ i := by
      omega
    refine ⟨t.storage[t.layout.indexAt i],
      { data := t.storage, axes := t.layout.axes, offset := t.layout.storageOffset, index := i + 1,
        numel := t.numel }, ?_⟩
    simp only [ShapeIter.next, hnot, if_false, hget]

/-- The last element of a transposed and narrowed matrix. -/
theorem transposed_index_lt :
    ∃ t : Tensor Nat, t.shape = [2, 2] ∧ t.layout.storageOffset = 1 ∧
      stridedIndex 3 t.layout.axes t.layout.storageOffset < t.storage.length := by
  have hmatrix : fromVecTyped .f32 [2, 3] [0, 1, 2, 3, 4, 5] = .ok
      { storage := [0, 1, 2, 3, 4, 5], layout := contiguous [2, 3] .f32 } := rfl
  have hreach := Reachable.fromVecTyped (by decide) (by decide) hmatrix
  have htranspose := @Reachable.view Nat _ _ (.transpose 0 1) hreach trivial rfl
  have hview := @Reachable.view Nat _ _ (.narrow 0 1 2) htranspose trivial rfl
  exact ⟨_, rfl, rfl, (reachable_index_lt hview 3 (by decide)).1⟩

/-! ## Contiguous layouts -/

variable {l : Layout} {s : Shape}

theorem indexAt_of_contiguous {i : Nat} :
    l.isContiguous = true → i < l.numel → l.indexAt i = (l.storageOffset + i) % 2 ^ 64 := by
  intro hflag hi
  have hprod : i < l.shape.prod := lt_of_lt_of_le hi (Nat.mod_le _ _)
  rw [indexAt_eq, address_of_contiguous hflag (inBounds_coordsOf (zero_not_mem_of_lt_numel hi)),
    linearOf_coordsOf hprod]

/-! ## Reshaping -/

theorem view_eq_ok {v : Layout} : l.view s = .ok v ∨ l.reshape s = .ok v →
      l.isContiguous = true ∧ Core.numel s = l.numel ∧ v = contiguous s l.dtype := by
  intro h
  have hview : l.view s = .ok v := by
    rcases h with h | h
    · exact h
    · unfold reshape at h
      split at h
      · exact h
      · cases h
  unfold view at hview
  split at hview
  · cases hview
  · split at hview
    · cases hview
    · rename_i hflag hnumel
      cases hview
      exact ⟨by simpa using hflag, not_not.1 hnumel, rfl⟩

/-- Fewer cells than elements: some element of a flagged layout lies outside the storage. -/
theorem exists_indexAt_ge {n : Nat} :
    l.isContiguous = true → n < l.numel → ∃ i < l.numel, n ≤ l.indexAt i := by
  intro hflag hn
  by_contra hall
  have hlt : ∀ i < l.numel, l.indexAt i < n := by
    intro i hi
    by_contra hge
    exact hall ⟨i, hi, not_lt.1 hge⟩
  obtain ⟨i, hi, j, hj, hne, heq⟩ := Finset.exists_ne_map_eq_of_card_lt_of_maps_to
    (s := Finset.range l.numel) (t := Finset.range n) (f := l.indexAt) (by simpa using hn)
    (fun i hi => Finset.mem_coe.2 (Finset.mem_range.2 (hlt i (Finset.mem_range.1 hi))))
  have hi' := Finset.mem_range.1 hi
  have hj' := Finset.mem_range.1 hj
  have hsize : l.numel < 2 ^ 64 := numel_lt l.shape
  rw [indexAt_of_contiguous hflag hi', indexAt_of_contiguous hflag hj'] at heq
  omega

/-- `view` starts reading at the front of the storage: the elements are kept exactly if those
cells repeat the ones the source starts at, or if both readings run out of the storage. -/
theorem Layout.view_elements {v : Layout} {storage : List α} :
    l.view s = .ok v ∨ l.reshape s = .ok v →
      (Tensor.elements { storage := storage, layout := v } =
        Tensor.elements { storage := storage, layout := l } ↔
          storage.length < l.numel ∨
            ∀ i < l.numel, storage[(l.storageOffset + i) % 2 ^ 64]? = storage[i]?) := by
  intro hview
  obtain ⟨hflag, hnumel, rfl⟩ := view_eq_ok hview
  have hnv : (contiguous s l.dtype).numel = l.numel := by
    rw [numel, shape_contiguous, hnumel]
  have hsize : l.numel < 2 ^ 64 := numel_lt l.shape
  -- the new layout has offset 0 and is contiguous, so it reads cell `i` for element `i`
  have hdst : ∀ i < l.numel, (contiguous s l.dtype).indexAt i = i := by
    intro i hi
    have hidx := indexAt_of_contiguous (l := contiguous s l.dtype) rfl
      (lt_of_lt_of_eq hi hnv.symm)
    rw [hidx]
    simp only [contiguous]
    omega
  rw [Tensor.elements_eq, Tensor.elements_eq]
  simp only [Tensor.numel, hnv]
  by_cases hroom : storage.length < l.numel
  · -- Both readings leave the storage.
    have hnone : ∀ f : Nat → Nat, (∃ i < l.numel, storage.length ≤ f i) →
        (range l.numel).mapM (fun i => storage[f i]?) = none := by
      rintro f ⟨i, hi, hf⟩
      exact Traversal.mapM_eq_none (mem_range.2 hi) (getElem?_eq_none hf)
    rw [hnone _ (exists_indexAt_ge hflag hroom), hnone _ ⟨storage.length, hroom, (hdst _ hroom).ge⟩]
    simp [hroom]
  · rw [Traversal.mapM_eq_mapM_iff]
    · refine Iff.trans ?_ (or_iff_right hroom).symm
      constructor
      · intro h i hi
        have hread := h i (mem_range.2 hi)
        rw [hdst i hi, indexAt_of_contiguous hflag hi] at hread
        exact hread.symm
      · intro h i hi
        have hi' := mem_range.1 hi
        rw [hdst i hi', indexAt_of_contiguous hflag hi']
        exact (h i hi').symm
    · intro i hi
      have hi' := mem_range.1 hi
      rw [hdst i hi']
      exact ⟨storage[i], getElem?_eq_getElem (by omega)⟩

/-- For every tensor and shape, a successful `view` or `reshape` keeps the elements exactly if the
storage repeats from the offset on, or both readings leave it; it does so whatever the storage
holds if and only if the offset is 0, there are no elements, or the storage is too short. -/
theorem view_elements_iff [Nontrivial α] {t v : Tensor α} {s : Shape} :
    t.runView (.view s) = .ok v ∨ t.runView (.reshape s) = .ok v →
      (v.elements = t.elements ↔
        t.storage.length < t.numel ∨
          ∀ i < t.numel, t.storage[(t.layout.storageOffset + i) % 2 ^ 64]? = t.storage[i]?) ∧
      ((∀ data : List α, data.length = t.storage.length →
          Tensor.elements { storage := data, layout := v.layout } =
            Tensor.elements { storage := data, layout := t.layout }) ↔
        t.layout.storageOffset = 0 ∨ t.numel = 0 ∨ t.storage.length < t.numel) := by
  intro hview
  obtain ⟨l', hl', rfl⟩ : ∃ l', (t.layout.view s = .ok l' ∨ t.layout.reshape s = .ok l') ∧
      v = { storage := t.storage, layout := l' } := by
    rcases hview with h | h
    · obtain ⟨l', hl', hv⟩ := Tensor.runView_eq_ok h
      exact ⟨l', Or.inl hl', hv⟩
    · obtain ⟨l', hl', hv⟩ := Tensor.runView_eq_ok h
      exact ⟨l', Or.inr hl', hv⟩
  refine ⟨view_elements hl', ?_⟩
  have hoffset : t.layout.storageOffset < 2 ^ 64 := t.layout.offset_lt
  have hsize : t.layout.numel < 2 ^ 64 := numel_lt t.layout.shape
  constructor
  · intro hall
    by_contra hcond
    rw [not_or, not_or] at hcond
    obtain ⟨hoff, hnumel, hroom⟩ := hcond
    obtain ⟨a, b, hab⟩ := exists_pair_ne α
    -- A storage whose first cell differs from the one at the offset.
    have hmark := hall ((replicate t.storage.length a).set t.layout.storageOffset b)
      (by simp)
    rw [view_elements hl'] at hmark
    have hcell := (hmark.resolve_left (by simpa [Tensor.numel] using hroom)) 0 (Nat.pos_of_ne_zero hnumel)
    have hpos : 0 < t.storage.length :=
      lt_of_lt_of_le (Nat.pos_of_ne_zero hnumel) (not_lt.1 hroom)
    rw [Nat.add_zero, Nat.mod_eq_of_lt hoffset] at hcell
    by_cases hin : t.layout.storageOffset < t.storage.length
    · simp [hoff, hin, hpos] at hcell
      exact hab hcell.symm
    · simp [hoff, hin, hpos] at hcell
  · intro hcond data hdata
    rw [view_elements hl']
    rcases hcond with h0 | h0 | h0
    · refine Or.inr ?_
      intro i hi
      rw [h0, Nat.zero_add, Nat.mod_eq_of_lt (lt_trans hi hsize)]
    · refine Or.inr ?_
      intro i hi
      have hlt : i < t.numel := hi
      omega
    · exact Or.inl (by rwa [hdata])

/-- A tensor at offset 0 keeps its elements. -/
theorem view_elements_matrix :
    ∃ t v : Tensor Nat, fromVecTyped .f32 [2, 2] [0, 1, 2, 3] = .ok t ∧
      t.runView (.view [4]) = .ok v ∧ v.elements = t.elements := by
  refine ⟨_, _, rfl, rfl, ?_⟩
  refine (@view_elements_iff Nat _ _ _ [4] (Or.inl rfl)).1.2 (Or.inr ?_)
  intro i hi
  have h4 : i < 4 := hi
  simp only [contiguous]
  congr 1
  omega

/-- The second half of a vector reshapes to the first half. -/
theorem view_after_narrow :
    ∃ t half v : Tensor Nat, fromVecTyped .f32 [4] [0, 1, 2, 3] = .ok t ∧
      t.runView (.narrow 0 2 2) = .ok half ∧ half.runView (.view [2]) = .ok v ∧
      half.elements = some [2, 3] ∧ v.elements = some [0, 1] :=
  ⟨_, _, _, rfl, rfl, rfl, by decide, by decide⟩

end Reading

end Core
end Rustorch
