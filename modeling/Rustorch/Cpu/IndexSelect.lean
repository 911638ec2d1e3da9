import Rustorch.Cpu.Reduction

/-!
# Selecting slices of an axis

`index_select` gathers the slices of a tensor at the indices of a rank-1 `I64` tensor.  Along the
first axis it returns the selected rows, whatever the layout of the source
(`indexSelect_rows`).
-/

namespace Rustorch
namespace Cpu

open Rustorch.Core List Outcome MixedRadix

section Model

variable {α : Type}

/-- One iteration of the loop of `index_select_typed`. -/
def indexSelectAt (srcTyped : List α) (srcShape outShape : Shape) (idxVec : List Int) (dim : Nat)
    (linear : Nat) : Outcome BackendError α := do
  let coords := decodeCoords linear outShape
  let c ← expect coords[dim]?
  let j ← expect idxVec[c]?
  let srcDimSize := srcShape.getD dim 0
  if j < 0 ∨ srcDimSize ≤ j.toNat then
    .err (.indexOutOfBounds "index_select" j srcDimSize)
  else
    expect
      srcTyped[dot (coords.set dim j.toNat) (contiguousStrides srcShape)]?

def indexSelectTyped (T : Dtype) (src : Tensor α) (dim : Nat) (indices : Tensor Int) :
    Outcome BackendError (Tensor α) := do
  let srcTyped ← collect T src
  let idxVec ← collect .i64 indices
  let outShape := src.shape.set dim idxVec.length
  let nOut := numel outShape
  withCapacity T nOut
  let out ← (range nOut).mapM (indexSelectAt srcTyped src.shape outShape idxVec dim)
  fromVecOrOom T outShape out nOut

/-- The element types that `index_select` has an arm for. -/
def selectable (T : Dtype) : Bool :=
  T = .f32 ∨ T = .f64 ∨ T = .i64 ∨ T = .i32

def indexSelect (src : Tensor α) (dim : Nat) (indices : Tensor Int) :
    Outcome BackendError (Tensor α) :=
  if indices.layout.dtype ≠ .i64 then
    .err (.dtypeMismatch "index_select" indices.layout.dtype .i64)
  else if indices.shape.length ≠ 1 then
    .err (.shapeMismatch "index_select" indices.shape [indices.numel])
  else if src.shape.length ≤ dim then
    .err (.indexOutOfBounds "index_select" dim src.shape.length)
  else if selectable src.layout.dtype then
    indexSelectTyped src.layout.dtype src dim indices
  else
    .err (.dtypeMismatch "index_select" src.layout.dtype src.layout.dtype)

end Model

/-! ## Multi-indices along the first axis -/

theorem coordsOf_cons (k : Nat) (S : Shape) (i : Nat) :
    coordsOf (k :: S) i = (i / S.prod % k) :: coordsOf S i := by
  rw [coordsOf, reverse_cons, digits_concat, reverse_append, coordsOf, (reverse_perm S).prod_eq]
  rfl

theorem linearOf_cons {S : Shape} {cs : List Nat} (n c : Nat) :
    cs.length = S.length → linearOf (n :: S) (c :: cs) = linearOf S cs + S.prod * c := by
  intro hlen
  rw [linearOf, reverse_cons, reverse_cons, value_concat _ _ _ _ (by simpa),
    linearOf, (reverse_perm S).prod_eq]

theorem linearOf_coordsOf_mod (S : Shape) (i : Nat) : linearOf S (coordsOf S i) = i % S.prod := by
  rw [linearOf, coordsOf, reverse_reverse, value_digits, (reverse_perm S).prod_eq]

@[simp] theorem length_coordsOf (S : Shape) (i : Nat) : (coordsOf S i).length = S.length := by
  simp [coordsOf]

/-! ## Rows -/

variable {α : Type}

theorem collect_eq_of_elements {t : Tensor α} {xs : List α} :
    t.elements = some xs → collect t.layout.dtype t = .ok xs := by
  intro h
  exact expect_eq_ok.2 h

variable {src : Tensor α} {idx : Tensor Int} {xs : List α} {n k : Nat} {S : Shape} {g : Nat → Int}

/-- The indices that some cell of the result needs are indices of the axis. -/
def Selects (n k : Nat) (S : Shape) (g : Nat → Int) : Prop :=
  0 < S.prod → ∀ i < k, 0 ≤ g i ∧ (g i).toNat < n

variable {l : Nat}

/-- The row of a cell and the index that selects it. -/
theorem decodeCoords_row (hl : l < (k :: S).prod) :
    decodeCoords l (k :: S) = (l / S.prod) :: coordsOf S l ∧
      ((range k).map g)[l / S.prod]? = some (g (l / S.prod)) := by
  have hdiv : l / S.prod < k := Nat.div_lt_of_lt_mul (by rwa [Nat.mul_comm])
  exact ⟨by rw [decodeCoords, coordsOf_cons, Nat.mod_eq_of_lt hdiv], by simp [hdiv]⟩

theorem indexSelectAt_row (hxs : xs.length = (n :: S).prod) (hl : l < (k :: S).prod)
    (hg : 0 ≤ g (l / S.prod) ∧ (g (l / S.prod)).toNat < n) (d : α) :
    indexSelectAt xs (n :: S) (k :: S) ((range k).map g) 0 l =
      .ok (xs.getD ((g (l / S.prod)).toNat * S.prod + l % S.prod) d) := by
  obtain ⟨hcoords, hget⟩ := @decodeCoords_row _ _ g _ hl
  rw [prod_cons] at hl hxs
  have hw : 0 < S.prod := by
    rcases Nat.eq_zero_or_pos S.prod with h0 | h0
    · rw [h0, Nat.mul_zero] at hl
      omega
    · exact h0
  obtain ⟨hsign, hrow⟩ := hg
  have hlt : (g (l / S.prod)).toNat * S.prod + l % S.prod < xs.length :=
    hxs ▸ Rows.cell_lt hrow (Nat.mod_lt _ hw)
  have hdot : dot ((g (l / S.prod)).toNat :: coordsOf S l)
      (contiguousStrides (n :: S)) = (g (l / S.prod)).toNat * S.prod + l % S.prod := by
    rw [dot_usizeStrides _ (by simp), linearOf_cons _ _ (length_coordsOf S l),
      linearOf_coordsOf_mod, Nat.mul_comm, Nat.add_comm]
  have hguard : ¬ (g (l / S.prod) < 0 ∨ n ≤ (g (l / S.prod)).toNat) := by
    omega
  simp only [indexSelectAt, hcoords, getElem?_cons_zero, expect_some, ok_bind,
    hget, getD_cons_zero, if_neg hguard, set_cons_zero, hdot]
  rw [getElem?_eq_getElem hlt, expect_some, getD_eq_getElem _ _ hlt]

theorem row_of_indexSelectAt {v : α} (hl : l < (k :: S).prod) :
    indexSelectAt xs (n :: S) (k :: S) ((range k).map g) 0 l = .ok v →
      0 ≤ g (l / S.prod) ∧ (g (l / S.prod)).toNat < n := by
  intro h
  obtain ⟨hcoords, hget⟩ := @decodeCoords_row _ _ g _ hl
  simp only [indexSelectAt, hcoords, getElem?_cons_zero, expect_some, ok_bind,
    hget, getD_cons_zero] at h
  split_ifs at h with hguard
  omega

theorem indexSelect_eq (hsel : selectable src.layout.dtype = true) (hshape : src.shape = n :: S)
    (hxs : src.elements = some xs) (hidx : Dense idx .i64 [k] g) :
    indexSelect src 0 idx = (do
      withCapacity src.layout.dtype (numel (k :: S))
      let out ← (range (numel (k :: S))).mapM
        (indexSelectAt xs (n :: S) (k :: S) ((range k).map g) 0)
      fromVecOrOom src.layout.dtype (k :: S) out (numel (k :: S))) := by
  have hcollect := collect_dense hidx
  rw [prod_singleton] at hcollect
  have hone : ¬ idx.shape.length ≠ 1 := by simp [hidx.shape]
  have hdim : ¬ src.shape.length ≤ 0 := by simp [hshape]
  rw [indexSelect, if_neg (not_not.2 hidx.dtype), if_neg hone, if_neg hdim, if_pos hsel,
    indexSelectTyped, collect_eq_of_elements hxs]
  simp only [ok_bind, hcollect, hshape, length_map, length_range, set_cons_zero]

/-- Along the first axis the result holds the selected rows. -/
theorem indexSelect_rows (d : α) (hsel : selectable src.layout.dtype = true)
    (hshape : src.shape = n :: S) (hxs : src.elements = some xs) (hlen : xs.length = (n :: S).prod)
    (hidx : Dense idx .i64 [k] g) (hg : Selects n k S g)
    (hbytes : (k :: S).prod * src.layout.dtype.byteSize < 2 ^ 63) :
    ∃ out, indexSelect src 0 idx = .ok out ∧
      Fresh out src.layout.dtype (k :: S)
        (fun l => xs.getD ((g (l / S.prod)).toNat * S.prod + l % S.prod) d) := by
  obtain ⟨out, hout, hfresh⟩ := @fromVecOrOom_fresh α src.layout.dtype (k :: S)
    (fun l => xs.getD ((g (l / S.prod)).toNat * S.prod + l % S.prod) d) (k :: S).prod hbytes
  refine ⟨out, ?_, hfresh⟩
  have hloop : (range (k :: S).prod).mapM
      (indexSelectAt xs (n :: S) (k :: S) ((range k).map g) 0) =
      .ok ((range (k :: S).prod).map
        (fun l => xs.getD ((g (l / S.prod)).toNat * S.prod + l % S.prod) d)) := by
    refine mapM_eq_ok ?_
    intro l hl
    have hl := mem_range.1 hl
    have hw : 0 < S.prod := by
      exact Nat.pos_of_mul_pos_left (Nat.zero_lt_of_lt hl)
    refine indexSelectAt_row hlen hl (hg hw _ ?_) d
    exact Nat.div_lt_of_lt_mul (by rwa [Nat.mul_comm])
  rw [indexSelect_eq hsel hshape hxs hidx, numel_of_bytes hbytes, withCapacity_ok hbytes,
    ok_bind, hloop, ok_bind, hout]

/-- Along the first axis, the call returns exactly if the output can be allocated and every cell of
it comes from a row; the number of cells wraps. -/
theorem indexSelect_ok_iff (hsel : selectable src.layout.dtype = true) (hshape : src.shape = n :: S)
    (hxs : src.elements = some xs) (hlen : xs.length = (n :: S).prod)
    (hidx : Dense idx .i64 [k] g) (hw : 0 < S.prod) :
    (∃ out, indexSelect src 0 idx = .ok out) ↔
      numel (k :: S) * src.layout.dtype.byteSize < 2 ^ 63 ∧
        ∀ i, i * S.prod < numel (k :: S) → 0 ≤ g i ∧ (g i).toNat < n := by
  have hle : numel (k :: S) ≤ (k :: S).prod := Nat.mod_le _ _
  rw [indexSelect_eq hsel hshape hxs hidx]
  constructor
  · rintro ⟨out, hout⟩
    obtain ⟨_, hcap, hout⟩ := bind_eq_ok.1 hout
    obtain ⟨cells, hcells, _⟩ := bind_eq_ok.1 hout
    refine ⟨?_, ?_⟩
    · by_contra hbytes
      rw [withCapacity, if_neg hbytes] at hcap
      cases hcap
    · intro i hi
      obtain ⟨v, hv⟩ := ok_of_mapM hcells (mem_range.2 hi)
      have hrow := row_of_indexSelectAt (lt_of_lt_of_le hi hle) hv
      rwa [Nat.mul_div_cancel _ hw] at hrow
  · rintro ⟨hbytes, hg⟩
    have hcell : ∀ l < numel (k :: S), ∃ v,
        indexSelectAt xs (n :: S) (k :: S) ((range k).map g) 0 l = .ok v := by
      intro l hl
      have hrow := hg (l / S.prod) (lt_of_le_of_lt (Nat.div_mul_le_self l _) hl)
      have hpos : 0 < xs.length := by
        rw [hlen, prod_cons]
        exact Nat.mul_pos (Nat.zero_lt_of_lt hrow.2) hw
      exact ⟨_, indexSelectAt_row hlen (lt_of_lt_of_le hl hle) hrow (xs.get ⟨0, hpos⟩)⟩
    obtain ⟨cells, hcells⟩ := mapM_range_eq_ok.2 hcell
    have hcount : cells.length = numel (k :: S) := by
      rw [← (mapM_eq_ok_iff.1 hcells).length_eq, length_range]
    have hnot : ¬ cells.length ≠ numel (k :: S) := not_not.2 hcount
    refine ⟨{ storage := cells, layout := Layout.contiguous (k :: S) src.layout.dtype }, ?_⟩
    rw [withCapacity_ok hbytes, ok_bind, hcells, ok_bind, fromVecOrOom, fromVecTyped, if_neg hnot]
    rfl

end Cpu
end Rustorch
