import Rustorch.Cpu.Reduction

/-!
# Concatenation

`cat` joins tensors along an axis.  It sizes the part of each input by the product of the trailing
axes, but never below 1, so inputs whose rows are empty make it read past their buffers.
Along the first axis, inputs with nonempty rows give all their rows in order (`cat_rows`).
-/

namespace Rustorch
namespace Cpu

open Rustorch.Core List Outcome

section Model

variable {α : Type}

/-- `&buf[lo..hi]`. -/
def sliceRange (buf : List α) (lo hi : Nat) : Outcome BackendError (List α) :=
  if lo ≤ hi ∧ hi ≤ buf.length then
    .ok ((buf.drop lo).take (hi - lo))
  else
    .panic

/-- The checks of one input against the first. -/
def catValidate (first : Tensor α) (dim : Nat) (t : Tensor α) : Outcome BackendError Unit :=
  if t.layout.dtype ≠ first.layout.dtype then
    .err (.dtypeMismatch "cat" first.layout.dtype t.layout.dtype)
  else if t.shape.length ≠ first.shape.length then
    .err (.shapeMismatch "cat" first.shape t.shape)
  else if ((first.shape.zip t.shape).zipIdx.any fun x =>
      decide (x.2 ≠ dim) && decide (x.1.1 ≠ x.1.2)) then
    .err (.shapeMismatch "cat" first.shape t.shape)
  else
    .ok ()

/-- The part that one input contributes to one outer position. -/
def catPart (T : Dtype) (dim outerIdx : Nat) (t : Tensor α) : Outcome BackendError (List α) := do
  let dimSize := t.shape.getD dim 0
  let buf ← collect T t
  let inner := max (numel (t.shape.drop (dim + 1))) 1
  let inOffset := outerIdx * dimSize * inner % u64Size
  let chunkLen := dimSize * inner % u64Size
  sliceRange buf inOffset ((inOffset + chunkLen) % u64Size)

def catTyped (T : Dtype) (tensors : List (Tensor α)) (dim : Nat) (outShape : Shape) :
    Outcome BackendError (Tensor α) := do
  let nOut := numel outShape
  withCapacity T nOut
  let outer := max (numel (outShape.take dim)) 1
  let parts ← (List.range outer).mapM fun outerIdx => tensors.mapM (catPart T dim outerIdx)
  fromVecOrOom T outShape parts.flatten.flatten nOut

/-- The element types that `cat` has an arm for. -/
def catable (T : Dtype) : Bool :=
  T = .f32 ∨ T = .f64 ∨ T = .i64 ∨ T = .i32 ∨ T = .i8 ∨ T = .bool

def cat (tensors : List (Tensor α)) (dim : Nat) : Outcome BackendError (Tensor α) :=
  match tensors with
  | [] => .err (.shapeMismatch "cat" [] [])
  | first :: rest =>
    if first.shape.length ≤ dim then
      .err (.indexOutOfBounds "cat" dim first.shape.length)
    else do
      let _ ← rest.mapM (catValidate first dim)
      let totalDimSize := (tensors.map fun t => t.shape.getD dim 0).sum % u64Size
      let outShape := first.shape.set dim totalDimSize
      if catable first.layout.dtype then
        catTyped first.layout.dtype tensors dim outShape
      else
        .err (.dtypeMismatch "cat" first.layout.dtype first.layout.dtype)

end Model

/-! ## Along the first axis -/

variable {α : Type} {T : Dtype} {S : Shape} {rows : Tensor α → Nat} {elems : Tensor α → List α}
  {ts : List (Tensor α)}

theorem catValidate_ok {first t : Tensor α} {m n : Nat} :
    t.layout.dtype = first.layout.dtype → first.shape = m :: S → t.shape = n :: S →
      catValidate first 0 t = .ok () := by
  intro hdtype hfirst hshape
  have hsame : ((m :: S).zip (n :: S)).zipIdx.any (fun x =>
      decide (x.2 ≠ 0) && decide (x.1.1 ≠ x.1.2)) = false := by
    rw [any_eq_false]
    rintro ⟨⟨a, b⟩, i⟩ hmem
    obtain ⟨_, _, hget⟩ := mem_zipIdx hmem
    cases i with
    | zero => simp
    | succ i =>
      simp only [Nat.sub_zero, zip_cons_cons, getElem_cons_succ, getElem_zip, Prod.mk.injEq] at hget
      simp [hget.1, hget.2]
  rw [catValidate, if_neg (not_not.2 hdtype), hfirst, hshape, if_neg (by simp), hsame]
  rfl

/-- All inputs share element type and trailing axes. -/
structure Stackable (T : Dtype) (S : Shape) (rows : Tensor α → Nat) (ts : List (Tensor α)) :
    Prop where
  dtype : ∀ t ∈ ts, t.layout.dtype = T
  shape : ∀ t ∈ ts, t.shape = rows t :: S

theorem cat_eq (hcat : catable T = true) (h : Stackable T S rows ts) (hne : ts ≠ []) :
    cat ts 0 = catTyped T ts 0 ((ts.map rows).sum % u64Size :: S) := by
  cases ts with
  | nil => exact absurd rfl hne
  | cons first rest =>
    have hfirst := h.shape first mem_cons_self
    have hdtype := h.dtype first mem_cons_self
    have hvalid : rest.mapM (catValidate first 0) = .ok (rest.map fun _ => ()) := by
      refine mapM_eq_ok ?_
      intro t ht
      have ht := mem_cons_of_mem first ht
      exact catValidate_ok ((h.dtype t ht).trans hdtype.symm) hfirst (h.shape t ht)
    have hsum : (first :: rest).map (fun t => t.shape.getD 0 0) = (first :: rest).map rows := by
      refine map_congr_left ?_
      intro t ht
      rw [h.shape t ht]
      rfl
    have hlen : ¬ first.shape.length ≤ 0 := by simp [hfirst]
    rw [cat, if_neg hlen, hvalid, ok_bind, hsum, hdtype, if_pos hcat, hfirst]
    rfl

theorem catPart_rows {t : Tensor α} {xs : List α} {n : Nat} :
    t.layout.dtype = T → t.shape = n :: S → t.elements = some xs → xs.length = n * S.prod →
      0 < S.prod → S.prod < u64Size → xs.length < u64Size → catPart T 0 0 t = .ok xs := by
  intro hdtype hshape hxs hlen hpos hS hfit
  have hcollect : collect T t = .ok xs := by
    rw [← hdtype]
    exact expect_eq_ok.2 hxs
  have hinner : max (numel S) 1 = S.prod := by
    rw [numel_of_fits hS, Nat.max_eq_left hpos]
  have hchunk : n * S.prod % u64Size = xs.length := by
    rw [← hlen, Nat.mod_eq_of_lt hfit]
  simp only [catPart, hshape, getD_cons_zero, hcollect, ok_bind, Nat.zero_add,
    drop_succ_cons, drop_zero, hinner, Nat.zero_mul, Nat.zero_mod, hchunk,
    Nat.mod_eq_of_lt hfit, sliceRange, Nat.zero_le, le_refl, and_self, if_true, Nat.sub_zero,
    take_length]

/-- Along the first axis, all rows of all inputs, in order. -/
theorem cat_rows [Inhabited α] (hcat : catable T = true) (h : Stackable T S rows ts) (hne : ts ≠ [])
    (helems : ∀ t ∈ ts, t.elements = some (elems t) ∧ (elems t).length = rows t * S.prod)
    (hpos : 0 < S.prod) (hS : S.prod < u64Size)
    (hbytes : (ts.map rows).sum * S.prod * T.byteSize < 2 ^ 63) :
    ∃ out, cat ts 0 = .ok out ∧ out.layout.dtype = T ∧ out.shape = (ts.map rows).sum :: S ∧
      out.elements = some (ts.flatMap elems) := by
  have hsize : ((ts.map rows).sum :: S).prod * T.byteSize < 2 ^ 63 := by
    rwa [prod_cons]
  have hprod : (ts.map rows).sum * S.prod < u64Size := by
    have hlt := prod_lt_of_bytes hsize
    rwa [prod_cons] at hlt
  have hsum : (ts.map rows).sum < u64Size :=
    lt_of_le_of_lt (Nat.le_mul_of_pos_right _ hpos) hprod
  have hlength : (ts.flatMap elems).length = ((ts.map rows).sum :: S).prod := by
    rw [prod_cons, length_flatMap, ← sum_map_mul_right]
    refine congrArg sum (map_congr_left ?_)
    intro t ht
    exact (helems t ht).2
  have hpart : ∀ t ∈ ts, catPart T 0 0 t = .ok (elems t) := by
    intro t ht
    have hle : rows t ≤ (ts.map rows).sum :=
      single_le_sum (fun _ _ => Nat.zero_le _) _ (mem_map_of_mem ht)
    refine catPart_rows (h.dtype t ht) (h.shape t ht) (helems t ht).1 (helems t ht).2 hpos hS ?_
    rw [(helems t ht).2]
    exact lt_of_le_of_lt (Nat.mul_le_mul_right _ hle) hprod
  have hloop : (range 1).mapM (fun outerIdx => ts.mapM (catPart T 0 outerIdx)) =
      .ok [ts.map elems] := by
    refine mapM_eq_ok (g := fun _ => ts.map elems) ?_
    intro o ho
    rw [mem_range, Nat.lt_one_iff] at ho
    rw [ho]
    exact mapM_eq_ok hpart
  obtain ⟨out, hout, hshape, hdtype, hread⟩ := fromVecTyped_elements hlength hsize
  refine ⟨out, ?_, hdtype, hshape, hread⟩
  have houter : max (numel ([] : Shape)) 1 = 1 := rfl
  have hflat : [ts.map elems].flatten.flatten = ts.flatMap elems := by
    simp [flatMap]
  rw [cat_eq hcat h hne, Nat.mod_eq_of_lt hsum, catTyped]
  simp only [take_zero, houter, hloop, ok_bind, numel_of_bytes hsize,
    withCapacity_ok hsize, hflat, fromVecOrOom, hout]
  rfl

/-- Inputs whose rows are empty are read past their end. -/
theorem cat_empty_rows (hcat : catable T = true) (h : Stackable T S rows ts) (hne : ts ≠ []) :
    0 ∈ S → (∀ t ∈ ts, rows t = 1) → cat ts 0 = .panic := by
  intro h0 hone
  have hzero : ∀ n : Nat, numel (n :: S) = 0 := by
    intro n
    exact numel_eq_zero_of_mem (mem_cons_of_mem n h0)
  have hloop : ts.mapM (catPart T 0 0) = .panic := by
    cases ts with
    | nil => exact absurd rfl hne
    | cons t ts =>
      have hshape : t.shape = 1 :: S := by
        rw [h.shape t mem_cons_self, hone t mem_cons_self]
      have hread : collect T t = .ok [] := by
        have helems : t.elements = some [] := by
          have hnumel : t.numel = numel (1 :: S) := congrArg numel hshape
          rw [Tensor.elements_eq, hnumel, hzero]
          rfl
        rw [← h.dtype t mem_cons_self]
        exact expect_eq_ok.2 helems
      have hinner : max (numel S) 1 = 1 := by
        rw [numel_eq_zero_of_mem h0]
        rfl
      refine mapM_panic ?_
      -- One cell is read from an empty buffer.
      simp only [catPart, hread, ok_bind, hshape, getD_cons_zero, drop_succ_cons, drop_zero, hinner]
      rfl
  have hcap : withCapacity T 0 = .ok () := by
    rw [withCapacity, Nat.zero_mul]
    rfl
  rw [cat_eq hcat h hne, catTyped]
  simp only [hzero, hcap, ok_bind, take_zero]
  have houter : (range (max (numel ([] : Shape)) 1)).mapM
      (fun outerIdx => ts.mapM (catPart T 0 outerIdx)) = .panic :=
    mapM_panic hloop
  rw [houter]
  rfl

end Cpu
end Rustorch
