import Rustorch.Cpu.AxisScan
import Rustorch.Cpu.Cat

/-!
# Kernels on tensors without elements

The kernels clamp products of axis sizes to at least 1, which is right for a product over no axes
and wrong for a product with a zero.  On tensors with an axis of size 0, `cat` returns if every
input contributes a part of no elements; `sum_dim` returns if the zero axes are summed away or the
two-dimensional path takes the operand; the scans along another axis never return
(`empty_kernels_iff`).
-/

namespace Rustorch
namespace Cpu

open Rustorch.Core List Outcome Layout

/-! ## `cat` -/

section Cat

variable {α : Type} {T : Dtype} {S : Shape} {dim : Nat} {ts : List (Tensor α)} {t : Tensor α}

theorem elements_empty : 0 ∈ t.shape → t.elements = some [] := by
  intro h0
  have hnumel : t.numel = 0 := numel_eq_zero_of_mem h0
  rw [Tensor.elements_eq, hnumel]
  rfl

/-- The number of cells that `cat` copies of an input at a time. -/
def partLen (dim : Nat) (t : Tensor α) : Nat :=
  sizeAt dim t * max (numel (t.shape.drop (dim + 1))) 1 % u64Size

theorem catPart_empty (hdtype : t.layout.dtype = T) (h0 : 0 ∈ t.shape) (outer : Nat) :
    partLen dim t = 0 → catPart T dim outer t = .ok [] := by
  intro hpart
  have hread : collect T t = .ok [] := by
    rw [← hdtype]
    exact expect_eq_ok.2 (elements_empty h0)
  have hpart' : t.shape.getD dim 0 * max (numel (t.shape.drop (dim + 1))) 1 % u64Size = 0 := hpart
  have hstart : outer * t.shape.getD dim 0 * max (numel (t.shape.drop (dim + 1))) 1 % u64Size = 0 := by
    rw [Nat.mul_assoc, Nat.mul_mod, hpart', Nat.mul_zero, Nat.zero_mod]
  simp only [catPart, hread, ok_bind, hstart, hpart']
  rfl

/-- The first part of an input without elements is read past its end unless it is empty. -/
theorem catPart_first (hdtype : t.layout.dtype = T) (h0 : 0 ∈ t.shape) {part : List α} :
    catPart T dim 0 t = .ok part → partLen dim t = 0 := by
  intro h
  have hread : collect T t = .ok [] := by
    rw [← hdtype]
    exact expect_eq_ok.2 (elements_empty h0)
  simp only [catPart, hread, ok_bind, Nat.zero_mul, Nat.zero_mod, Nat.zero_add,
    sliceRange, Nat.mod_mod] at h
  split_ifs at h with hslice
  exact Nat.le_zero.1 hslice.2

/-- Joinable tensors, each with an axis of size 0. -/
structure EmptyInputs (T : Dtype) (S : Shape) (dim : Nat) (ts : List (Tensor α)) : Prop
    extends Joinable T S dim ts where
  empty : ∀ t ∈ ts, 0 ∈ t.shape
  nonempty : ts ≠ []

/-- `cat` returns the tensor of the joined shape, without elements. -/
def CatTotal (S : Shape) (dim : Nat) (ts : List (Tensor α)) : Prop :=
  ∃ out, cat ts dim = .ok out ∧ out.shape = S.set dim (ts.map (sizeAt dim)).sum ∧
    out.elements = some []

/-- Every input contributes parts of no elements, and the sizes on the axis fit into `usize`. -/
def CatCondition (T : Dtype) (dim : Nat) (ts : List (Tensor α)) : Prop :=
  catable T = true ∧ (∀ t ∈ ts, partLen dim t = 0) ∧ (ts.map (sizeAt dim)).sum < u64Size

namespace EmptyInputs

variable (h : EmptyInputs T S dim ts)

include h

theorem joined : 0 ∈ S.set dim (ts.map (sizeAt dim)).sum := by
  by_cases hall : ∀ t ∈ ts, sizeAt dim t = 0
  · have hsum : (ts.map (sizeAt dim)).sum = 0 := by
      refine sum_eq_zero ?_
      intro n hn
      obtain ⟨t, ht, rfl⟩ := mem_map.1 hn
      exact hall t ht
    rw [hsum]
    exact mem_of_getElem? (getElem?_set_self h.axis)
  · rw [not_forall] at hall
    obtain ⟨t, hall⟩ := hall
    obtain ⟨ht, hpos⟩ := Classical.not_imp.1 hall
    have hzero := zero_mem_set (h.empty t ht) (Nat.pos_of_ne_zero hpos) (ts.map (sizeAt dim)).sum
    rwa [h.shape t ht, set_set] at hzero

theorem condition_of_total : CatTotal S dim ts →
    CatCondition T dim ts := by
  rintro ⟨out, hout, hshape, _⟩
  rw [cat_joinable h.toJoinable h.nonempty] at hout
  split_ifs at hout with harm
  obtain ⟨_, _, hout⟩ := bind_eq_ok.1 hout
  obtain ⟨parts, hparts, hout⟩ := bind_eq_ok.1 hout
  refine ⟨harm, ?_, ?_⟩
  · -- The first turn of the loop is made without elements too, and reads every input.
    intro t ht
    obtain ⟨rest, hrest⟩ := range_max_one
      (numel ((S.set dim ((ts.map (sizeAt dim)).sum % u64Size)).take dim))
    obtain ⟨first, hfirst⟩ := ok_of_mapM hparts (hrest ▸ mem_cons_self)
    obtain ⟨part, hpart⟩ := ok_of_mapM hfirst ht
    exact catPart_first (h.dtype t ht) (h.empty t ht) hpart
  · -- The result has the wrapped sum as its size.
    rw [fromVecOrOom_eq_ok hout] at hshape
    have hset := (shape_contiguous _ T).symm.trans hshape
    have hget := congrArg (fun s => s[dim]?) hset
    simp only [getElem?_set_self h.axis, Option.some.injEq] at hget
    rw [← hget]
    exact Nat.mod_lt _ (by decide)

theorem total_of_condition : CatCondition T dim ts →
    CatTotal S dim ts := by
  rintro ⟨harm, hparts, hsum⟩
  have hnumel : numel (S.set dim (ts.map (sizeAt dim)).sum) = 0 := numel_eq_zero_of_mem h.joined
  have hloop : ∀ outers : List Nat, outers.mapM (fun outer => ts.mapM (catPart T dim outer)) =
      .ok (outers.map fun _ => ts.map fun _ => []) := by
    intro outers
    refine mapM_eq_ok ?_
    intro outer _
    refine mapM_eq_ok ?_
    intro t ht
    exact catPart_empty (h.dtype t ht) (h.empty t ht) outer (hparts t ht)
  have hflat : ∀ outers : List Nat,
      ((outers.map fun _ => ts.map fun _ => ([] : List α)).flatten).flatten = [] := by
    intro outers
    simp
  refine ⟨{ storage := [], layout := contiguous (S.set dim (ts.map (sizeAt dim)).sum) T },
    ?_, shape_contiguous _ T, elements_empty ?_⟩
  · have hcap : withCapacity T 0 = .ok () := by
      rw [withCapacity, Nat.zero_mul]
      rfl
    rw [cat_joinable h.toJoinable h.nonempty, if_pos harm, catTyped, Nat.mod_eq_of_lt hsum]
    simp only [hnumel, hcap, ok_bind, hloop, hflat]
    exact fromVecOrOom_eq hnumel.symm
  · rw [Tensor.shape, shape_contiguous]
    exact h.joined

theorem total_iff : CatTotal S dim ts ↔ CatCondition T dim ts :=
  ⟨h.condition_of_total, h.total_of_condition⟩

end EmptyInputs

end Cat

/-! ## `sum_dim` -/

section Sum

variable {F : Type} [AddCommMonoid F] {src : Tensor F} {T : Dtype} {S : Shape} {f : Nat → F}
  {dims : List Nat} {keepdim : Bool} {out : Tensor F}

/-- `sum_dim` returns the tensor of the reduced shape, filled with zeros. -/
def SumTotal (src : Tensor F) (dims : List Nat) (keepdim : Bool) : Prop :=
  ∃ out, sumDim src dims keepdim = .ok out ∧ out.shape = reducedShape src.shape dims keepdim ∧
    out.elements = some (List.replicate (reducedShape src.shape dims keepdim).prod 0)

/-- The output can be allocated, and has elements or is made by a two-dimensional path. -/
def SumCondition (src : Tensor F) (dims : List Nat) (keepdim : Bool) : Prop :=
  summable src.layout.dtype = true ∧
    (reducedShape src.shape dims keepdim).prod * src.layout.dtype.byteSize < 2 ^ 63 ∧
      (TakesRows src dims ∨ 0 < (reducedShape src.shape dims keepdim).prod)

omit [AddCommMonoid F] in
/-- Without elements, the generic loop leaves the clamped vector as it is. -/
theorem reduceDim_empty {init : F} {op : F → F → F} (hdtype : src.layout.dtype = T)
    (h0 : 0 ∈ src.shape) :
    reduceDim T src dims keepdim init op = (do
      let out ← filled T init (max (numel (reducedShape src.shape dims keepdim)) 1)
      fromVecOrOom T (reducedShape src.shape dims keepdim) out
        (max (numel (reducedShape src.shape dims keepdim)) 1)) := by
  have hread : collect T src = .ok [] := by
    rw [← hdtype]
    exact expect_eq_ok.2 (elements_empty h0)
  rw [reduceDim, hread, ok_bind]
  simp only [zipIdx_nil, take_nil, map_nil, Update.foldAt, expect_some, ok_bind]

/-- The generic path returns on a tensor without elements only if the output has elements. -/
theorem reduceDim_empty_ok (hdtype : src.layout.dtype = T) (h0 : 0 ∈ src.shape)
    (h : reduceDim T src dims keepdim 0 (· + ·) = .ok out) :
    numel (reducedShape src.shape dims keepdim) * T.byteSize < 2 ^ 63 ∧
      0 < numel (reducedShape src.shape dims keepdim) := by
  rw [reduceDim_empty hdtype h0] at h
  obtain ⟨data, hdata, h⟩ := bind_eq_ok.1 h
  have hbytes := filled_bytes hdata
  have hlen : max (numel (reducedShape src.shape dims keepdim)) 1 =
      numel (reducedShape src.shape dims keepdim) := by
    rw [filled_ok hbytes] at hdata
    cases hdata
    rw [fromVecOrOom, mapErr_eq_ok, fromVecTyped, length_replicate] at h
    by_contra hne
    rw [if_pos hne] at h
    cases h
  rw [hlen] at hbytes
  exact ⟨hbytes, by omega⟩

/-- A two-dimensional path allocates its output. -/
theorem sumDim2dF32_bytes {axis : Nat} (hrank : src.shape.length = 2)
    (h : sumDim2dF32 src axis keepdim = some (.ok out)) :
    (reducedShape src.shape [axis] keepdim).prod * Dtype.byteSize .f32 < 2 ^ 63 := by
  obtain ⟨rows, cols, hshape⟩ := length_eq_two.1 hrank
  rw [sumDim2dF32, hshape] at h
  rw [hshape]
  split at h
  · cases h
  · cases h
  · by_cases haxis : axis = 0
    · subst haxis
      rw [if_pos rfl, Option.some.injEq] at h
      obtain ⟨_, hfilled, _⟩ := bind_eq_ok.1 h
      have hbytes := filled_bytes hfilled
      cases keepdim <;> simpa [reducedShape] using hbytes
    · by_cases hone : axis = 1
      · subst hone
        rw [if_neg haxis, if_pos rfl, Option.some.injEq] at h
        obtain ⟨_, hfilled, _⟩ := bind_eq_ok.1 h
        have hbytes := filled_bytes hfilled
        cases keepdim <;> simpa [reducedShape] using hbytes
      · rw [if_neg haxis, if_neg hone] at h
        cases h

theorem sumTotal_iff (h : Holds src T S f) (h0 : 0 ∈ S) (hdims : ∀ d ∈ dims, d < S.length) :
    SumTotal src dims keepdim ↔ SumCondition src dims keepdim := by
  have hempty : 0 ∈ src.shape := h.shape ▸ h0
  constructor
  · rintro ⟨out, hout, hshape, helems⟩
    have harm := (sumDim_eq_ok hout).2.2
    -- The elements are as many as the wrapped product of the output shape.
    have hnumel : numel (reducedShape src.shape dims keepdim) =
        (reducedShape src.shape dims keepdim).prod := by
      have hcount : out.numel = numel out.shape := rfl
      rw [Tensor.elements_eq, hcount, hshape] at helems
      have hlen := ((Traversal.mapM_eq_some _ _).1 helems).length_eq
      rwa [length_range, length_replicate] at hlen
    have hgeneric : sumDimGeneric src dims keepdim = .ok out →
        (reducedShape src.shape dims keepdim).prod * src.layout.dtype.byteSize < 2 ^ 63 ∧
          0 < (reducedShape src.shape dims keepdim).prod := by
      intro hgen
      rw [sumDimGeneric, if_pos harm] at hgen
      have hok := reduceDim_empty_ok rfl hempty hgen
      rwa [hnumel] at hok
    rw [sumDim, validateDims_ok (by rwa [h.shape]), ok_bind] at hout
    split_ifs at hout with hrows
    · refine ⟨harm, ?_, Or.inl hrows⟩
      obtain ⟨axis, rfl⟩ := length_eq_one_iff.1 hrows.2.2.1
      split at hout
      · rename_i path hpath
        rw [hout] at hpath
        rw [hrows.1]
        exact sumDim2dF32_bytes hrows.2.1 hpath
      · exact (hgeneric hout).1
    · obtain ⟨hbytes, hpos⟩ := hgeneric hout
      exact ⟨harm, hbytes, Or.inr hpos⟩
  · rintro ⟨harm, hbytes, hpos⟩
    rw [h.dtype] at harm hbytes
    rw [h.shape] at hbytes hpos
    have hfresh := (@contiguous_fresh F T (reducedShape S dims keepdim)
      (cellSum S dims keepdim f) 0 hbytes).2
    refine ⟨_, sumDim_eq h harm hdims hbytes hpos, ?_, ?_⟩
    · rw [h.shape]
      exact hfresh.shape
    · have hzero : cellSum S dims keepdim f = fun _ => 0 := by
        funext o
        rw [cellSum, prod_eq_zero h0]
        rfl
      rw [hfresh.elements, h.shape, hzero, map_const', length_range]

end Sum

/-! ## All kernels -/

/-- A scan returns on the tensor, keeping or setting to 1 or dropping the scanned axis. -/
def ScanTotal {F : Type} (run : Outcome BackendError (Tensor F)) (shape : Shape) : Prop :=
  ∃ out, run = .ok out ∧ out.shape = shape ∧ out.elements = some []

/-- On tensors with an axis of size 0: `cat` and `sum_dim` return the right tensor exactly under
their conditions, and `cumsum`, `argmax` and `argmin` along an axis of positive size never do. -/
theorem empty_kernels_iff {F : Type} [AddCommMonoid F] [LT F] [DecidableLT F] :
    (∀ (T : Dtype) (S : Shape) (dim : Nat) (ts : List (Tensor F)), EmptyInputs T S dim ts →
      (CatTotal S dim ts ↔ CatCondition T dim ts)) ∧
    (∀ (x : Tensor F) (dims : List Nat) (keepdim : Bool), Reachable x → 0 ∈ x.shape →
      (∀ d ∈ dims, d < x.shape.length) →
        (SumTotal x dims keepdim ↔ SumCondition x dims keepdim)) ∧
    ∀ (x : Tensor F) (dim : Nat) (keepdim : Bool), Reachable x → 0 ∈ x.shape →
      0 < x.shape.getD dim 0 →
        ¬ ScanTotal (cumsum x dim) x.shape ∧
          ¬ ScanTotal (argmax x dim keepdim) (reducedShape x.shape [dim] keepdim) ∧
          ¬ ScanTotal (argmin x dim keepdim) (reducedShape x.shape [dim] keepdim) := by
  refine ⟨?_, ?_, ?_⟩
  · intro T S dim ts h
    exact h.total_iff
  · intro x dims keepdim hx h0 hdims
    let _ : Inhabited F := ⟨0⟩
    obtain ⟨f, hf⟩ := reachable_holds hx
    exact sumTotal_iff hf h0 hdims
  · intro x dim keepdim _ h0 hdim
    refine ⟨?_, ?_, ?_⟩
    · rintro ⟨out, hout, _⟩
      exact cumsum_zero h0 hdim hout
    · rintro ⟨out, hout, _⟩
      exact argDispatch_zero h0 hdim hout
    · rintro ⟨out, hout, _⟩
      exact argDispatch_zero h0 hdim hout

/-! ## Two rows without elements -/

def emptyRows : Tensor Int where
  storage := []
  layout := contiguous [2, 0] .f64

theorem emptyRows_reachable : Reachable emptyRows :=
  @Reachable.fromVecTyped Int .f64 [2, 0] [] emptyRows (by decide) (by decide) rfl

theorem emptyRows_inputs : EmptyInputs .f64 [2, 0] 0 [emptyRows] := by
  refine ⟨⟨?_, ?_, by decide⟩, ?_, by decide⟩ <;>
    · intro t ht
      rw [mem_singleton.1 ht]
      decide

theorem empty_kernels_rows :
    (CatTotal [2, 0] 0 [emptyRows] ↔ CatCondition .f64 0 [emptyRows]) ∧
      (SumTotal emptyRows [1] false ↔ SumCondition emptyRows [1] false) ∧
      ¬ ScanTotal (cumsum emptyRows 0) [2, 0] :=
  ⟨empty_kernels_iff.1 _ _ _ _ emptyRows_inputs,
    empty_kernels_iff.2.1 _ _ _ emptyRows_reachable (by decide) (by decide),
    (empty_kernels_iff.2.2 _ 0 true emptyRows_reachable (by decide) (by decide)).1⟩

/-- Concatenating and scanning the rows panics, and their sum is reported as out of memory. -/
theorem empty_kernels_fail :
    Reachable emptyRows ∧ 0 ∈ emptyRows.shape ∧ cat [emptyRows] 0 = .panic ∧
      sumDim emptyRows [0] false = .err (.outOfMemory 8) ∧ cumsum emptyRows 0 = .panic ∧
      argmax emptyRows 0 false = .panic ∧ argmin emptyRows 0 false = .panic :=
  ⟨emptyRows_reachable, by decide, rfl, rfl, rfl, rfl, rfl⟩

end Cpu
end Rustorch
