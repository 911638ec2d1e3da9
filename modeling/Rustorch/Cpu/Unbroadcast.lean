import Rustorch.Cpu.SumDim

/-!
# Un-broadcasting a gradient

`unbroadcast_to` sums a gradient over the axes along which its target was stretched, and reshapes
the rest.  The sum goes by the element type, but the reshape takes only `F32` slices from offset 0,
so the result is the adjoint of broadcasting exactly under `UnbroadcastsRight`
(`unbroadcast_adjoint_iff`).
-/

namespace Rustorch
namespace Cpu

open Rustorch.Core List Outcome
open LoopNest (indices)

/-! ## The kernels -/

section Model

variable {F : Type}

def tensorErrorDisplay : TensorError → String
  | .shapeDataMismatch expected got shape =>
    "shape " ++ toString shape ++ " requires " ++ toString expected ++ " elements, got " ++
      toString got

/-- `reshape` of the backend. -/
def reshape (src : Tensor F) (shape : Shape) : Outcome BackendError (Tensor F) :=
  if numel shape ≠ src.numel then
    .err (.shapeMismatch "reshape" src.shape shape)
  else
    match src.asSlice .f32 with
    | .ok data =>
      mapErr (fun e => .numericalError ("reshape build: " ++ tensorErrorDisplay e))
        (ofExcept (fromVecTyped .f32 shape data))
    | .err _ => .err (.numericalError "reshape: expected contiguous F32 source")
    | .panic => .panic

/-- The target shape with leading axes of size 1. -/
def paddedTarget (gradShape target : Shape) : Shape :=
  replicate (gradShape.length - target.length) 1 ++ target

def reduceAxes (gradShape padded : Shape) : List Nat :=
  (padded.zip gradShape).zipIdx.filterMap fun x =>
    if x.1.1 = 1 ∧ 1 < x.1.2 then some x.2 else none

/-- `unbroadcast_to_impl`. -/
def unbroadcastTo [AddCommMonoid F] (grad : Tensor F) (target : Shape) :
    Outcome BackendError (Tensor F) :=
  if grad.shape = target then
    .ok grad
  else if grad.shape.length < target.length then
    .err (.shapeMismatch "unbroadcast_to" grad.shape target)
  else
    let padded := paddedTarget grad.shape target
    if (grad.shape.zip padded).any (fun gt => decide (gt.2 ≠ 1) && decide (gt.2 ≠ gt.1)) then
      .err (.shapeMismatch "unbroadcast_to" grad.shape target)
    else do
      let axes := reduceAxes grad.shape padded
      let reduced ← if axes.isEmpty then .ok grad else sumDim grad axes true
      if reduced.shape = target then
        .ok reduced
      else
        reshape reduced target

end Model

/-! ## What it should do -/

section Spec

variable {R : Type} [NonUnitalNonAssocSemiring R]

/-- `Σ g * broadcast(x)` over the shape of `g`. -/
def broadcastInner (g x : Tensor R) : Option R := do
  let vs ← (indices g.shape).mapM fun I =>
    Option.map₂ (· * ·) (elementAt g I) (elementAt x (restrict x.shape g.shape I))
  some vs.sum

/-- The un-broadcast gradient has the shape of `x` and pairs with `x` as the gradient does with
the broadcast `x`. -/
def UnbroadcastsTo (g x : Tensor R) : Prop :=
  ∃ out r, unbroadcastTo g x.shape = .ok out ∧ out.shape = x.shape ∧
    broadcastInner g x = some r ∧ innerProduct out x = some r

/-- What the sum and the reshape take, for a gradient of any layout. -/
def Unbroadcastable (g : Tensor R) (target : Shape) : Prop :=
  g.shape = target ∨
    (g.shape.length = target.length ∧ summable g.layout.dtype = true) ∨
      (target.length < g.shape.length ∧ g.layout.dtype = .f32 ∧
        (reduceAxes g.shape (paddedTarget g.shape target) ≠ [] ∨
          (g.layout.isContiguous = true ∧ g.layout.storageOffset = 0)))

/-- The condition on the gradient and the target shape. -/
def UnbroadcastsRight (g : Tensor R) (target : Shape) : Prop :=
  0 ∉ g.shape ∧
    (g.shape = target ∨
      (g.shape.length = target.length ∧ summable g.layout.dtype = true) ∨
        (target.length < g.shape.length ∧ g.layout.dtype = .f32 ∧
          (reduceAxes g.shape (paddedTarget g.shape target) ≠ [] ∨ g.layout.storageOffset = 0)))

end Spec

/-! ## The reduced axes -/

section Axes

variable {S G P : Shape}

theorem paddedTarget_of_length (h : G.length = S.length) : paddedTarget G S = S := by
  rw [paddedTarget, h, Nat.sub_self, replicate_zero, nil_append]

theorem length_paddedTarget (h : S.length ≤ G.length) :
    (paddedTarget G S).length = G.length := by
  rw [paddedTarget, length_append, length_replicate]
  omega

theorem fits_padded : Stretches S G → Forall₂ FitsAxis (paddedTarget G S) G := by
  rintro ⟨hlen, hfits⟩
  have hones : Forall₂ FitsAxis (replicate (G.length - S.length) 1)
      (G.take (G.length - S.length)) := by
    rw [forall₂_iff_get]
    refine ⟨by simp, ?_⟩
    intro i _ _
    exact Or.inr (by simp)
  have hall : Forall₂ FitsAxis (replicate (G.length - S.length) 1 ++ S)
      (G.take (G.length - S.length) ++ G.drop (G.length - S.length)) :=
    rel_append hones hfits
  rwa [take_append_drop] at hall

variable {i : Nat} {I : List Nat}

theorem mem_reduceAxes : i ∈ reduceAxes G P ↔ ∃ d, P[i]? = some 1 ∧ G[i]? = some d ∧ 1 < d := by
  rw [reduceAxes, mem_filterMap]
  constructor
  · rintro ⟨⟨⟨p, d⟩, k⟩, hmem, hk⟩
    split_ifs at hk with hpd
    cases hk
    have hget := getElem?_zip_eq_some.1 (mk_mem_zipIdx_iff_getElem?.1 hmem)
    exact ⟨d, by rw [hget.1]; exact congrArg some hpd.1, hget.2, hpd.2⟩
  · rintro ⟨d, hp, hd, hlt⟩
    refine ⟨((1, d), i), ?_, if_pos ⟨rfl, hlt⟩⟩
    exact mk_mem_zipIdx_iff_getElem?.2 (getElem?_zip_eq_some.2 ⟨hp, hd⟩)

theorem lt_of_mem_reduceAxes : i ∈ reduceAxes G P → i < G.length := by
  intro h
  obtain ⟨d, _, hd, _⟩ := mem_reduceAxes.1 h
  exact (List.getElem?_eq_some_iff.1 hd).1

section

variable (hfits : Forall₂ FitsAxis P G)

include hfits

theorem reduceAxes_axis (h0 : 0 ∉ G) (hi : i < G.length) :
    ∃ p d, P[i]? = some p ∧ G[i]? = some d ∧
      ((i ∈ reduceAxes G P ∧ p = 1) ∨ (i ∉ reduceAxes G P ∧ p = d)) := by
  have hP : i < P.length := by rw [hfits.length_eq]; exact hi
  refine ⟨P[i], G[i], getElem?_eq_getElem hP, getElem?_eq_getElem hi, ?_⟩
  have hfit := (forall₂_iff_get.1 hfits).2 i hP hi
  have hpos : G[i] ≠ 0 := fun hz => h0 (hz ▸ getElem_mem hi)
  simp only [get_eq_getElem, FitsAxis] at hfit
  rw [mem_reduceAxes, getElem?_eq_getElem hP, getElem?_eq_getElem hi]
  simp only [Option.some.injEq, exists_eq_left', exists_and_left]
  omega

theorem reducedShape_padded (h0 : 0 ∉ G) :
    reducedShape G (reduceAxes G P) true = P := by
  rw [reducedShape, if_pos rfl]
  apply ext_getElem?
  intro i
  rw [getElem?_map, getElem?_zipIdx]
  by_cases hi : i < G.length
  · obtain ⟨p, d, hp, hd, h⟩ := reduceAxes_axis hfits h0 hi
    rw [hp, hd]
    rcases h with ⟨hmem, rfl⟩ | ⟨hmem, rfl⟩
    · simp [hmem]
    · simp [hmem]
  · rw [getElem?_eq_none (not_lt.1 hi),
      getElem?_eq_none (by rw [hfits.length_eq]; exact not_lt.1 hi)]
    rfl

theorem reducedCoords_padded (h0 : 0 ∉ G) (hI : InBounds G I) :
    reducedCoords I (reduceAxes G P) true = restrictAxes P I := by
  have hmap : reducedCoords I (reduceAxes G P) true =
      I.zipIdx.map fun ci => if ci.2 ∈ reduceAxes G P then 0 else ci.1 := by
    rw [reducedCoords, ← filterMap_eq_map]
    refine filterMap_congr ?_
    intro ci _
    by_cases hmem : ci.2 ∈ reduceAxes G P
    · simp [hmem]
    · simp [hmem]
  rw [hmap]
  apply ext_getElem?
  intro i
  rw [getElem?_map, getElem?_zipIdx, restrictAxes, getElem?_zipWith]
  by_cases hi : i < G.length
  · obtain ⟨p, d, hp, hd, h⟩ := reduceAxes_axis hfits h0 hi
    have hiI : i < I.length := by rw [← hI.length_eq]; exact hi
    have hlt : I[i] < G[i] := (forall₂_iff_get.1 hI).2 i hi hiI
    rw [getElem?_eq_getElem hi, Option.some.injEq] at hd
    rw [hp, getElem?_eq_getElem hiI]
    rcases h with ⟨hmem, rfl⟩ | ⟨hmem, rfl⟩
    · simp [hmem]
    · -- An axis of size 1 has the single coordinate 0.
      by_cases h1 : p = 1
      · have hzero : I[i] = 0 := by omega
        simp [hmem, h1, hzero]
      · simp [hmem, h1]
  · rw [getElem?_eq_none (by rw [← hI.length_eq]; exact not_lt.1 hi)]
    simp

end

theorem prod_paddedTarget : (paddedTarget G S).prod = S.prod := by
  simp [paddedTarget]

theorem linearOf_padded (h : Stretches S G) (hI : InBounds G I) :
    linearOf (paddedTarget G S) (restrictAxes (paddedTarget G S) I) =
      linearOf S (restrict S G I) := by
  have hlen : (replicate (G.length - S.length) 1).length = (I.take (G.length - S.length)).length := by
    rw [length_replicate, length_take, ← hI.length_eq]
    omega
  have hones : ∀ (n : Nat) (xs : List Nat), xs.length = n →
      restrictAxes (replicate n 1) xs = replicate n 0 := by
    intro n xs hxs
    apply ext_getElem
    · simp [restrictAxes, hxs]
    · intro i _ _
      simp [restrictAxes]
  have hlead : ∀ (n : Nat) (S J : List Nat), J.length = S.length →
      linearOf (replicate n 1 ++ S) (replicate n 0 ++ J) = linearOf S J := by
    intro n
    induction n with
    | zero =>
      intro S J _
      rfl
    | succ n ih =>
      intro S J hJ
      rw [replicate_succ, replicate_succ, cons_append, cons_append,
        linearOf_cons _ _ (by simp [hJ]), Nat.mul_zero, Nat.add_zero, ih S J hJ]
  have hsplit : restrictAxes (paddedTarget G S) I =
      replicate (G.length - S.length) 0 ++ restrict S G I := by
    conv_lhs => rw [← take_append_drop (G.length - S.length) I]
    rw [paddedTarget, restrictAxes, zipWith_append hlen, ← restrictAxes, ← restrictAxes,
      hones _ _ (by rw [← hlen, length_replicate]), restrict]
  rw [hsplit, paddedTarget]
  exact hlead _ _ _ (inBounds_restrict h hI).length_eq.symm

theorem reducedCell_padded (h : Stretches S G) (h0 : 0 ∉ G) (l : Nat) :
    reducedCell G (reduceAxes G (paddedTarget G S)) true l = sourceIndex S G l := by
  have hI : InBounds G (coordsOf G l) := inBounds_coordsOf h0
  rw [reducedCell, reducedShape_padded (fits_padded h) h0,
    reducedCoords_padded (fits_padded h) h0 hI, linearOf_padded h hI, sourceIndex]

end Axes

/-! ## Results -/

section Results

variable {R : Type} {g x : Tensor R} {T : Dtype} {S G : Shape} {f v : Nat → R}

/-- An `F32` tensor in front of its buffer is reshaped to any shape of its size. -/
theorem reshape_fresh (h : Fresh g .f32 G f) (hprod : S.prod = G.prod) :
    ∃ out, reshape g S = .ok out ∧ Fresh out .f32 S f := by
  have hbytes : S.prod * Dtype.byteSize .f32 < 2 ^ 63 := by
    rw [hprod]
    exact h.bytes
  obtain ⟨out, hout, hfresh⟩ := @fromVecTyped_fresh R .f32 S f hbytes
  refine ⟨out, ?_, hfresh⟩
  have hsame : ¬ numel S ≠ g.numel := by
    rw [numel_of_bytes hbytes, h.numel, hprod]
    exact not_not.2 rfl
  rw [reshape, if_neg hsame, h.asSlice]
  simp only [← hprod, hout]
  rfl

variable {out : Tensor R} {target : Shape}

theorem reshape_eq_ok :
    reshape g target = .ok out → numel target = g.numel ∧ g.layout.dtype = .f32 ∧
      g.layout.isContiguous = true ∧ g.layout.storageOffset = 0 := by
  intro h
  unfold reshape at h
  split_ifs at h with hnumel
  refine ⟨not_not.1 hnumel, ?_⟩
  rw [Tensor.asSlice] at h
  split_ifs at h with hflags
  all_goals
    simp only [not_or, not_not, Bool.not_eq_false] at hflags
    exact hflags

variable [AddCommMonoid R]

theorem unbroadcastTo_eq (hne : g.shape ≠ target) (h : Stretches target g.shape) :
    unbroadcastTo g target =
      (if (reduceAxes g.shape (paddedTarget g.shape target)).isEmpty then .ok g
        else sumDim g (reduceAxes g.shape (paddedTarget g.shape target)) true) >>= fun reduced =>
          if reduced.shape = target then .ok reduced else reshape reduced target := by
  have hvalid : ¬ ((g.shape.zip (paddedTarget g.shape target)).any
      fun gt => decide (gt.2 ≠ 1) && decide (gt.2 ≠ gt.1)) = true := by
    rw [any_eq_true]
    rintro ⟨⟨d, p⟩, hmem, hbad⟩
    obtain ⟨i, hi, hget⟩ := mem_iff_getElem.1 hmem
    rw [getElem_zip, Prod.mk.injEq] at hget
    rw [length_zip] at hi
    have hfit := (forall₂_iff_get.1 (fits_padded h)).2 i (by omega) (by omega)
    simp only [get_eq_getElem, hget, FitsAxis] at hfit
    simp only [Bool.and_eq_true, decide_eq_true_eq] at hbad
    omega
  rw [unbroadcastTo, if_neg hne, if_neg (not_lt.2 h.1)]
  simp only [hvalid]
  by_cases hnil : (reduceAxes g.shape (paddedTarget g.shape target)).isEmpty
  · simp only [hnil, if_true]
    rfl
  · simp only [hnil]
    rfl

/-- The sum of the gradient over the indices that the target is read at. -/
def sourceSum (S G : Shape) (f : Nat → R) (o : Nat) : R :=
  ∑ l ∈ (Finset.range G.prod).filter (fun l => sourceIndex S G l = o), f l

theorem reduceAxes_nil (h : Stretches S G) (h0 : 0 ∉ G)
    (hnil : reduceAxes G (paddedTarget G S) = []) : paddedTarget G S = G := by
  have hshape := reducedShape_padded (fits_padded h) h0
  rw [hnil, reducedShape, if_pos rfl] at hshape
  simpa using hshape.symm

theorem sourceSum_of_nil (h : Stretches S G) (h0 : 0 ∉ G)
    (hnil : reduceAxes G (paddedTarget G S) = []) :
    S.prod = G.prod ∧ ∀ o < G.prod, f o = sourceSum S G f o := by
  have hP := reduceAxes_nil h h0 hnil
  have hprod : S.prod = G.prod := by
    rw [← prod_paddedTarget (G := G), hP]
  have hself : ∀ l < G.prod, sourceIndex S G l = l := by
    intro l hl
    have hI : InBounds G (coordsOf G l) := inBounds_coordsOf h0
    rw [sourceIndex, ← linearOf_padded h hI, hP, restrictAxes_self hI, linearOf_coordsOf hl]
  refine ⟨hprod, ?_⟩
  intro o ho
  rw [sourceSum, Finset.sum_filter, Finset.sum_eq_single o]
  · rw [if_pos (hself o ho)]
  · intro l hl hne
    rw [hself l (Finset.mem_range.1 hl), if_neg hne]
  · intro hnot
    exact absurd (Finset.mem_range.2 ho) hnot

theorem sumDim_padded (hg : Holds g T G f) (harm : summable T = true) (h : Stretches S G)
    (h0 : 0 ∉ G) :
    ∃ red, sumDim g (reduceAxes G (paddedTarget G S)) true = .ok red ∧
      Fresh red T (paddedTarget G S) (sourceSum S G f) := by
  have hshape := reducedShape_padded (fits_padded h) h0
  obtain ⟨hpos, hle⟩ := reducedShape_prod h0 (reduceAxes G (paddedTarget G S)) true
  have hbytes := lt_of_le_of_lt (Nat.mul_le_mul_right T.byteSize hle) hg.bytes
  have hcells : cellSum G (reduceAxes G (paddedTarget G S)) true f = sourceSum S G f := by
    funext o
    rw [cellSum, sourceSum]
    simp only [reducedCell_padded h h0]
  have hsum := @sumDim_eq R g T G f (reduceAxes G (paddedTarget G S)) true _ hg harm
    (fun d hd => lt_of_mem_reduceAxes hd) hbytes (Or.inr hpos)
  rw [hcells] at hsum
  have hfresh := (@contiguous_fresh R T _ (sourceSum S G f) 0 hbytes).2
  refine ⟨_, hsum, ?_⟩
  rwa [hshape] at hfresh ⊢

theorem reduceAxes_self (S : Shape) : reduceAxes S (paddedTarget S S) = [] := by
  rw [paddedTarget_of_length rfl, eq_nil_iff_forall_not_mem]
  intro i hi
  obtain ⟨d, hp, hd, hlt⟩ := mem_reduceAxes.1 hi
  rw [hd] at hp
  cases hp
  omega

/-- With as many axes as the target, one sum gives the target shape. -/
theorem unbroadcastTo_sum (hg : Holds g T G f) (harm : summable T = true) (h : Stretches S G)
    (h0 : 0 ∉ G) (hsame : G ≠ S) (hrank : G.length = S.length) :
    ∃ red, unbroadcastTo g S = .ok red ∧ Fresh red T S (sourceSum S G f) := by
  have heq := unbroadcastTo_eq (by rwa [hg.shape]) (by rwa [hg.shape])
  have hpad := paddedTarget_of_length hrank
  have hsome : (reduceAxes G (paddedTarget G S)).isEmpty = false := by
    rw [isEmpty_eq_false_iff]
    intro hnil
    exact hsame ((reduceAxes_nil h h0 hnil).symm.trans hpad)
  obtain ⟨red, hred, hfresh⟩ := sumDim_padded hg harm h h0
  rw [hpad] at hfresh
  refine ⟨red, ?_, hfresh⟩
  rw [heq, hg.shape, hsome]
  simp only [Bool.false_eq_true, if_false, hred, ok_bind, if_pos hfresh.shape]

theorem unbroadcastTo_reshape (hg : Holds g .f32 G f) (h : Stretches S G) (h0 : 0 ∉ G)
    (hrank : S.length < G.length)
    (haxes : reduceAxes G (paddedTarget G S) ≠ [] ∨
      (g.layout.isContiguous = true ∧ g.layout.storageOffset = 0)) :
    ∃ out, unbroadcastTo g S = .ok out ∧ Holds out .f32 S (sourceSum S G f) := by
  have hlonger : paddedTarget G S ≠ S := by
    intro hPS
    have hlen := length_paddedTarget h.1
    rw [hPS] at hlen
    omega
  have hne : g.shape ≠ S := by
    rw [hg.shape]
    rintro rfl
    exact lt_irrefl _ hrank
  have heq := unbroadcastTo_eq hne (by rwa [hg.shape])
  rw [hg.shape] at heq
  by_cases hnil : reduceAxes G (paddedTarget G S) = []
  · -- Nothing is summed, so the slice of the gradient itself has to start at offset 0.
    obtain ⟨hprod, hself⟩ := @sourceSum_of_nil R S G f _ h h0 hnil
    obtain ⟨hflag, hoff⟩ := haxes.resolve_left (not_not.2 hnil)
    obtain ⟨out, hout, hfresh⟩ := reshape_fresh ⟨hg.dense hflag, hoff⟩ hprod
    refine ⟨out, ?_, hfresh.holds.congr ?_⟩
    · simp only [heq, hnil, isEmpty_nil, if_true, ok_bind, if_neg hne, hout]
    · intro o ho
      exact hself o (by rwa [← hprod])
  · -- The sum is a tensor of its own, whose offset is 0.
    have hsome : (reduceAxes G (paddedTarget G S)).isEmpty = false := by
      rwa [isEmpty_eq_false_iff]
    obtain ⟨red, hred, hfresh⟩ := sumDim_padded hg rfl h h0
    obtain ⟨out, hout, houtfresh⟩ := reshape_fresh hfresh prod_paddedTarget.symm
    have hshape : red.shape ≠ S := by
      rwa [hfresh.shape]
    refine ⟨out, ?_, houtfresh.holds⟩
    simp only [heq, hsome, Bool.false_eq_true, if_false, hred, ok_bind, if_neg hshape, hout]

theorem unbroadcastTo_right (hg : Holds g T G f) (h : Stretches S G) (h0 : 0 ∉ G)
    (hright : Unbroadcastable g S) :
    ∃ out U, unbroadcastTo g S = .ok out ∧ Holds out U S (sourceSum S G f) := by
  rw [Unbroadcastable, hg.shape, hg.dtype] at hright
  by_cases hsame : G = S
  · subst hsame
    refine ⟨g, T, ?_, hg.congr (sourceSum_of_nil h h0 (reduceAxes_self G)).2⟩
    rw [unbroadcastTo, if_pos hg.shape]
  · rcases hright with hGS | ⟨hrank, harm⟩ | ⟨hrank, hf32, haxes⟩
    · exact absurd hGS hsame
    · obtain ⟨out, hout, hfresh⟩ := unbroadcastTo_sum hg harm h h0 hsame hrank
      exact ⟨out, T, hout, hfresh.holds⟩
    · subst hf32
      obtain ⟨out, hout, hholds⟩ := unbroadcastTo_reshape hg h h0 hrank haxes
      exact ⟨out, .f32, hout, hholds⟩

variable {red : Tensor R}

theorem reduced_of_ok (hg : Holds g T G f) :
    (if (reduceAxes G (paddedTarget G S)).isEmpty then .ok g
      else sumDim g (reduceAxes G (paddedTarget G S)) true) = .ok red →
        red.shape = reducedShape G (reduceAxes G (paddedTarget G S)) true ∧
          red.layout.dtype = T ∧
            (reduceAxes G (paddedTarget G S) = [] ∧ red = g ∨ summable T = true) := by
  intro hred
  by_cases hnil : reduceAxes G (paddedTarget G S) = []
  · rw [hnil, isEmpty_nil, if_pos rfl] at hred
    cases hred
    refine ⟨?_, hg.dtype, Or.inl ⟨hnil, rfl⟩⟩
    rw [hnil, hg.shape, reducedShape, if_pos rfl]
    simp
  · rw [if_neg (by simpa using hnil)] at hred
    obtain ⟨hs, hd, harm⟩ := sumDim_eq_ok hred
    rw [hg.shape] at hs
    rw [hg.dtype] at hd harm
    exact ⟨hs, hd, Or.inr harm⟩

omit [AddCommMonoid R] in
theorem not_mem_of_reshaped (hS : 0 ∉ S) (hfits : S.prod < u64Size)
    (hrshape : red.shape = reducedShape G (reduceAxes G (paddedTarget G S)) true) :
    (if red.shape = S then .ok red else reshape red S) = .ok out → 0 ∉ G := by
  intro hout hmem
  obtain ⟨i, hi, hzero⟩ := mem_iff_getElem.1 hmem
  have hnot : i ∉ reduceAxes G (paddedTarget G S) := by
    intro hi'
    obtain ⟨d, _, hd, hlt⟩ := mem_reduceAxes.1 hi'
    rw [getElem?_eq_getElem hi, hzero] at hd
    cases hd
    omega
  have hred0 : 0 ∈ red.shape := by
    rw [hrshape, reducedShape, if_pos rfl, mem_map]
    refine ⟨(0, i), ?_, if_neg hnot⟩
    rw [mk_mem_zipIdx_iff_getElem?, getElem?_eq_getElem hi, hzero]
  have hrS : red.shape ≠ S := fun hrS => hS (hrS ▸ hred0)
  rw [if_neg hrS] at hout
  -- The reshape compares the numbers of elements, and the target has some.
  have hnumel := (reshape_eq_ok hout).1
  have hzero : red.numel = 0 := numel_eq_zero_of_mem hred0
  rw [hzero, numel_of_fits hfits] at hnumel
  exact hS (prod_eq_zero_iff.1 hnumel)

/-- A result of the target's shape needs the condition. -/
theorem unbroadcastable_of_ok (hg : Holds g T G f) (h : Stretches S G) (hS : 0 ∉ S)
    (hfits : S.prod < u64Size) : unbroadcastTo g S = .ok out → 0 ∉ G ∧ Unbroadcastable g S := by
  intro hout
  by_cases hsame : G = S
  · subst hsame
    exact ⟨hS, Or.inl hg.shape⟩
  · have hne : g.shape ≠ S := by rwa [hg.shape]
    rw [unbroadcastTo_eq hne (by rwa [hg.shape]), hg.shape, bind_eq_ok] at hout
    obtain ⟨red, hred, hout⟩ := hout
    obtain ⟨hrshape, hrdtype, harm⟩ := reduced_of_ok hg hred
    have h0 := not_mem_of_reshaped hS hfits hrshape hout
    refine ⟨h0, Or.inr ?_⟩
    rw [hg.shape, hg.dtype]
    rw [reducedShape_padded (fits_padded h) h0] at hrshape
    rcases Nat.lt_or_ge S.length G.length with hlt | hge
    · -- More axes than the target: the slice that is reshaped is `F32`, from offset 0.
      refine Or.inr ⟨hlt, ?_⟩
      have hrS : red.shape ≠ S := by
        intro hrS
        have hlen := congrArg length (hrshape.symm.trans hrS)
        rw [length_paddedTarget h.1] at hlen
        omega
      rw [if_neg hrS] at hout
      obtain ⟨_, hf32, hslice⟩ := reshape_eq_ok hout
      refine ⟨hrdtype.symm.trans hf32, ?_⟩
      by_cases hnil : reduceAxes G (paddedTarget G S) = []
      · rw [hnil, isEmpty_nil, if_pos rfl] at hred
        cases hred
        exact Or.inr hslice
      · exact Or.inl hnil
    · -- As many axes: the shapes differ, so something was summed.
      have hrank : G.length = S.length := le_antisymm hge h.1
      refine Or.inl ⟨hrank, harm.resolve_left ?_⟩
      rintro ⟨hnil, _⟩
      exact hsame ((reduceAxes_nil h h0 hnil).symm.trans (paddedTarget_of_length hrank))

omit [AddCommMonoid R] in
/-- For a contiguous gradient the flag is no condition. -/
theorem unbroadcastsRight_iff : g.layout.isContiguous = true →
      (UnbroadcastsRight g target ↔ 0 ∉ g.shape ∧ Unbroadcastable g target) := by
  intro hflag
  simp only [UnbroadcastsRight, Unbroadcastable, hflag, true_and]

end Results

/-! ## The adjoint of broadcasting -/

section Adjoint

variable {R : Type} [CommRing R] {g x : Tensor R}

theorem broadcastInner_holds {T U : Dtype} {S G : Shape} {f v : Nat → R} (hg : Holds g T G f)
    (hx : Holds x U S v) (h : Stretches S G) :
    broadcastInner g x = some (∑ l ∈ Finset.range G.prod, f l * v (sourceIndex S G l)) := by
  have hloop : (indices G).mapM (fun I =>
      Option.map₂ (· * ·) (elementAt g I) (elementAt x (restrict S G I))) =
      some ((range G.prod).map fun l => f l * v (sourceIndex S G l)) := by
    rw [indices_eq, mapM_map]
    refine Traversal.mapM_eq_map ?_
    intro l hl
    have hl := mem_range.1 hl
    have hI : InBounds G (coordsOf G l) := inBounds_coordsOf (not_mem_of_lt_prod hl)
    rw [Function.comp_apply, elementAt_coordsOf hg hl, elementAt_holds hx (inBounds_restrict h hI)]
    rfl
  rw [broadcastInner, hg.shape, hx.shape, hloop]
  rfl

/-- `unbroadcast_to` is the adjoint of broadcasting exactly if the gradient has elements and either
has the target's shape, or the target's rank and an arm of `sum_dim`, or more axes, element type
`F32`, and an axis to reduce or no storage offset. -/
theorem unbroadcast_adjoint_iff :
    Reachable x → Reachable g → 0 ∉ x.shape → broadcastWith x.shape g.shape = .ok g.shape →
      g.layout.isContiguous = true → (UnbroadcastsTo g x ↔ UnbroadcastsRight g x.shape) := by
  intro hx hg h0 hbroadcast hflag
  have h := (broadcastWith_stretches hbroadcast).1
  let _ : Inhabited R := ⟨0⟩
  obtain ⟨v, hv⟩ := reachable_holds hx
  obtain ⟨f, hf⟩ := reachable_holds hg
  rw [unbroadcastsRight_iff hflag]
  constructor
  · rintro ⟨out, _, hout, _⟩
    exact unbroadcastable_of_ok hf h h0 (prod_lt_of_bytes hv.bytes) hout
  · rintro ⟨hG, hright⟩
    obtain ⟨out, U, hout, hholds⟩ := unbroadcastTo_right hf h hG hright
    refine ⟨out, _, hout, hholds.shape, broadcastInner_holds hf hv h, ?_⟩
    rw [innerProduct_holds hholds hv]
    refine congrArg some ?_
    refine Update.sum_addressed f v ?_
    intro l hl
    exact linearOf_lt (inBounds_restrict h (inBounds_coordsOf (not_mem_of_lt_prod hl)))

end Adjoint

/-! ## A bias -/

/-- One value per column. -/
def bias (T : Dtype) : Tensor Int where
  storage := [5, 6]
  layout := Layout.contiguous [2] T

theorem bias_reachable : Reachable (bias .f32) :=
  @Reachable.fromVecTyped Int .f32 [2] [5, 6] (bias .f32) (by decide) (by decide) rfl

theorem unbroadcast_adjoint_bias :
    UnbroadcastsTo (twoRows .f32) (bias .f32) ↔
      UnbroadcastsRight (twoRows .f32) (bias .f32).shape :=
  unbroadcast_adjoint_iff bias_reachable twoRows_reachable (by decide) rfl rfl

/-- The gradient of an `F64` bias is summed and then refused by the reshape. -/
theorem unbroadcast_f64_fails : ¬ UnbroadcastsTo (twoRows .f64) (bias .f64) := by
  rintro ⟨out, _, hout, _⟩
  have herr : unbroadcastTo (twoRows .f64) (bias .f64).shape =
      .err (.numericalError "reshape: expected contiguous F32 source") := rfl
  rw [herr] at hout
  cases hout

end Cpu
end Rustorch
