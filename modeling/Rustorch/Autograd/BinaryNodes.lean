import Rustorch.Autograd.Backward
import Rustorch.Core.Join
import Rustorch.Cpu.Arithmetic

/-!
# Backward of the arithmetic operations

`AddBackward`, `SubBackward` and `MulBackward` un-broadcast the gradients of both operands.  The
gradients are the vector-Jacobian product of the broadcast forward operation exactly where the
un-broadcasting and the kernels under it take the operands (`binary_vjp_iff`).
-/

namespace Rustorch
namespace Autograd

open Rustorch.Core Cpu Finset Outcome Layout
open LoopNest (indices)

/-! ## The nodes -/

section Model

variable {F : Type}

structure AddBackward where
  lhsShape : Shape
  rhsShape : Shape

structure SubBackward where
  lhsShape : Shape
  rhsShape : Shape

structure MulBackward (F : Type) where
  lhsSaved : Tensor F
  rhsSaved : Tensor F

/-- `unbroadcast_to` of the autograd crate: an error of the backend is a panic. -/
def unbroadcastTo [AddCommMonoid F] (grad : Tensor F) (targetShape : Shape) :
    Outcome BackwardError (Tensor F) :=
  unwrap (Cpu.unbroadcastTo grad targetShape)

def AddBackward.apply [AddCommMonoid F] (node : AddBackward) (grad : Tensor F) :
    Outcome BackwardError (List (Option (Tensor F))) := do
  let gLhs ← unbroadcastTo grad node.lhsShape
  let gRhs ← unbroadcastTo grad node.rhsShape
  pure [some gLhs, some gRhs]

def SubBackward.apply [AddCommGroup F] (node : SubBackward) (grad : Tensor F) :
    Outcome BackwardError (List (Option (Tensor F))) := do
  let negGrad ← unwrap (Cpu.neg grad)
  let gLhs ← unbroadcastTo grad node.lhsShape
  let gRhs ← unbroadcastTo negGrad node.rhsShape
  pure [some gLhs, some gRhs]

def MulBackward.apply [AddCommMonoid F] [Mul F] (node : MulBackward F) (grad : Tensor F) :
    Outcome BackwardError (List (Option (Tensor F))) := do
  let gLhsRaw ← unwrap (dispatchBinaryTyped "mul" (· * ·) grad node.rhsSaved)
  let gRhsRaw ← unwrap (dispatchBinaryTyped "mul" (· * ·) grad node.lhsSaved)
  let gLhs ← unbroadcastTo gLhsRaw node.lhsSaved.shape
  let gRhs ← unbroadcastTo gRhsRaw node.rhsSaved.shape
  pure [some gLhs, some gRhs]

inductive BinaryOp
  | add
  | sub
  | mul
  deriving DecidableEq, Repr

/-- The node that the forward operation records, applied to a gradient. -/
def BinaryOp.backward [CommRing F] (op : BinaryOp) (lhs rhs grad : Tensor F) :
    Outcome BackwardError (List (Option (Tensor F))) :=
  match op with
  | .add => AddBackward.apply { lhsShape := lhs.shape, rhsShape := rhs.shape } grad
  | .sub => SubBackward.apply { lhsShape := lhs.shape, rhsShape := rhs.shape } grad
  | .mul => MulBackward.apply { lhsSaved := lhs, rhsSaved := rhs } grad

end Model

open BinaryOp

/-! ## What they should be -/

section Spec

variable {R : Type} [CommRing R]

/-- The exact differential at `(x, y)` in the direction `(dx, dy)`. -/
def BinaryOp.differential (op : BinaryOp) (x y dx dy : R) : R :=
  match op with
  | .add => dx + dy
  | .sub => dx - dy
  | .mul => x * dy + y * dx

/-- `Σ g * d forward(a, b; da, db)` over the shape of `g`. -/
def differentialInner (op : BinaryOp) (a b g da db : Tensor R) : Option R := do
  let vs ← (indices g.shape).mapM fun I => do
    let gi ← elementAt g I
    let x ← elementAt a (restrict a.shape g.shape I)
    let y ← elementAt b (restrict b.shape g.shape I)
    let dx ← elementAt da (restrict a.shape g.shape I)
    let dy ← elementAt db (restrict b.shape g.shape I)
    some (gi * op.differential x y dx dy)
  some vs.sum

/-- The gradients have the shapes of the operands and pair with every tangent as the upstream
gradient does with the differential. -/
def IsVjp (op : BinaryOp) (a b g : Tensor R) : Prop :=
  ∃ ga gb, op.backward a b g = .ok [some ga, some gb] ∧ ga.shape = a.shape ∧ gb.shape = b.shape ∧
    ∀ da db : Tensor R, Reachable da → Reachable db → da.shape = a.shape → db.shape = b.shape →
      ∃ s t, innerProduct ga da = some s ∧ innerProduct gb db = some t ∧
        differentialInner op a b g da db = some (s + t)

/-- What `unbroadcast_to` takes of a tensor made by a kernel. -/
def Reducible (T : Dtype) (S target : Shape) : Prop :=
  S = target ∨ (S.length = target.length ∧ summable T = true) ∨
    (target.length < S.length ∧ T = .f32)

/-- The condition on the layouts of the operands and of the upstream gradient. -/
def BinaryOp.Takes (op : BinaryOp) (a b g : Tensor R) : Prop :=
  match op with
  | .add => Unbroadcastable g a.shape ∧ Unbroadcastable g b.shape
  | .sub =>
    negatable g.layout.dtype = true ∧ Unbroadcastable g a.shape ∧
      Reducible g.layout.dtype g.shape b.shape
  | .mul =>
    (a.layout.dtype = g.layout.dtype ∧ b.layout.dtype = g.layout.dtype ∧
      arithmetic g.layout.dtype = true ∧ g.layout.isContiguous = true) ∧
      Reducible g.layout.dtype g.shape a.shape ∧ Reducible g.layout.dtype g.shape b.shape

end Spec

/-! ## The two sums -/

theorem sourceIndex_inj {A B S : Shape} {l l' : Nat} (hS : broadcastWith A B = .ok S)
    (hl : l < S.prod) (hl' : l' < S.prod) :
    sourceIndex A S l = sourceIndex A S l' → sourceIndex B S l = sourceIndex B S l' → l = l' := by
  intro hA hB
  obtain ⟨hsa, hsb⟩ := broadcastWith_stretches hS
  have hI : InBounds S (coordsOf S l) := inBounds_coordsOf (not_mem_of_lt_prod hl)
  have hI' : InBounds S (coordsOf S l') := inBounds_coordsOf (not_mem_of_lt_prod hl')
  have hread : ∀ {C : Shape}, Stretches C S → sourceIndex C S l = sourceIndex C S l' →
      restrict C S (coordsOf S l) = restrict C S (coordsOf S l') := by
    intro C hC h
    rw [← coordsOf_linearOf (inBounds_restrict hC hI), ← coordsOf_linearOf (inBounds_restrict hC hI')]
    exact congrArg (coordsOf C) h
  have hcoords := restrict_inj hS hI hI' (hread hsa hA) (hread hsb hB)
  rw [← linearOf_coordsOf hl, ← linearOf_coordsOf hl', hcoords]

section Sums

variable {R : Type} [CommRing R] {a b g da db : Tensor R} {T Ta Tb Tp Tq : Dtype} {A B S : Shape}
  {f u v p q : Nat → R}

theorem differentialInner_holds (op : BinaryOp) (hg : Holds g T S f) (ha : Holds a Ta A u)
    (hb : Holds b Tb B v) (hp : Holds da Tp A p) (hq : Holds db Tq B q) (hA : Stretches A S)
    (hB : Stretches B S) :
    differentialInner op a b g da db = some (∑ l ∈ Finset.range S.prod, f l *
      op.differential (u (sourceIndex A S l)) (v (sourceIndex B S l)) (p (sourceIndex A S l))
        (q (sourceIndex B S l))) := by
  have hloop : (indices S).mapM (fun I => do
      let gi ← elementAt g I
      let x ← elementAt a (restrict A S I)
      let y ← elementAt b (restrict B S I)
      let dx ← elementAt da (restrict A S I)
      let dy ← elementAt db (restrict B S I)
      some (gi * op.differential x y dx dy)) =
      some ((List.range S.prod).map fun l => f l * op.differential (u (sourceIndex A S l))
        (v (sourceIndex B S l)) (p (sourceIndex A S l)) (q (sourceIndex B S l))) := by
    rw [indices_eq, List.mapM_map]
    refine Traversal.mapM_eq_map ?_
    intro l hl
    have hl := List.mem_range.1 hl
    have hI : InBounds S (coordsOf S l) := inBounds_coordsOf (not_mem_of_lt_prod hl)
    rw [Function.comp_apply, elementAt_coordsOf hg hl, elementAt_holds ha (inBounds_restrict hA hI),
      elementAt_holds hb (inBounds_restrict hB hI), elementAt_holds hp (inBounds_restrict hA hI),
      elementAt_holds hq (inBounds_restrict hB hI)]
    rfl
  rw [differentialInner, hg.shape, ha.shape, hb.shape, hloop]
  rfl

/-- A sum over the indices that an operand is read at, paired with a tangent. -/
theorem innerProduct_sourceSum {ga : Tensor R} {c : Nat → R} (hga : Holds ga T A (sourceSum A S c))
    (hp : Holds da Tp A p) (hA : Stretches A S) :
    innerProduct ga da = some (∑ l ∈ Finset.range S.prod, c l * p (sourceIndex A S l)) := by
  rw [innerProduct_holds hga hp]
  refine congrArg some (Update.sum_addressed c p ?_)
  intro l hl
  exact linearOf_lt (inBounds_restrict hA (inBounds_coordsOf (not_mem_of_lt_prod hl)))

/-- The coefficients of the two gradients before they are summed. -/
def BinaryOp.coefficients (op : BinaryOp) (f x y : Nat → R) : (Nat → R) × (Nat → R) :=
  match op with
  | .add => (f, f)
  | .sub => (f, fun l => -f l)
  | .mul => (fun l => f l * y l, fun l => f l * x l)

theorem differential_eq (op : BinaryOp) (f x y dx dy : Nat → R) (l : Nat) :
    f l * op.differential (x l) (y l) (dx l) (dy l) =
      (op.coefficients f x y).1 l * dx l + (op.coefficients f x y).2 l * dy l := by
  cases op with
  | add => exact mul_add _ _ _
  | sub =>
    simp only [differential, coefficients]
    ring
  | mul =>
    simp only [differential, coefficients]
    ring

end Sums

/-! ## Results -/

section Results

variable {R : Type} [CommRing R] {a b g : Tensor R} {T : Dtype} {A B S : Shape} {f u v : Nat → R}

omit [CommRing R] in
/-- A tensor from offset 0 is un-broadcast by its type and shape alone. -/
theorem unbroadcastable_fresh (hg : Fresh g T S f) {target : Shape} :
    Unbroadcastable g target ↔ Reducible T S target := by
  rw [Unbroadcastable, Reducible, hg.shape, hg.dtype]
  simp only [hg.flag, hg.offset, or_true, and_true]

section

variable (hg : Holds g T S f)

include hg

theorem unbroadcastTo_holds (hA : Stretches A S) (h0 : 0 ∉ S) :
    Unbroadcastable g A →
      ∃ out U, unbroadcastTo g A = .ok out ∧ Holds out U A (sourceSum A S f) := by
  intro h
  obtain ⟨out, U, hout, hholds⟩ := unbroadcastTo_right hg hA h0 h
  refine ⟨out, U, ?_, hholds⟩
  rw [unbroadcastTo, hout, unwrap_ok]

theorem unbroadcastable_of_unwrap {out : Tensor R} (hA : Stretches A S) (h0 : 0 ∉ A)
    (hfits : A.prod < u64Size) :
    unbroadcastTo g A = .ok out → Unbroadcastable g A := by
  intro h
  rw [unbroadcastTo] at h
  cases hcall : Cpu.unbroadcastTo g A with
  | ok red => exact (unbroadcastable_of_ok hg hA h0 hfits hcall).2
  | err e =>
    rw [hcall] at h
    cases h
  | panic =>
    rw [hcall] at h
    cases h

omit hg in
theorem backward_holds (op : BinaryOp) (hg : Holds g T S f) (ha : Dense a a.layout.dtype A u)
    (hb : Dense b b.layout.dtype B v) (hA : Stretches A S) (hB : Stretches B S) (h0 : 0 ∉ S) :
    op.Takes a b g → ∃ ga gb U U', op.backward a b g = .ok [some ga, some gb] ∧
      Holds ga U A (sourceSum A S (op.coefficients f (fun l => u (sourceIndex A S l))
        (fun l => v (sourceIndex B S l))).1) ∧
      Holds gb U' B (sourceSum B S (op.coefficients f (fun l => u (sourceIndex A S l))
        (fun l => v (sourceIndex B S l))).2) := by
  intro htakes
  cases op with
  | add =>
    rw [BinaryOp.Takes, ha.shape, hb.shape] at htakes
    obtain ⟨ga, U, hga, hgaholds⟩ := unbroadcastTo_holds hg hA h0 htakes.1
    obtain ⟨gb, U', hgb, hgbholds⟩ := unbroadcastTo_holds hg hB h0 htakes.2
    refine ⟨ga, gb, U, U', ?_, hgaholds, hgbholds⟩
    simp only [BinaryOp.backward, AddBackward.apply, ha.shape, hb.shape, hga, hgb, ok_bind, pure_eq]
  | sub =>
    rw [BinaryOp.Takes, ha.shape, hb.shape, hg.shape, hg.dtype] at htakes
    obtain ⟨harm, hta, htb⟩ := htakes
    obtain ⟨ng, hng, hngfresh⟩ := neg_holds hg harm
    obtain ⟨ga, U, hga, hgaholds⟩ := unbroadcastTo_holds hg hA h0 hta
    obtain ⟨gb, U', hgb, hgbholds⟩ := unbroadcastTo_holds hngfresh.holds hB h0
      ((unbroadcastable_fresh hngfresh).2 htb)
    refine ⟨ga, gb, U, U', ?_, hgaholds, hgbholds⟩
    simp only [BinaryOp.backward, SubBackward.apply, ha.shape, hb.shape, hng, hga, hgb,
      unwrap_ok, ok_bind, pure_eq]
  | mul =>
    rw [BinaryOp.Takes, ha.shape, hb.shape, hg.shape, hg.dtype] at htakes
    obtain ⟨⟨hda, hdb, harm, hflag⟩, hta, htb⟩ := htakes
    rw [hda] at ha
    rw [hdb] at hb
    obtain ⟨ra, hra, hrafresh⟩ := @dispatchBinaryTyped_dense R "mul" (· * ·) g b T B S f v
      (hg.dense hflag) hb harm hB
    obtain ⟨rb, hrb, hrbfresh⟩ := @dispatchBinaryTyped_dense R "mul" (· * ·) g a T A S f u
      (hg.dense hflag) ha harm hA
    obtain ⟨ga, U, hga, hgaholds⟩ := unbroadcastTo_holds hrafresh.holds hA h0
      ((unbroadcastable_fresh hrafresh).2 hta)
    obtain ⟨gb, U', hgb, hgbholds⟩ := unbroadcastTo_holds hrbfresh.holds hB h0
      ((unbroadcastable_fresh hrbfresh).2 htb)
    refine ⟨ga, gb, U, U', ?_, hgaholds, hgbholds⟩
    simp only [BinaryOp.backward, MulBackward.apply, ha.shape, hb.shape, hra, hrb, hga, hgb,
      unwrap_ok, ok_bind, pure_eq]

omit hg in
/-- Such gradients are the vector-Jacobian product. -/
theorem isVjp_of_takes (op : BinaryOp) (hg : Holds g T S f) (ha : Dense a a.layout.dtype A u)
    (hb : Dense b b.layout.dtype B v) (hA : Stretches A S) (hB : Stretches B S) (h0 : 0 ∉ S) :
    op.Takes a b g → IsVjp op a b g := by
  intro htakes
  obtain ⟨ga, gb, U, U', hback, hga, hgb⟩ := backward_holds op hg ha hb hA hB h0 htakes
  refine ⟨ga, gb, hback, hga.shape.trans ha.shape.symm, hgb.shape.trans hb.shape.symm, ?_⟩
  intro da db hda hdb hsa hsb
  let _ : Inhabited R := ⟨0⟩
  obtain ⟨p, hp⟩ := reachable_holds hda
  obtain ⟨q, hq⟩ := reachable_holds hdb
  rw [hsa, ha.shape] at hp
  rw [hsb, hb.shape] at hq
  refine ⟨_, _, innerProduct_sourceSum hga hp hA, innerProduct_sourceSum hgb hq hB, ?_⟩
  rw [differentialInner_holds op hg ha.holds hb.holds hp hq hA hB, ← sum_add_distrib]
  refine congrArg some (sum_congr rfl fun l _ => ?_)
  exact differential_eq op f (fun l => u (sourceIndex A S l)) (fun l => v (sourceIndex B S l))
    (fun l => p (sourceIndex A S l)) (fun l => q (sourceIndex B S l)) l

/-! ### The condition is needed -/

variable {grads : List (Option (Tensor R))}

variable (ha : Dense a a.layout.dtype A u)

include ha

/-- What `AddBackward` and `SubBackward` have passed if they return. -/
theorem takes_of_addBackward (hb : Dense b b.layout.dtype B v) (hA : Stretches A S)
    (hB : Stretches B S) (h0A : 0 ∉ A) (h0B : 0 ∉ B) :
    add.backward a b g = .ok grads → add.Takes a b g := by
  intro h
  rw [BinaryOp.backward, AddBackward.apply, ha.shape, hb.shape] at h
  obtain ⟨ga, hga, h⟩ := bind_eq_ok.1 h
  obtain ⟨gb, hgb, _⟩ := bind_eq_ok.1 h
  rw [BinaryOp.Takes, ha.shape, hb.shape]
  exact ⟨unbroadcastable_of_unwrap hg hA h0A (prod_lt_of_bytes ha.bytes) hga,
    unbroadcastable_of_unwrap hg hB h0B (prod_lt_of_bytes hb.bytes) hgb⟩

theorem takes_of_subBackward (hb : Dense b b.layout.dtype B v) (hA : Stretches A S)
    (hB : Stretches B S) (h0A : 0 ∉ A) (h0B : 0 ∉ B) :
    sub.backward a b g = .ok grads → sub.Takes a b g := by
  intro h
  rw [BinaryOp.backward, SubBackward.apply, ha.shape, hb.shape] at h
  obtain ⟨ng, hng, h⟩ := bind_eq_ok.1 h
  obtain ⟨ga, hga, h⟩ := bind_eq_ok.1 h
  obtain ⟨gb, hgb, _⟩ := bind_eq_ok.1 h
  have harm := negatable_of_ok (unwrap_eq_ok.1 hng)
  obtain ⟨ng', hng', hfresh⟩ := neg_holds hg (hg.dtype ▸ harm)
  cases hng'.symm.trans (unwrap_eq_ok.1 hng)
  rw [BinaryOp.Takes, ha.shape, hb.shape, hg.shape, hg.dtype]
  exact ⟨hg.dtype ▸ harm, unbroadcastable_of_unwrap hg hA h0A (prod_lt_of_bytes ha.bytes) hga,
    (unbroadcastable_fresh hfresh).1
      (unbroadcastable_of_unwrap hfresh.holds hB h0B (prod_lt_of_bytes hb.bytes) hgb)⟩

theorem mulBackward_of_ok {ga gb : Tensor R} (hb : Dense b b.layout.dtype B v) (hA : Stretches A S)
    (hB : Stretches B S) (h0A : 0 ∉ A) (h0B : 0 ∉ B) (h0 : 0 ∉ S) :
    mul.backward a b g = .ok [some ga, some gb] →
      (a.layout.dtype = T ∧ b.layout.dtype = T ∧ arithmetic T = true) ∧
        (Reducible T S A ∧ Reducible T S B) ∧
        (∀ l < S.prod, rowMajorAt g (coordsOf S l) = some (rowMajorValue g S 0 l)) ∧
        (∃ U, Holds ga U A (sourceSum A S fun l => rowMajorValue g S 0 l * v (sourceIndex B S l))) ∧
        ∃ U, Holds gb U B
          (sourceSum B S fun l => rowMajorValue g S 0 l * u (sourceIndex A S l)) := by
  intro h
  rw [BinaryOp.backward, MulBackward.apply, ha.shape, hb.shape] at h
  obtain ⟨ra, hra, h⟩ := bind_eq_ok.1 h
  obtain ⟨rb, hrb, h⟩ := bind_eq_ok.1 h
  obtain ⟨ga', hga, h⟩ := bind_eq_ok.1 h
  obtain ⟨gb', hgb, h⟩ := bind_eq_ok.1 h
  cases h
  rw [unwrap_eq_ok] at hra hrb
  obtain ⟨hdb, harm, _⟩ := dispatchBinaryTyped_eq_ok hra
  obtain ⟨hda, _, _⟩ := dispatchBinaryTyped_eq_ok hrb
  have hbytes : S.prod * g.layout.dtype.byteSize < 2 ^ 63 := hg.dtype.symm ▸ hg.bytes
  rw [← hdb] at hb
  rw [← hda] at ha
  obtain ⟨hread, hrafresh⟩ := dispatchBinaryTyped_rowMajor 0 hg.shape hbytes hb hB hra
  obtain ⟨_, hrbfresh⟩ := dispatchBinaryTyped_rowMajor 0 hg.shape hbytes ha hA hrb
  rw [hg.dtype] at hda hdb harm hrafresh hrbfresh
  have hta := unbroadcastable_of_unwrap hrafresh.holds hA h0A (prod_lt_of_bytes ha.bytes) hga
  have htb := unbroadcastable_of_unwrap hrbfresh.holds hB h0B (prod_lt_of_bytes hb.bytes) hgb
  obtain ⟨ga', U, hga', hgaholds⟩ := unbroadcastTo_holds hrafresh.holds hA h0 hta
  obtain ⟨gb', U', hgb', hgbholds⟩ := unbroadcastTo_holds hrbfresh.holds hB h0 htb
  cases hga'.symm.trans hga
  cases hgb'.symm.trans hgb
  exact ⟨⟨hda.symm, hdb.symm, harm⟩,
    ⟨(unbroadcastable_fresh hrafresh).1 hta, (unbroadcastable_fresh hrbfresh).1 htb⟩,
    hread, ⟨U, hgaholds⟩, ⟨U', hgbholds⟩⟩

omit ha hg [CommRing R] in
theorem exists_misread [Inhabited R] [Nontrivial R] (hg : Reachable g) :
    g.layout.isContiguous ≠ true → ∃ data : List R, data.length = g.storage.length ∧
      ∃ f, Holds (Tensor.mk data g.layout) g.layout.dtype g.shape f ∧
        ∃ l < g.shape.prod,
          rowMajorAt (Tensor.mk data g.layout) (coordsOf g.shape l) ≠ some (f l) := by
  intro hflag
  obtain ⟨hlen, hin⟩ := reachable_inside hg
  obtain ⟨data, hdata, hrow⟩ : ∃ data : List R, data.length = g.storage.length ∧
      ¬ RowMajor (Tensor.mk data g.layout) := by
    by_contra hnone
    refine hflag ((@rowMajor_iff R _ _ _ hlen hin).1 ?_)
    intro data hdata
    by_contra hrow
    exact hnone ⟨data, hdata, hrow⟩
  obtain ⟨f, hf⟩ := reachable_holds (reachable_refill hg data hdata)
  refine ⟨data, hdata, f, hf, ?_⟩
  by_contra hall
  refine hrow ?_
  intro J hJ
  have hJ : InBounds g.shape J := hJ
  rw [elementAt_holds hf hJ]
  by_contra hne
  refine hall ⟨linearOf g.shape J, linearOf_lt hJ, ?_⟩
  rwa [coordsOf_linearOf hJ]

/-- The value at one place, as a function. -/
def unit (k : Nat) (i : Nat) : R :=
  if i = k then 1 else 0

omit ha hg in
theorem sum_units (hS : broadcastWith A B = .ok S) (c : Nat → R) {l : Nat} (hl : l < S.prod) :
    ∑ i ∈ Finset.range S.prod, c i * unit (sourceIndex B S l) (sourceIndex B S i) *
      unit (sourceIndex A S l) (sourceIndex A S i) = c l := by
  rw [sum_eq_single l]
  · simp [unit]
  · intro i hi hne
    by_cases hB : sourceIndex B S i = sourceIndex B S l
    · have hA : sourceIndex A S i ≠ sourceIndex A S l :=
        fun hA => hne (sourceIndex_inj hS (mem_range.1 hi) hl hA hB)
      simp [unit, hA]
    · simp [unit, hB]
  · intro hnot
    exact absurd (mem_range.2 hl) hnot

theorem mulVjp_reads {l : Nat} (hb : Dense b b.layout.dtype B (unit (sourceIndex B S l)))
    (hS : broadcastWith A B = .ok S) (h0A : 0 ∉ A) (h0B : 0 ∉ B) (hl : l < S.prod) :
    IsVjp .mul a b g → rowMajorAt g (coordsOf S l) = some (f l) := by
  rintro ⟨ga, gb, hback, _, _, hpair⟩
  obtain ⟨hA, hB⟩ := broadcastWith_stretches hS
  obtain ⟨_, _, hread, ⟨U, hga⟩, U', hgb⟩ := mulBackward_of_ok hg ha hb hA hB h0A h0B
    (broadcastWith_pos hS h0A h0B) hback
  have hp := @fresh_contiguous R a.layout.dtype A (unit (sourceIndex A S l)) ha.bytes
  have hq := @fresh_contiguous R b.layout.dtype B (fun _ => 0) hb.bytes
  obtain ⟨s, t, hs, ht, hsum⟩ := hpair _ _ (reachable_tabulated ha.bytes)
    (reachable_tabulated hb.bytes) (hp.shape.trans ha.shape.symm) (hq.shape.trans hb.shape.symm)
  rw [innerProduct_sourceSum hga hp.holds hA, Option.some_inj] at hs
  rw [innerProduct_sourceSum hgb hq.holds hB, Option.some_inj] at ht
  rw [differentialInner_holds .mul hg ha.holds hb.holds hp.holds hq.holds hA hB, Option.some_inj,
    ← hs, ← ht, sum_units hS _ hl] at hsum
  have htrue : ∀ i ∈ range S.prod, f i * mul.differential (u (sourceIndex A S i))
      (unit (sourceIndex B S l) (sourceIndex B S i)) (unit (sourceIndex A S l) (sourceIndex A S i))
        0 = f i * unit (sourceIndex B S l) (sourceIndex B S i) *
          unit (sourceIndex A S l) (sourceIndex A S i) := by
    intro i _
    rw [differential]
    ring
  rw [sum_congr rfl htrue, sum_units hS _ hl] at hsum
  rw [hread l hl, hsum]
  simp

end

theorem contiguous_of_mulVjp [Nontrivial R] (hg : Reachable g) (ha : Reachable a) (hb : Reachable b)
    (h0A : 0 ∉ a.shape) (h0B : 0 ∉ b.shape) (hS : broadcastWith a.shape b.shape = .ok g.shape)
    (hca : a.layout.isContiguous = true) (hcb : b.layout.isContiguous = true) :
    (∀ b' g' : Tensor R, Reachable b' → Reachable g' → b'.layout = b.layout →
      g'.layout = g.layout → IsVjp .mul a b' g') → g.layout.isContiguous = true := by
  intro hall
  by_contra hflag
  let _ : Inhabited R := ⟨0⟩
  obtain ⟨data, hdata, f, hf, l, hl, hne⟩ := exists_misread hg hflag
  obtain ⟨u, hu⟩ := reachable_holds ha
  obtain ⟨v, hv⟩ := reachable_holds hb
  -- The other operand singles out the index that is misread.
  have hunit := (hv.dense hcb).refill (unit (sourceIndex b.shape g.shape l))
  refine hne (mulVjp_reads hf (hu.dense hca) hunit hS h0A h0B hl ?_)
  exact hall _ _ (reachable_refill hb _ (by simp)) (reachable_refill hg data hdata) rfl rfl

end Results

/-! ## The vector-Jacobian product -/

section Vjp

variable {R : Type} [CommRing R] [Nontrivial R] {a b g : Tensor R}

/-- On contiguous operands of nonempty broadcastable shapes, with whatever contents, the gradients
of `add`, `sub` and `mul` are the vector-Jacobian product of the forward operation exactly if the
un-broadcasting takes the upstream gradient (for `sub` its negation, for `mul` the products), the
kernels have arms for its element type, and, for `mul`, it is contiguous. -/
theorem binary_vjp_iff (op : BinaryOp) : Reachable a → Reachable b → Reachable g → 0 ∉ a.shape →
    0 ∉ b.shape → broadcastWith a.shape b.shape = .ok g.shape → a.layout.isContiguous = true →
      b.layout.isContiguous = true →
        ((∀ a' b' g' : Tensor R, Reachable a' → Reachable b' → Reachable g' →
            a'.layout = a.layout → b'.layout = b.layout → g'.layout = g.layout →
              IsVjp op a' b' g') ↔ op.Takes a b g) := by
  intro ha hb hg h0A h0B hS hca hcb
  let _ : Inhabited R := ⟨0⟩
  obtain ⟨hA, hB⟩ := broadcastWith_stretches hS
  constructor
  · intro hall
    obtain ⟨f, hf⟩ := reachable_holds hg
    obtain ⟨u, hu⟩ := reachable_holds ha
    obtain ⟨v, hv⟩ := reachable_holds hb
    obtain ⟨ga, gb, hback, _⟩ := hall a b g ha hb hg rfl rfl rfl
    cases op with
    | add => exact takes_of_addBackward hf (hu.dense hca) (hv.dense hcb) hA hB h0A h0B hback
    | sub => exact takes_of_subBackward hf (hu.dense hca) (hv.dense hcb) hA hB h0A h0B hback
    | mul =>
      obtain ⟨⟨hda, hdb, harm⟩, ⟨hta, htb⟩, _⟩ := mulBackward_of_ok hf (hu.dense hca)
        (hv.dense hcb) hA hB h0A h0B (broadcastWith_pos hS h0A h0B) hback
      refine ⟨⟨hda, hdb, harm, ?_⟩, hta, htb⟩
      refine contiguous_of_mulVjp hg ha hb h0A h0B hS hca hcb ?_
      intro b' g' hb' hg' hlb hlg
      exact hall a b' g' ha hb' hg' rfl hlb hlg
  · intro htakes a' b' g' ha' hb' hg' hla hlb hlg
    obtain ⟨f, hf⟩ := reachable_holds hg'
    obtain ⟨u, hu⟩ := reachable_holds ha'
    obtain ⟨v, hv⟩ := reachable_holds hb'
    have hsa : a'.shape = a.shape := congrArg shape hla
    have hsb : b'.shape = b.shape := congrArg shape hlb
    have hsg : g'.shape = g.shape := congrArg shape hlg
    have htakes' : op.Takes a' b' g' := by
      cases op with
      | add => simpa only [BinaryOp.Takes, Unbroadcastable, hsa, hsb, hsg, hlg] using htakes
      | sub => simpa only [BinaryOp.Takes, Unbroadcastable, hsa, hsb, hsg, hlg] using htakes
      | mul => simpa only [BinaryOp.Takes, hsa, hsb, hsg, hla, hlb, hlg] using htakes
    refine isVjp_of_takes op hf (hu.dense (hla ▸ hca)) (hv.dense (hlb ▸ hcb)) ?_ ?_ ?_ htakes'
    · rwa [hsa, hsg]
    · rwa [hsb, hsg]
    · rw [hsg]
      exact broadcastWith_pos hS h0A h0B

end Vjp

theorem binary_vjp_bias :
    (∀ a' b' g' : Tensor Int, Reachable a' → Reachable b' → Reachable g' →
      a'.layout = (twoRows .f32).layout → b'.layout = (bias .f32).layout →
        g'.layout = (twoRows .f32).layout → IsVjp .mul a' b' g') ↔
      mul.Takes (twoRows .f32) (bias .f32) (twoRows .f32) :=
  binary_vjp_iff .mul twoRows_reachable bias_reachable twoRows_reachable (by decide) (by decide) rfl
    rfl rfl

/-- The gradient of an `F64` bias that was added to two rows. -/
theorem add_f64_bias_fails : ¬ IsVjp .add (twoRows .f64) (bias .f64) (twoRows .f64) := by
  rintro ⟨ga, gb, hback, _⟩
  have hpanic : add.backward (twoRows .f64) (bias .f64) (twoRows .f64) = .panic := rfl
  rw [hpanic] at hback
  cases hback

end Autograd
end Rustorch
