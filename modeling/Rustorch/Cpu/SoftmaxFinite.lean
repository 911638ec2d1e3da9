import Rustorch.Cpu.Softmax

/-!
# Softmax of finite values

Where no entry is masked, both paths give the exponentials against an entry of the line over their
sum, in any ring of scalars with an exponential: which entry it is does not matter.
-/

namespace Rustorch
namespace Cpu

open Rustorch.Core List Extended

section Finite

variable {D : Type} [CommRing D] [Div D] [LT D] [DecidableLT D] [DecidableEq D]

/-- Scalars with an exponential whose sums are positive. -/
structure ExpScalars (exp : D → D) : Prop where
  add : ∀ x y, exp (x + y) = exp x * exp y
  zero : exp 0 = 1
  mul_one_div : ∀ a b : D, a * (1 / b) = a / b
  sum_pos : ∀ (n : Nat) (a : Nat → D), 0 < n → 0 < ∑ k ∈ Finset.range n, exp (a k)
  ne_zero : ∀ x : D, 0 < x → x ≠ 0

/-- The output for a value, against `m`. -/
def againstValue (exp ln : D → D) (logForm : Bool) (a : Nat → D) (n : Nat) (m v : D) : D :=
  if logForm then
    v - m - ln (∑ k ∈ Finset.range n, exp (a k - m))
  else
    exp (v - m) / ∑ k ∈ Finset.range n, exp (a k - m)

variable {exp ln : D → D} {logForm : Bool} {a : Nat → D} {n : Nat}

theorem output_fin (h : ExpScalars exp) (hn : 0 < n) (m v : D) :
    (if logForm then
        fin v - .fin m - Extended.ln ln (.fin (∑ k ∈ Finset.range n, exp (a k - m)))
      else
        Extended.exp exp (.fin v - .fin m) / .fin (∑ k ∈ Finset.range n, exp (a k - m))) =
      .fin (againstValue exp ln logForm a n m v) := by
  have hpos := h.sum_pos n (fun k => a k - m) hn
  cases logForm with
  | true =>
    rw [Extended.ln, if_pos hpos]
    rfl
  | false => exact fin_div (h.ne_zero _ hpos)

/-! ## The three passes -/

omit [CommRing D] [Div D] [DecidableEq D] in
theorem lineMax_fin (a : Nat → D) (n : Nat) :
    ∃ m, lineMax (fun k => fin (a k)) (n + 1) = .fin m := by
  induction n with
  | zero => exact ⟨a 0, rfl⟩
  | succ n ih =>
    obtain ⟨m, hm⟩ := ih
    rw [lineMax] at hm ⊢
    rw [range_succ, foldl_append, hm, foldl_cons, foldl_nil]
    split
    · exact ⟨_, rfl⟩
    · exact ⟨m, rfl⟩

section

variable (h : ExpScalars exp)

include h

theorem lineValue_fin (hn : 0 < n) :
    ∃ m, ∀ k, lineValue exp ln logForm (fun k => .fin (a k)) n k =
      .fin (againstValue exp ln logForm a n m (a k)) := by
  obtain ⟨p, rfl⟩ := Nat.exists_eq_succ_of_ne_zero hn.ne'
  obtain ⟨m, hm⟩ := lineMax_fin a p
  refine ⟨m, fun k => ?_⟩
  have hsum : lineSum exp (fun k => .fin (a k)) (p + 1) =
      .fin (∑ k ∈ Finset.range (p + 1), exp (a k - m)) := by
    have hfold := foldl_add_fin (x := fun k => Extended.exp exp (.fin (a k) - .fin m))
      (f := fun k => exp (a k - m)) (n := p + 1) 0 fun k _ => rfl
    rwa [zero_add, ← hm] at hfold
  rw [lineValue, hsum, hm]
  exact output_fin h hn m (a k)

/-! ## One pass over a row -/

omit [DecidableEq D] in
/-- The rescaled sum is the sum against the value that was taken last. -/
theorem onlineStep_fin (m : D) (p : Nat) :
    ∃ m', onlineStep exp (.fin m, .fin (∑ k ∈ Finset.range p, exp (a k - m))) (.fin (a p)) =
      (.fin m', .fin (∑ k ∈ Finset.range (p + 1), exp (a k - m'))) := by
  rw [onlineStep]
  by_cases hlt : lt (.fin m) (.fin (a p)) = true
  · refine ⟨a p, ?_⟩
    have hshift : ∀ k, exp (a k - m) * exp (m - a p) = exp (a k - a p) := by
      intro k
      rw [← h.add, sub_add_sub_cancel]
    simp only [hlt, if_true, fin_sub, exp_fin, fin_mul,
      fin_add, Finset.sum_mul, hshift, Finset.sum_range_succ]
  · refine ⟨m, ?_⟩
    simp only [hlt, Bool.false_eq_true, if_false, fin_sub, exp_fin, fin_add, Finset.sum_range_succ]

omit [DecidableEq D] in
theorem foldl_onlineStep_fin (a : Nat → D) (p : Nat) :
    ∃ m, ((List.range (p + 1)).map fun k => fin (a k)).foldl (onlineStep exp)
      (.negInf, .fin 0) = (.fin m, .fin (∑ k ∈ Finset.range (p + 1), exp (a k - m))) := by
  induction p with
  | zero =>
    refine ⟨a 0, ?_⟩
    have hlt : lt .negInf (.fin (a 0)) = true := rfl
    simp [onlineStep, hlt]
  | succ p ih =>
    obtain ⟨m, hm⟩ := ih
    rw [range_succ, map_append, foldl_append, hm]
    exact onlineStep_fin h m (p + 1)

theorem softmaxRowOnlineF32_fin (hn : 0 < n) :
    ∃ m, softmaxRowOnlineF32 exp ln ((List.range n).map fun k => .fin (a k)) logForm =
      (List.range n).map fun k => .fin (againstValue exp ln logForm a n m (a k)) := by
  obtain ⟨p, rfl⟩ := Nat.exists_eq_succ_of_ne_zero hn.ne'
  obtain ⟨m, hm⟩ := foldl_onlineStep_fin h a p
  refine ⟨m, ?_⟩
  have hpos := h.sum_pos (p + 1) (fun k => a k - m) hn
  have hinv : fin (1 : D) / .fin (∑ k ∈ Finset.range (p + 1), exp (a k - m)) =
      .fin (1 / ∑ k ∈ Finset.range (p + 1), exp (a k - m)) :=
    fin_div (h.ne_zero _ hpos)
  rw [softmaxRowOnlineF32, hm, hinv, map_map, map_map]
  cases logForm with
  | true => exact map_congr_left fun k _ => @output_fin D _ _ _ _ _ exp ln true a _ h hn m (a k)
  | false =>
    refine map_congr_left fun k _ => ?_
    rw [Function.comp_apply, fin_sub, exp_fin, fin_mul, h.mul_one_div]
    rfl

/-! ## Tensors -/

end

variable {S : Shape} {d : Nat} {T : Dtype} {src : Tensor (Extended D)} {x : Nat → D}

/-- Every cell is taken against some value of its line. -/
def IsAgainst (exp ln : D → D) (logForm : Bool) (S : Shape) (d : Nat) (x o : Nat → D) : Prop :=
  ∀ l < S.prod, ∃ m,
    o l = againstValue exp ln logForm (alongLine S d x l) (S.getD d 0) m (x l)

section

variable (h : ExpScalars exp)

include h

theorem softmaxStrided_fin (h0 : 0 ∉ S) (hd : d < S.length)
    (hsrc : Holds src T S fun l => .fin (x l)) :
    ∃ out o, softmaxStrided exp ln T src d logForm = .ok out ∧
      Fresh out T S (fun l => .fin (o l)) ∧ IsAgainst exp ln logForm S d x o := by
  have hpos := axis_size_pos h0 hd
  choose m hm using fun l => @lineValue_fin D _ _ _ _ _ exp ln logForm (alongLine S d x l) _ h hpos
  refine ⟨_, fun l => againstValue exp ln logForm (alongLine S d x l) (S.getD d 0) (m l)
    (alongLine S d x l (placeOf S d l)), softmaxStrided_eq h0 hd hsrc, ?_, ?_⟩
  · have hfresh := (@contiguous_fresh _ T S (softmaxCell exp ln logForm S d fun l => .fin (x l)) 0
      hsrc.bytes).2
    exact ⟨hfresh.toDense.of_eq fun l _ => hm l (placeOf S d l), hfresh.offset⟩
  · intro l hl
    refine ⟨m l, ?_⟩
    have hself : alongLine S d x l (placeOf S d l) = x l := by
      rw [alongLine, cellOn_lineOf h0 hd hl]
    simp only [hself]

theorem softmaxF32_fin (h0 : 0 ∉ S) (hd : d < S.length)
    (hsrc : Dense src .f32 S fun l => .fin (x l)) :
    ∃ out o, softmaxF32 exp ln src d logForm = .ok out ∧
      Fresh out .f32 S (fun l => .fin (o l)) ∧ IsAgainst exp ln logForm S d x o := by
  by_cases hhot : d + 1 = src.shape.length ∧ src.layout.isContiguous = true ∧
      src.layout.storageOffset = 0
  · have hlast : d + 1 = S.length := by rw [← hsrc.shape]; exact hhot.1
    have hpos := axis_size_pos h0 hd
    choose m hm using fun r => @softmaxRowOnlineF32_fin D _ _ _ _ _ exp ln logForm
      (fun k => x (r * S.getD d 0 + k)) _ h hpos
    have hdata : ((range (S.set d 1).prod).flatMap fun r => softmaxRowOnlineF32 exp ln
        ((range (S.getD d 0)).map fun k => .fin (x (r * S.getD d 0 + k))) logForm) =
        (range S.prod).map fun l => .fin (againstValue exp ln logForm
          (fun k => x (l / S.getD d 0 * S.getD d 0 + k)) (S.getD d 0) (m (l / S.getD d 0))
          (x (l / S.getD d 0 * S.getD d 0 + l % S.getD d 0))) := by
      rw [flatMap_congr fun r _ => hm r, flatMap_def, Accumulate.flatten_rows
        (fun r k => fin (againstValue exp ln logForm (fun k => x (r * S.getD d 0 + k))
          (S.getD d 0) (m r) (x (r * S.getD d 0 + k)))), prod_set_mul h0 hd]
    refine ⟨_, fun l => againstValue exp ln logForm
      (fun k => x (l / S.getD d 0 * S.getD d 0 + k)) (S.getD d 0) (m (l / S.getD d 0))
      (x (l / S.getD d 0 * S.getD d 0 + l % S.getD d 0)), ?_,
      (@contiguous_fresh _ .f32 S _ 0 hsrc.bytes).2, ?_⟩
    · rw [softmaxF32_rows h0 hlast ⟨hsrc, hhot.2.2⟩, hdata]
      exact (contiguous_fresh hsrc.bytes).1
    · intro l hl
      refine ⟨m (l / S.getD d 0), ?_⟩
      have hcell := cellOn_lineOf h0 hd hl
      rw [cellOn_last hlast (lineOf_lt h0 l) h0] at hcell
      have hplace := placeOf_lt h0 hd l
      have hdiv : l / S.getD d 0 = lineOf S d l := by
        calc l / S.getD d 0 = (S.getD d 0 * lineOf S d l + placeOf S d l) / S.getD d 0 := by
              rw [Nat.mul_comm, hcell]
          _ = lineOf S d l := by
              rw [Nat.mul_add_div hpos, Nat.div_eq_of_lt hplace, Nat.add_zero]
      have hline : alongLine S d x l = fun k => x (l / S.getD d 0 * S.getD d 0 + k) := by
        funext k
        rw [alongLine, cellOn_last hlast (lineOf_lt h0 l) h0, hdiv]
      simp only [hline, Nat.div_add_mod']
  · rw [softmaxF32_strided hhot]
    exact softmaxStrided_fin h h0 hd hsrc.holds

/-- Both operations on a contiguous floating-point tensor of finite values. -/
theorem softmaxDispatch_fin {op : String} (h0 : 0 ∉ S) (hd : d < S.length)
    (hT : T = .f32 ∨ T = .f64) (hsrc : Dense src T S fun l => .fin (x l)) :
    ∃ out o, softmaxDispatch exp ln op logForm src d = .ok out ∧
      Fresh out T S (fun l => .fin (o l)) ∧ IsAgainst exp ln logForm S d x o := by
  have hvalid : validateDim src d op = .ok () := by
    rw [validateDim, hsrc.shape, if_neg (by omega)]
  rw [softmaxDispatch, hvalid, Outcome.ok_bind, hsrc.dtype]
  rcases hT with rfl | rfl
  · exact softmaxF32_fin h h0 hd hsrc
  · exact softmaxStrided_fin h h0 hd hsrc.holds

/-- A tensor that is not flagged contiguous takes the strided path. -/
theorem softmaxDispatch_holds {op : String} (h0 : 0 ∉ S) (hd : d < S.length)
    (hT : T = .f32 ∨ T = .f64) (hsrc : Holds src T S fun l => .fin (x l)) :
    ∃ out o, softmaxDispatch exp ln op logForm src d = .ok out ∧
      Fresh out T S (fun l => .fin (o l)) ∧ IsAgainst exp ln logForm S d x o := by
  by_cases hflag : src.layout.isContiguous = true
  · exact softmaxDispatch_fin h h0 hd hT (hsrc.dense hflag)
  · have hvalid : validateDim src d op = .ok () := by
      rw [validateDim, hsrc.shape, if_neg (by omega)]
    rw [softmaxDispatch, hvalid, Outcome.ok_bind, hsrc.dtype]
    rcases hT with rfl | rfl
    · rw [softmaxF32_strided fun hhot => hflag hhot.2.1]
      exact softmaxStrided_fin h h0 hd hsrc
    · exact softmaxStrided_fin h h0 hd hsrc

end

/-- Every line along the axis is a distribution. -/
def Distributed {F : Type} [Field F] [LT F] (S : Shape) (d : Nat) (o : Nat → F) : Prop :=
  ∀ m < (S.set d 1).prod, (∀ k < S.getD d 0, 0 < o (cellOn S d m k)) ∧
    ∑ k ∈ Finset.range (S.getD d 0), o (cellOn S d m k) = 1

theorem softmax_distributed {F : Type} [Field F] [LinearOrder F] [IsStrictOrderedRing F]
    {exp ln : F → F} {src : Tensor (Extended F)} {x : Nat → F} (h : ExpScalars exp) (h0 : 0 ∉ S)
    (hd : d < S.length) (hT : T = .f32 ∨ T = .f64) (hsrc : Holds src T S fun l => .fin (x l)) :
    ∃ out o, softmax exp ln src d = .ok out ∧ Fresh out T S (fun l => .fin (o l)) ∧
      Distributed S d o := by
  obtain ⟨out, o, hout, hfresh, hag⟩ := softmaxDispatch_holds h h0 hd hT hsrc
  refine ⟨out, o, hout, hfresh, fun m hm => ?_⟩
  have hexp : ∀ v, 0 < exp v := fun v => by simpa using h.sum_pos 1 (fun _ => v) one_pos
  have hpos := h.sum_pos _ (fun k => x (cellOn S d m k)) (axis_size_pos h0 hd)
  have hshare : ∀ k < S.getD d 0, o (cellOn S d m k) = exp (x (cellOn S d m k)) /
      ∑ k ∈ Finset.range (S.getD d 0), exp (x (cellOn S d m k)) := by
    intro k hk
    obtain ⟨v, hv⟩ := hag _ (cellOn_lt h0 hk)
    -- the value that is subtracted cancels
    simp only [againstValue, alongLine, sub_eq_add_neg, h.add, ← Finset.sum_mul] at hv
    rw [hv, if_neg Bool.false_ne_true, lineOf_cellOn h0 hd hm hk,
      mul_div_mul_right _ _ (hexp _).ne']
  constructor
  · intro k hk
    rw [hshare k hk]
    exact div_pos (hexp _) hpos
  · rw [Finset.sum_congr rfl fun k hk => hshare k (Finset.mem_range.1 hk), ← Finset.sum_div,
      div_self hpos.ne']

/-- The natural exponential, over two lines of three values that rise and fall. -/
theorem softmax_distributed_rows : ∃ out, ∃ o : Nat → ℝ, softmax Real.exp Real.log
    (tabulated [2, 3] .f32 fun l => .fin ((l : ℝ) * (4 - l))) 1 = .ok out ∧
      Fresh out .f32 [2, 3] (fun l => .fin (o l)) ∧ Distributed [2, 3] 1 o := by
  have hexp : ExpScalars Real.exp :=
    ⟨Real.exp_add, Real.exp_zero, fun a b => mul_one_div a b,
      fun n a hn => Finset.sum_pos (fun k _ => Real.exp_pos (a k)) ⟨0, by simpa using hn⟩,
      fun _ => ne_of_gt⟩
  exact softmax_distributed hexp (by decide) (by decide) (.inl rfl)
    (fresh_contiguous (by decide)).holds

end Finite

end Cpu
end Rustorch
