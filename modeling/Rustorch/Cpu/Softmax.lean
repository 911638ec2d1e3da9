import Mathlib.Analysis.SpecialFunctions.Log.Basic
import Rustorch.Cpu.Lines
import Rustorch.Lib.OnlineSoftmax
import Rustorch.Lib.Extended

/-!
# Softmax

`softmax` and `log_softmax` take three passes over every line along the axis: its maximum, the sum
of the exponentials against it, and the output.  Along the last axis of a contiguous `F32` tensor a
kernel for rows finds the maximum and the sum in one pass, rescaling the sum where the maximum
grows.  A row that begins with `-∞` has no maximum to rescale from, and its sum becomes NaN.
-/

namespace Rustorch
namespace Cpu

open Rustorch.Core List Outcome LoopNest Rows Layout

section Model

variable {D : Type} [CommRing D] [Div D] [LT D] [DecidableLT D] [DecidableEq D]

/-! ## The three passes -/

/-- The maximum, the sum of the exponentials and the output of one line. -/
def softmaxLine (exp ln : D → D) (logForm : Bool) (buf : List (Extended D)) (dimSize : Nat)
    (line : Nat × Nat) (out : List (Extended D)) : Option (List (Extended D)) := do
  let mx ← (range dimSize).foldlM (fun mx k => do
    let v ← buf[lineCell line k]?
    some (if Extended.lt mx v then v else mx)) .negInf
  let sumexp ← (range dimSize).foldlM (fun s k => do
    let v ← buf[lineCell line k]?
    some (s + Extended.exp exp (v - mx))) (.fin 0)
  let logSumexp := Extended.ln ln sumexp
  (range dimSize).foldlM (fun out k => do
    let v ← buf[lineCell line k]?
    let shifted := v - mx
    put out (lineCell line k)
      (if logForm then shifted - logSumexp else Extended.exp exp shifted / sumexp)) out

/-- The loop over the lines. -/
def softmaxLines (exp ln : D → D) (T : Dtype) (src : Tensor (Extended D)) (dim dimSize : Nat)
    (logForm : Bool) (out : List (Extended D)) : Outcome BackendError (Tensor (Extended D)) := do
  let buf ← collect T src
  let nOther := src.numel / max dimSize 1
  let otherShape := src.shape.set dim 1
  let out ← Outcome.expect ((range nOther).foldlM (fun out linear => do
    let line ← lineStart src.shape otherShape dim linear
    softmaxLine exp ln logForm buf dimSize line out) out)
  fromVecOrOom T src.shape out 0

/-- The strided path alone, which is `softmax_f64`. -/
def softmaxStrided (exp ln : D → D) (T : Dtype) (src : Tensor (Extended D)) (dim : Nat)
    (logForm : Bool) : Outcome BackendError (Tensor (Extended D)) := do
  let dimSize ← axisSize src.shape dim
  let out ← filled T (.fin 0 : Extended D) src.numel
  softmaxLines exp ln T src dim dimSize logForm out

/-! ## The rows of a contiguous tensor -/

/-- One entry of the row: the running maximum and the running sum. -/
def onlineStep (exp : D → D) (st : Extended D × Extended D) (x : Extended D) :
    Extended D × Extended D :=
  let st := if Extended.lt st.1 x then (x, st.2 * Extended.exp exp (st.1 - x)) else st
  (st.1, st.2 + Extended.exp exp (x - st.1))

def softmaxRowOnlineF32 (exp ln : D → D) (rowIn : List (Extended D)) (logForm : Bool) :
    List (Extended D) :=
  let st := rowIn.foldl (onlineStep exp) (.negInf, .fin 0)
  if logForm then
    let logSum := Extended.ln ln st.2
    rowIn.map fun x => x - st.1 - logSum
  else
    let invSum := .fin 1 / st.2
    rowIn.map fun x => Extended.exp exp (x - st.1) * invSum

/-- The rows are written independently of each other. -/
def softmaxRows (exp ln : D → D) (rowLen : Nat) (logForm : Bool) (input out : List (Extended D)) :
    List (Extended D) :=
  (range (input.length / rowLen)).foldl (fun out r =>
    writeAt (r * rowLen) (softmaxRowOnlineF32 exp ln (row rowLen r input) logForm) out) out

def softmaxF32 (exp ln : D → D) (src : Tensor (Extended D)) (dim : Nat) (logForm : Bool) :
    Outcome BackendError (Tensor (Extended D)) := do
  let dimSize ← axisSize src.shape dim
  let out ← filled .f32 (.fin 0 : Extended D) src.numel
  if dim + 1 = src.shape.length ∧ src.layout.isContiguous = true ∧ src.layout.storageOffset = 0 then
    match src.asSlice .f32 with
    | .ok input =>
      fromVecOrOom .f32 src.shape (softmaxRows exp ln (max dimSize 1) logForm input out) 0
    | .err _ => softmaxLines exp ln .f32 src dim dimSize logForm out
    | .panic => .panic
  else
    softmaxLines exp ln .f32 src dim dimSize logForm out

/-- `softmax` and `log_softmax`, which differ in their name and their last pass. -/
def softmaxDispatch (exp ln : D → D) (op : String) (logForm : Bool) (src : Tensor (Extended D))
    (dim : Nat) : Outcome BackendError (Tensor (Extended D)) := do
  validateDim src dim op
  match src.layout.dtype with
  | .f32 => softmaxF32 exp ln src dim logForm
  | .f64 => softmaxStrided exp ln .f64 src dim logForm
  | d => .err (.dtypeMismatch op d d)

def softmax (exp ln : D → D) (src : Tensor (Extended D)) (dim : Nat) :
    Outcome BackendError (Tensor (Extended D)) :=
  softmaxDispatch exp ln "softmax" false src dim

def logSoftmax (exp ln : D → D) (src : Tensor (Extended D)) (dim : Nat) :
    Outcome BackendError (Tensor (Extended D)) :=
  softmaxDispatch exp ln "log_softmax" true src dim

end Model

section Lines

variable {D : Type} [CommRing D] [Div D] [LT D] [DecidableLT D] [DecidableEq D] {exp ln : D → D}
  {logForm : Bool}

/-! ## The value of a line -/

def lineMax (x : Nat → Extended D) (n : Nat) : Extended D :=
  (range n).foldl (fun mx k => if Extended.lt mx (x k) then x k else mx) .negInf

def lineSum (exp : D → D) (x : Nat → Extended D) (n : Nat) : Extended D :=
  (range n).foldl (fun s k => s + Extended.exp exp (x k - lineMax x n)) (.fin 0)

/-- The output of the three passes at one place of a line. -/
def lineValue (exp ln : D → D) (logForm : Bool) (x : Nat → Extended D) (n k : Nat) : Extended D :=
  if logForm then
    x k - lineMax x n - Extended.ln ln (lineSum exp x n)
  else
    Extended.exp exp (x k - lineMax x n) / lineSum exp x n

/-- The elements of the line that a cell lies on. -/
def alongLine {α : Type} (S : Shape) (d : Nat) (f : Nat → α) (l k : Nat) : α :=
  f (cellOn S d (lineOf S d l) k)

/-- The softmax of a tensor, cell by cell. -/
def softmaxCell (exp ln : D → D) (logForm : Bool) (S : Shape) (d : Nat) (f : Nat → Extended D)
    (l : Nat) : Extended D :=
  lineValue exp ln logForm (alongLine S d f l) (S.getD d 0) (placeOf S d l)

theorem foldlM_some {α σ : Type} {body : σ → α → Option σ} {step : σ → α → σ} (xs : List α) :
    ∀ s : σ, (∀ x ∈ xs, ∀ s, body s x = some (step s x)) →
      xs.foldlM body s = some (xs.foldl step s) := by
  intro s h
  rw [foldlM_congr s h]
  exact foldlM_pure

theorem softmaxLine_read {buf out : List (Extended D)} {n : Nat} {line : Nat × Nat}
    {x : Nat → Extended D} (hread : ∀ k < n, buf[lineCell line k]? = some (x k)) :
    softmaxLine exp ln logForm buf n line out =
      (range n).foldlM
        (fun out k => put out (lineCell line k) (lineValue exp ln logForm x n k)) out := by
  have hmax : (range n).foldlM (fun mx k => do
      let v ← buf[lineCell line k]?
      some (if Extended.lt mx v then v else mx)) .negInf = some (lineMax x n) := by
    refine foldlM_some _ _ ?_
    intro k hk mx
    rw [hread k (mem_range.1 hk)]
    rfl
  have hsum : (range n).foldlM (fun s k => do
      let v ← buf[lineCell line k]?
      some (s + Extended.exp exp (v - lineMax x n))) (.fin 0) = some (lineSum exp x n) := by
    refine foldlM_some _ _ ?_
    intro k hk s
    rw [hread k (mem_range.1 hk)]
    rfl
  rw [softmaxLine, hmax, Option.bind_eq_bind, Option.bind_some, hsum, Option.bind_some]
  refine foldlM_congr out ?_
  intro k hk out
  rw [hread k (mem_range.1 hk)]
  rfl

variable {T : Dtype} {S : Shape} {d : Nat} {f : Nat → Extended D} {src : Tensor (Extended D)}

/-- Without an axis of size 0, the loop over the lines writes the value of every cell. -/
theorem softmaxLines_eq (h0 : 0 ∉ S) (hd : d < S.length) (h : Holds src T S f) :
    softmaxLines exp ln T src d (S.getD d 0) logForm (replicate S.prod (.fin 0)) =
      .ok { storage := (range S.prod).map (softmaxCell exp ln logForm S d f)
            layout := contiguous S T } := by
  have hfit := prod_lt_of_bytes h.bytes
  have hpos := axis_size_pos h0 hd
  have hlines : S.prod / max (S.getD d 0) 1 = (S.set d 1).prod := by
    rw [Nat.max_eq_left hpos, ← prod_set_mul h0 hd, Nat.mul_div_cancel _ hpos]
  have hloop := @fill_lines S d _ (softmaxCell exp ln logForm S d f) (replicate S.prod (.fin 0))
    (fun out linear => do
      let line ← lineStart S (S.set d 1) d linear
      softmaxLine exp ln logForm ((range S.prod).map f) (S.getD d 0) line out)
    h0 length_replicate (by
      intro m hm out hout
      rw [lineStart_eq h0 hd, Option.bind_eq_bind, Option.bind_some,
        @softmaxLine_read _ _ _ _ _ _ exp ln logForm _ out _ _ (fun k => f (cellOn S d m k))]
      · refine fill_line h0 hd hout ?_
        intro k hk out
        have hline : alongLine S d f (cellOn S d m k) = fun j => f (cellOn S d m j) := by
          funext j
          rw [alongLine, lineOf_cellOn h0 hd hm hk]
        rw [lineCell_eq h0 hd hfit hk, softmaxCell, placeOf_cellOn h0 hd hk, hline]
      · intro k hk
        rw [lineCell_eq h0 hd hfit hk, getElem?_map, getElem?_range (cellOn_lt h0 hk)]
        rfl)
  simp only [softmaxLines, collect_holds h, ok_bind, h.shape, h.numel, hlines, hloop, expect_some]
  exact (contiguous_fresh h.bytes).1

theorem softmaxStrided_eq (h0 : 0 ∉ S) (hd : d < S.length) (h : Holds src T S f) :
    softmaxStrided exp ln T src d logForm =
      .ok { storage := (range S.prod).map (softmaxCell exp ln logForm S d f)
            layout := contiguous S T } := by
  have haxis : axisSize S d = .ok (S.getD d 0) := by
    rw [axisSize, getElem?_eq_getElem hd, getD_eq_getElem _ _ hd]
    rfl
  rw [softmaxStrided, h.shape, haxis, ok_bind, h.numel, filled_ok h.bytes, ok_bind,
    softmaxLines_eq h0 hd h]

/-! ## The rows -/

theorem length_softmaxRowOnlineF32 (row : List (Extended D)) :
    (softmaxRowOnlineF32 exp ln row logForm).length = row.length := by
  cases logForm <;> simp [softmaxRowOnlineF32]

theorem softmaxRows_eq {R n : Nat} (hn : 0 < n) (f : Nat → Extended D) :
    softmaxRows exp ln n logForm ((range (R * n)).map f) (replicate (R * n) (.fin 0)) =
      (range R).flatMap fun r =>
        softmaxRowOnlineF32 exp ln ((range n).map fun k => f (r * n + k)) logForm := by
  have hrow : ∀ r < R, row n r ((range (R * n)).map f) =
      (range n).map fun k => f (r * n + k) := fun r hr => row_map_range f hr
  have hlen : ∀ r < R, (softmaxRowOnlineF32 exp ln
      (row n r ((range (R * n)).map f)) logForm).length = n := by
    intro r hr
    rw [length_softmaxRowOnlineF32, hrow r hr, length_map, length_range]
  have hrows : ((range (R * n)).map f).length / n = R := by
    rw [length_map, length_range, Nat.mul_div_cancel _ hn]
  rw [softmaxRows, hrows, @foldl_eq_writeAt _ n R (fun r => softmaxRowOnlineF32 exp ln
    (row n r ((range (R * n)).map f)) logForm) 0 _ hlen _ (by simp)
    (fun r _ buf _ => by rw [Nat.zero_add])]
  rw [writeAt_zero (by rw [length_flatMap_range hlen, length_replicate])]
  refine flatMap_congr fun r hr => ?_
  rw [hrow r (mem_range.1 hr)]

/-- On a tensor in front of its buffer the last axis goes row by row. -/
theorem softmaxF32_rows (h0 : 0 ∉ S) (hd : d + 1 = S.length) (h : Fresh src .f32 S f) :
    softmaxF32 exp ln src d logForm =
      fromVecOrOom .f32 S ((range (S.set d 1).prod).flatMap fun r =>
        softmaxRowOnlineF32 exp ln
          ((range (S.getD d 0)).map fun k => f (r * S.getD d 0 + k)) logForm) 0 := by
  have hdlt : d < S.length := by omega
  have hpos := axis_size_pos h0 hdlt
  have haxis : axisSize S d = .ok (S.getD d 0) := by
    rw [axisSize, getElem?_eq_getElem hdlt, getD_eq_getElem _ _ hdlt]
    rfl
  rw [softmaxF32, h.shape, haxis, ok_bind, h.toDense.numel, filled_ok h.bytes,
    ok_bind, if_pos ⟨hd, h.flag, h.offset⟩, h.asSlice, Nat.max_eq_left hpos,
    ← prod_set_mul h0 hdlt]
  exact congrArg (fun data => fromVecOrOom .f32 S data 0) (softmaxRows_eq hpos f)

theorem softmaxF32_strided (h : ¬ (d + 1 = src.shape.length ∧ src.layout.isContiguous = true ∧
    src.layout.storageOffset = 0)) :
    softmaxF32 exp ln src d logForm = softmaxStrided exp ln .f32 src d logForm := by
  rw [softmaxF32, softmaxStrided]
  simp only [if_neg h]

theorem cellOn_last {m k : Nat} (hd : d + 1 = S.length) (hm : m < (S.set d 1).prod)
    (h0 : 0 ∉ S) : cellOn S d m k = m * S.getD d 0 + k := by
  obtain ⟨L, n, rfl⟩ : ∃ L n, S = L ++ [n] :=
    ⟨S.dropLast, S.getLast (by rintro rfl; cases hd), (dropLast_append_getLast _).symm⟩
  have hdL : d = L.length := by simpa using hd
  subst hdL
  have hset : (L ++ [n]).set L.length 1 = L ++ [1] := by simp
  have hlen : (coordsOf L m).length = L.length :=
    (inBounds_coordsOf fun h => h0 (mem_append_left _ h)).length_eq.symm
  rw [hset, prod_concat, Nat.mul_one] at hm
  rw [cellOn, hset, coordsOf_concat, Nat.div_one, ← hlen, set_append_right _ _ le_rfl,
    Nat.sub_self, set_cons_zero, linearOf_concat, linearOf_coordsOf hm]
  simp [hlen, Nat.mul_comm, Nat.add_comm]

end Lines

section Scores

open Extended OnlineSoftmax

variable {F : Type} [Field F] [LinearOrder F] [IsStrictOrderedRing F] {exp ln : F → F}
  {logForm : Bool}

/-! ## Masked scores -/

theorem expLaws_of_inverse (hadd : ∀ x y, exp (x + y) = exp x * exp y)
    (hln : ∀ x, ln (exp x) = x) : ExpLaws exp := by
  refine expLaws_of_pos hadd fun x => ?_
  have hne : exp (x / 2) ≠ 0 := by
    intro hzero
    have hall : ∀ y, exp y = 0 := by
      intro y
      have hsplit := hadd (x / 2) (y - x / 2)
      rwa [add_sub_cancel, hzero, zero_mul] at hsplit
    exact zero_ne_one ((hln 0).symm.trans ((congrArg ln ((hall 0).trans (hall 1).symm)).trans (hln 1)))
  have hsquare := hadd (x / 2) (x / 2)
  rw [add_halves] at hsquare
  rw [hsquare]
  exact mul_self_pos.2 hne

/-- The output for a score, against the maximum `m` and the sum `z`. -/
def scoreValue (exp ln : F → F) (logForm : Bool) (m z : F) : WithBot F → Extended F
  | ⊥ => if logForm then .negInf else .fin 0
  | (x : F) => if logForm then .fin (x - m - ln z) else .fin (exp (x - m) / z)

omit [LinearOrder F] [IsStrictOrderedRing F] in
theorem exp_ofScore_sub (m : F) (x : WithBot F) :
    Extended.exp exp (ofScore x - .fin m) = .fin (weight exp m x) := by
  cases x using WithBot.recBotCoe with
  | bot => rfl
  | coe x => rfl

omit [IsStrictOrderedRing F] in
/-- The two forms of the output, from a finite maximum and a positive sum. -/
theorem output_ofScore {m z : F} (hz : 0 < z) (x : WithBot F) :
    (if logForm then ofScore x - .fin m - Extended.ln ln (.fin z)
      else Extended.exp exp (ofScore x - .fin m) / .fin z) = scoreValue exp ln logForm m z x := by
  cases x using WithBot.recBotCoe with
  | bot =>
    cases logForm with
    | true => rw [Extended.ln, if_pos hz]; rfl
    | false =>
      have hzero : fin (0 : F) / .fin z = .fin 0 := by
        rw [fin_div hz.ne', zero_div]
      exact hzero
  | coe x =>
    cases logForm with
    | true => rw [Extended.ln, if_pos hz]; rfl
    | false => exact fin_div hz.ne'

omit [Field F] [IsStrictOrderedRing F] in
theorem lineMax_ofScore (s : Nat → WithBot F) (n : Nat) :
    lineMax (fun k => ofScore (s k)) n = ofScore ((Finset.range n).sup s) := by
  have hloop := foldl_ite_ofScore s n ⊥
  rwa [bot_sup_eq] at hloop

omit [IsStrictOrderedRing F] in
theorem lineSum_ofScore {s : Nat → WithBot F} {n : Nat} {m : F}
    (hm : (Finset.range n).sup s = (m : WithBot F)) :
    lineSum exp (fun k => ofScore (s k)) n = .fin (denominator exp s (Finset.range n)) := by
  rw [lineSum, lineMax_ofScore, hm, ofScore_coe,
    foldl_add_fin 0 (f := fun k => weight exp m (s k)) (fun k _ => exp_ofScore_sub m (s k)), zero_add,
    denominator, hm]

theorem lineValue_ofScore (hexp : ExpLaws exp) {s : Nat → WithBot F} {n : Nat} {m : F}
    (hm : (Finset.range n).sup s = (m : WithBot F)) (k : Nat) :
    lineValue exp ln logForm (fun k => ofScore (s k)) n k =
      scoreValue exp ln logForm m (denominator exp s (Finset.range n)) (s k) := by
  have hpos : 0 < denominator exp s (Finset.range n) :=
    denominator_pos hexp.pos (by rw [hm]; exact WithBot.coe_ne_bot)
  rw [lineValue, lineSum_ofScore hm, lineMax_ofScore, hm]
  exact output_ofScore hpos (s k)

/-! ## One pass over a row -/

omit [IsStrictOrderedRing F] in
/-- The sum over keys that are numbered. -/
theorem denominator_eq_normalizer (s : Nat → WithBot F) (n : Nat) :
    denominator exp s (Finset.range n) = normalizer exp ((Multiset.range n).map s) := by
  rw [denominator, normalizer, Multiset.map_map, Finset.sup_def]
  rfl

omit [IsStrictOrderedRing F] in
/-- One entry, after an entry that is not masked. -/
theorem onlineStep_ofScore (hexp : ExpLaws exp) {s : Multiset (WithBot F)} (hs : s.sup ≠ ⊥)
    (x : WithBot F) :
    onlineStep exp (ofScore s.sup, .fin (normalizer exp s)) (ofScore x) =
      (ofScore (x ::ₘ s).sup, .fin (normalizer exp (x ::ₘ s))) := by
  obtain ⟨m, hm⟩ := WithBot.ne_bot_iff_exists.1 hs
  rw [normalizer_cons hexp.add, Multiset.sup_cons, sup_comm x, onlineStep, lt_ofScore, ← hm]
  by_cases hlt : (m : WithBot F) < x
  · obtain ⟨y, rfl⟩ := WithBot.ne_bot_iff_exists.1 (bot_le.trans_lt hlt).ne'
    rw [if_pos (decide_eq_true hlt), sup_eq_right.2 hlt.le]
    rfl
  · have hself : weight exp (m : WithBot F) m = 1 := by
      rw [weight_coe, sub_self, hexp.zero]
    rw [if_neg (by simpa using hlt), sup_eq_left.2 (not_lt.1 hlt), hself, mul_one]
    simp only [ofScore_coe, exp_ofScore_sub, fin_add]

omit [IsStrictOrderedRing F] in
theorem onlineStep_first (y : F) : onlineStep exp (.negInf, .fin 0) (.fin y) =
    (ofScore ({(y : WithBot F)} : Multiset (WithBot F)).sup,
      .fin (normalizer exp {(y : WithBot F)})) := by
  have hlt : lt .negInf (.fin y) = true := rfl
  rw [onlineStep, hlt, if_pos rfl]
  simp [normalizer]

omit [IsStrictOrderedRing F] in
theorem foldl_onlineStep (hexp : ExpLaws exp) (xs : List (WithBot F)) :
    ∀ s : Multiset (WithBot F), s.sup ≠ ⊥ →
      (xs.map ofScore).foldl (onlineStep exp) (ofScore s.sup, .fin (normalizer exp s)) =
        (ofScore (s + xs).sup, .fin (normalizer exp (s + xs))) := by
  induction xs with
  | nil =>
    intro s _
    simp
  | cons x xs ih =>
    intro s hs
    have hne : (x ::ₘ s).sup ≠ ⊥ := by
      rw [Multiset.sup_cons]
      exact fun hbot => hs (sup_eq_bot_iff.1 hbot).2
    have hsum : s + ((x :: xs : List (WithBot F)) : Multiset (WithBot F)) = x ::ₘ s + xs := by
      rw [← Multiset.cons_coe, Multiset.add_cons, Multiset.cons_add]
    rw [map_cons, foldl_cons, onlineStep_ofScore hexp hs, ih _ hne, hsum]

omit [IsStrictOrderedRing F] in
theorem foldl_onlineStep_nan (xs : List (Extended F)) : ∀ mx : Extended F,
    (xs.foldl (onlineStep exp) (mx, .nan)).2 = .nan := by
  induction xs with
  | nil =>
    intro mx
    rfl
  | cons x xs ih =>
    intro mx
    have hstep : ∃ mx', onlineStep exp (mx, .nan) x = (mx', .nan) := by
      rw [onlineStep]
      split <;> simp
    obtain ⟨mx', hmx⟩ := hstep
    rw [foldl_cons, hmx, ih]

theorem softmaxRowOnlineF32_eq (hexp : ExpLaws exp) {s : Nat → WithBot F} {n : Nat} {m : F}
    (hhead : s 0 ≠ ⊥) (hn : 0 < n) (hm : (Finset.range n).sup s = (m : WithBot F)) :
    softmaxRowOnlineF32 exp ln ((range n).map fun k => ofScore (s k)) logForm =
      (range n).map fun k =>
        scoreValue exp ln logForm m (denominator exp s (Finset.range n)) (s k) := by
  obtain ⟨n, rfl⟩ := Nat.exists_eq_succ_of_ne_zero hn.ne'
  obtain ⟨y, hy⟩ := WithBot.ne_bot_iff_exists.1 hhead
  have hscores : (Multiset.range (n + 1)).map s =
      {(y : WithBot F)} + (((range n).map fun k => s (k + 1) : List (WithBot F)) :
        Multiset (WithBot F)) := by
    rw [← Multiset.coe_range, Multiset.map_coe, range_succ_eq_map, map_cons, ← hy,
      map_map, ← Multiset.cons_coe, Multiset.singleton_add]
    rfl
  have hsup : ((Multiset.range (n + 1)).map s).sup = (m : WithBot F) := by
    rw [← hm, Finset.sup_def]
    rfl
  have hpos : 0 < denominator exp s (Finset.range (n + 1)) :=
    denominator_pos hexp.pos (by rw [hm]; exact WithBot.coe_ne_bot)
  have hfold : ((range (n + 1)).map fun k => ofScore (s k)).foldl (onlineStep exp)
      (.negInf, .fin 0) = (.fin m, .fin (denominator exp s (Finset.range (n + 1)))) := by
    have hrest : ((range n).map fun k => s (k + 1)).map ofScore =
        (range n).map fun k => ofScore (s (k + 1)) := by
      rw [map_map]
      rfl
    have hrun := @foldl_onlineStep F _ _ exp hexp ((range n).map fun k => s (k + 1))
      {(y : WithBot F)} (by simp)
    rw [← hscores, hsup, ← denominator_eq_normalizer, hrest] at hrun
    rw [range_succ_eq_map, map_cons, map_map, foldl_cons, ← hy, ofScore_coe, onlineStep_first]
    exact hrun
  rw [softmaxRowOnlineF32, hfold, map_map]
  have hinv : fin (1 : F) / .fin (denominator exp s (Finset.range (n + 1))) =
      .fin (denominator exp s (Finset.range (n + 1)))⁻¹ := by
    rw [fin_div hpos.ne', one_div]
  rw [hinv, map_map]
  have hcell := fun k => @output_ofScore F _ _ exp ln logForm m _ hpos (s k)
  cases logForm with
  | true => exact map_congr_left fun k _ => hcell k
  | false =>
    refine map_congr_left fun k _ => (Eq.trans ?_ (hcell k))
    simp only [Function.comp_apply, exp_ofScore_sub, Bool.false_eq_true, if_false]
    rw [fin_div hpos.ne', div_eq_mul_inv]
    rfl

omit [IsStrictOrderedRing F] in
theorem softmaxRowOnlineF32_nan {s : Nat → WithBot F} {n : Nat} (hhead : s 0 = ⊥) (hn : 0 < n) :
    softmaxRowOnlineF32 exp ln ((range n).map fun k => ofScore (s k)) logForm =
      (range n).map fun _ => .nan := by
  obtain ⟨n, rfl⟩ := Nat.exists_eq_succ_of_ne_zero hn.ne'
  have hfirst : onlineStep exp (.negInf, .fin 0) (ofScore (s 0)) = (.negInf, .nan) := by
    rw [hhead]
    rfl
  have hnan : (((range (n + 1)).map fun k => ofScore (s k)).foldl (onlineStep exp)
      (.negInf, .fin 0)).2 = .nan := by
    rw [range_succ_eq_map, map_cons, foldl_cons, hfirst, foldl_onlineStep_nan]
  have hsub : ∀ x : Extended F, x - .nan = .nan := by
    intro x
    cases x <;> rfl
  have hmul : ∀ x : Extended F, x * .nan = .nan := by
    intro x
    cases x <;> rfl
  have hdiv : fin (1 : F) / .nan = .nan := rfl
  have hlog : Extended.ln ln .nan = .nan := rfl
  rw [softmaxRowOnlineF32, hnan]
  cases logForm with
  | true =>
    simp only [hlog, hsub, map_map]
    rfl
  | false =>
    simp only [hdiv, hmul, map_map]
    rfl

/-! ## The two paths -/

/-- The softmax of the scores on the line of a cell; NaN stands for a line that is all masked. -/
def maskedCell (exp ln : F → F) (logForm : Bool) (S : Shape) (d : Nat) (s : Nat → WithBot F)
    (l : Nat) : Extended F :=
  match (Finset.range (S.getD d 0)).sup (alongLine S d s l) with
  | ⊥ => .nan
  | (m : F) => scoreValue exp ln logForm m
      (denominator exp (alongLine S d s l) (Finset.range (S.getD d 0))) (s l)

/-- What the row kernel gives. -/
def onlineCell (exp ln : F → F) (logForm : Bool) (S : Shape) (d : Nat) (s : Nat → WithBot F)
    (l : Nat) : Extended F :=
  if alongLine S d s l 0 = ⊥ then .nan else maskedCell exp ln logForm S d s l

/-- Every line has an unmasked score. -/
def SomeUnmasked (S : Shape) (d : Nat) (s : Nat → WithBot F) : Prop :=
  ∀ m < (S.set d 1).prod, ∃ k < S.getD d 0, s (cellOn S d m k) ≠ ⊥

variable {S : Shape} {d : Nat} {s : Nat → WithBot F} {src : Tensor (Extended F)}

omit [Field F] [IsStrictOrderedRing F] in
theorem exists_sup (h0 : 0 ∉ S) (hsome : SomeUnmasked S d s) (l : Nat) :
    ∃ m : F, (Finset.range (S.getD d 0)).sup (alongLine S d s l) = (m : WithBot F) := by
  obtain ⟨k, hk, hne⟩ := hsome (lineOf S d l) (lineOf_lt h0 l)
  have hle : alongLine S d s l k ≤ (Finset.range (S.getD d 0)).sup (alongLine S d s l) :=
    Finset.le_sup (Finset.mem_range.2 hk)
  have hsup : (Finset.range (S.getD d 0)).sup (alongLine S d s l) ≠ ⊥ := by
    intro hbot
    rw [hbot] at hle
    exact hne (le_bot_iff.1 hle)
  obtain ⟨m, hm⟩ := WithBot.ne_bot_iff_exists.1 hsup
  exact ⟨m, hm.symm⟩

omit [IsStrictOrderedRing F] in
theorem maskedCell_eq {l : Nat} {m : F}
    (hm : (Finset.range (S.getD d 0)).sup (alongLine S d s l) = (m : WithBot F)) :
    maskedCell exp ln logForm S d s l = scoreValue exp ln logForm m
      (denominator exp (alongLine S d s l) (Finset.range (S.getD d 0))) (s l) := by
  rw [maskedCell, hm]

omit [IsStrictOrderedRing F] in
theorem maskedCell_ne_nan (h0 : 0 ∉ S) (hsome : SomeUnmasked S d s) (l : Nat) :
    maskedCell exp ln logForm S d s l ≠ .nan := by
  obtain ⟨m, hm⟩ := exists_sup h0 hsome l
  rw [maskedCell_eq hm]
  cases s l using WithBot.recBotCoe with
  | bot => cases logForm <;> simp [scoreValue]
  | coe x => cases logForm <;> simp [scoreValue]

theorem softmaxCell_ofScore (hexp : ExpLaws exp) (h0 : 0 ∉ S) (hd : d < S.length)
    (hsome : SomeUnmasked S d s) {l : Nat} (hl : l < S.prod) :
    softmaxCell exp ln logForm S d (fun l => ofScore (s l)) l =
      maskedCell exp ln logForm S d s l := by
  obtain ⟨m, hm⟩ := exists_sup h0 hsome l
  have hvalue := @lineValue_ofScore F _ _ _ exp ln logForm hexp (alongLine S d s l) _ m hm
    (placeOf S d l)
  have hself : alongLine S d s l (placeOf S d l) = s l := by
    rw [alongLine, cellOn_lineOf h0 hd hl]
  rw [hself] at hvalue
  exact hvalue.trans (maskedCell_eq hm).symm

theorem softmaxF32_ofScore (hexp : ExpLaws exp) (h0 : 0 ∉ S) (hd : d + 1 = S.length)
    (hsome : SomeUnmasked S d s) (h : Fresh src .f32 S fun l => ofScore (s l)) :
    softmaxF32 exp ln src d logForm =
      .ok { storage := (range S.prod).map (onlineCell exp ln logForm S d s)
            layout := contiguous S .f32 } := by
  have hdlt : d < S.length := by omega
  have hpos := axis_size_pos h0 hdlt
  have hrow : ∀ r < (S.set d 1).prod, softmaxRowOnlineF32 exp ln
      ((range (S.getD d 0)).map fun k => ofScore (s (r * S.getD d 0 + k))) logForm =
      (range (S.getD d 0)).map fun k =>
        onlineCell exp ln logForm S d s (r * S.getD d 0 + k) := by
    intro r hr
    have hcell : ∀ k, r * S.getD d 0 + k = cellOn S d r k := fun k => (cellOn_last hd hr h0).symm
    have hline : ∀ k < S.getD d 0,
        alongLine S d s (cellOn S d r k) = fun j => s (cellOn S d r j) := by
      intro k hk
      funext j
      rw [alongLine, lineOf_cellOn h0 hdlt hr hk]
    simp only [hcell]
    by_cases hhead : s (cellOn S d r 0) = ⊥
    · rw [@softmaxRowOnlineF32_nan F _ _ exp ln logForm (fun k => s (cellOn S d r k)) _ hhead hpos]
      refine map_congr_left fun k hk => ?_
      rw [onlineCell, hline k (mem_range.1 hk), if_pos hhead]
    · obtain ⟨m, hm⟩ := @exists_sup F _ S d s h0 hsome (cellOn S d r 0)
      rw [hline 0 hpos] at hm
      rw [softmaxRowOnlineF32_eq hexp hhead hpos hm]
      refine map_congr_left fun k hk => ?_
      have hk := mem_range.1 hk
      rw [onlineCell, hline k hk, if_neg hhead, maskedCell_eq (by rw [hline k hk]; exact hm),
        hline k hk]
  have hdata : ((range (S.set d 1).prod).flatMap fun r => softmaxRowOnlineF32 exp ln
      ((range (S.getD d 0)).map fun k => ofScore (s (r * S.getD d 0 + k))) logForm) =
      (range S.prod).map (onlineCell exp ln logForm S d s) := by
    rw [flatMap_congr fun r hr => hrow r (mem_range.1 hr), flatMap_def,
      Accumulate.flatten_map_range, prod_set_mul h0 hdlt]
  rw [softmaxF32_rows h0 hd h, hdata]
  exact (contiguous_fresh h.bytes).1

/-- Both paths succeed and give the softmax of every line. -/
def PathsAgree (exp ln : F → F) (src : Tensor (Extended F)) (S : Shape) (d : Nat)
    (s : Nat → WithBot F) (logForm : Bool) : Prop :=
  ∃ y z, softmaxF32 exp ln src d logForm = .ok y ∧
    softmaxStrided exp ln .f32 src d logForm = .ok z ∧ y.elements = z.elements ∧
      z.elements = some ((range S.prod).map (maskedCell exp ln logForm S d s))

theorem softmaxStrided_ofScore (hexp : ExpLaws exp) (h0 : 0 ∉ S) (hd : d < S.length)
    (hsome : SomeUnmasked S d s) (h : Holds src .f32 S fun l => ofScore (s l)) :
    softmaxStrided exp ln .f32 src d logForm =
      .ok { storage := (range S.prod).map (maskedCell exp ln logForm S d s)
            layout := contiguous S .f32 } := by
  rw [softmaxStrided_eq h0 hd h]
  congr 2
  exact map_congr_left fun l hl =>
    softmaxCell_ofScore hexp h0 hd hsome (mem_range.1 hl)

theorem elements_contiguous {α : Type} (hbytes : S.prod * Dtype.byteSize .f32 < 2 ^ 63)
    (v : Nat → α) :
    Tensor.elements { storage := (range S.prod).map v, layout := contiguous S .f32 } =
      some ((range S.prod).map v) :=
  (@contiguous_fresh _ .f32 S v 0 hbytes).2.holds.elements

theorem heads_of_pathsAgree (hexp : ExpLaws exp) (h0 : 0 ∉ S) (hd : d + 1 = S.length)
    (hsome : SomeUnmasked S d s) (h : Fresh src .f32 S fun l => ofScore (s l))
    (hagree : PathsAgree exp ln src S d s logForm) :
    ∀ m < (S.set d 1).prod, s (cellOn S d m 0) ≠ ⊥ := by
  have hdlt : d < S.length := by omega
  have hpos := axis_size_pos h0 hdlt
  obtain ⟨y, z, hy, _, hyz, hzv⟩ := hagree
  cases (softmaxF32_ofScore hexp h0 hd hsome h).symm.trans hy
  intro m hm hbot
  rw [elements_contiguous h.bytes, hzv] at hyz
  have hcell := @cellOn_lt S d 0 m h0 hpos
  have hget := congrArg (fun o => (o.getD [])[cellOn S d m 0]?) hyz
  simp only [Option.getD_some, getElem?_map, getElem?_range hcell, Option.map_some,
    Option.some.injEq] at hget
  have hhead : alongLine S d s (cellOn S d m 0) 0 = ⊥ := by
    rw [alongLine, lineOf_cellOn h0 hdlt hm hpos, hbot]
  rw [onlineCell, if_pos hhead] at hget
  exact maskedCell_ne_nan h0 hsome _ hget.symm

/-- The paths agree exactly if the row kernel does not run, or every row begins with an unmasked
score. -/
theorem softmax_paths_agree_iff (hadd : ∀ x y, exp (x + y) = exp x * exp y)
    (hln : ∀ x, ln (exp x) = x) (hsrc : Reachable src) (h0 : 0 ∉ S) (hd : d + 1 = S.length)
    (hsome : SomeUnmasked S d s) (h : Holds src .f32 S fun l => ofScore (s l)) :
    PathsAgree exp ln src S d s logForm ↔
      (src.layout.isContiguous = true → src.layout.storageOffset = 0 →
        ∀ m < (S.set d 1).prod, s (cellOn S d m 0) ≠ ⊥) := by
  have hexp := expLaws_of_inverse hadd hln
  have hdlt : d < S.length := by omega
  have hstrided := @softmaxStrided_ofScore F _ _ _ exp ln logForm S d s src hexp h0 hdlt hsome h
  by_cases hhot : src.layout.isContiguous = true ∧ src.layout.storageOffset = 0
  · let _ : Inhabited (Extended F) := ⟨.nan⟩
    have hfresh : Fresh src .f32 S fun l => ofScore (s l) := by
      obtain ⟨f, hf⟩ := reachable_dense hsrc hhot.1
      rw [h.shape, h.dtype] at hf
      have hsame := hf.elements.symm.trans h.elements
      refine ⟨hf.of_eq ?_, hhot.2⟩
      intro l hl
      have hget := congrArg (fun o => (o.getD [])[l]?) hsame
      simpa [hl] using hget
    have hrows := @softmaxF32_ofScore F _ _ _ exp ln logForm S d s src hexp h0 hd hsome hfresh
    constructor
    · intro hagree _ _
      exact heads_of_pathsAgree hexp h0 hd hsome hfresh hagree
    · intro hheads
      refine ⟨_, _, hrows, hstrided, ?_, elements_contiguous h.bytes _⟩
      rw [elements_contiguous h.bytes, elements_contiguous h.bytes]
      congr 1
      refine map_congr_left fun l hl => ?_
      refine if_neg ?_
      exact hheads hhot.1 hhot.2 _ (lineOf_lt h0 l)
  · have hsame : softmaxF32 exp ln src d logForm = softmaxStrided exp ln .f32 src d logForm :=
      softmaxF32_strided fun hall => hhot hall.2
    constructor
    · intro _ hflag hoff
      exact absurd ⟨hflag, hoff⟩ hhot
    · intro _
      exact ⟨_, _, hsame.trans hstrided, hstrided, rfl, elements_contiguous h.bytes _⟩

end Scores

/-! ## Rows of two scores -/

section Rows

open Extended OnlineSoftmax

/-- Two scores, of which the first may be masked. -/
noncomputable def twoScores (first : WithBot ℝ) (l : Nat) : WithBot ℝ :=
  if l = 0 then first else ((0 : ℝ) : WithBot ℝ)

noncomputable def scoreRow (first : WithBot ℝ) : Tensor (Extended ℝ) where
  storage := (range [2].prod).map fun l => ofScore (twoScores first l)
  layout := contiguous [2] .f32

theorem scoreRow_fresh (first : WithBot ℝ) :
    Fresh (scoreRow first) .f32 [2] fun l => ofScore (twoScores first l) :=
  fresh_contiguous (by decide)

theorem scoreRow_reachable (first : WithBot ℝ) : Reachable (scoreRow first) :=
  @Reachable.fromVecTyped _ .f32 [2] (scoreRow first).storage _ (by decide)
    (by simp [scoreRow, Dtype.byteSize]) rfl

theorem twoScores_unmasked (first : WithBot ℝ) : SomeUnmasked [2] 0 (twoScores first) := by
  intro m hm
  refine ⟨1, by decide, ?_⟩
  exact WithBot.coe_ne_bot

theorem softmax_paths_agree_row :
    PathsAgree Real.exp Real.log (scoreRow (1 : ℝ)) [2] 0 (twoScores (1 : ℝ)) true := by
  refine (softmax_paths_agree_iff Real.exp_add Real.log_exp (scoreRow_reachable _) (by decide) rfl
    (twoScores_unmasked _) (scoreRow_fresh _).holds).2 ?_
  intro _ _ m hm
  exact WithBot.coe_ne_bot

/-- A masked score at the front of a row. -/
theorem softmax_masked_front :
    SomeUnmasked [2] 0 (twoScores ⊥) ∧
      ¬ PathsAgree Real.exp Real.log (scoreRow ⊥) [2] 0 (twoScores ⊥) false := by
  refine ⟨twoScores_unmasked ⊥, fun hagree => ?_⟩
  have hexp : ExpLaws Real.exp := expLaws_of_inverse Real.exp_add Real.log_exp
  refine heads_of_pathsAgree hexp (by decide) rfl (twoScores_unmasked ⊥) (scoreRow_fresh ⊥) hagree 0
    (by decide) ?_
  rfl

end Rows

end Cpu
end Rustorch
