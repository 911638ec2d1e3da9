import Rustorch.Cpu.Conv
import Rustorch.Lib.Alignments

/-!
# CTC loss

`ctc_loss_forward` runs, for each sample of the batch, a dynamic programme over the frames and over
the target with blanks between its labels.  The scalars are elements of a commutative semiring: its
addition is the log-add of the source, its product the addition of log-probabilities and its zero
`-inf`.  The value of the programme is the weight of the alignments (`ctcLossForward_alignments`).
-/

namespace Rustorch
namespace Cpu

open Rustorch.Core List Outcome Rows Layout
open Option (bind_eq_bind bind_some map_some)
open LoopNest (indices)
open Alignments (collapse extended forward total Skips)

/-! ## The kernel -/

inductive Reduction
  | mean
  | sum
  | none
  deriving DecidableEq, Repr

def blank : Int := 0

section Model

variable {W R : Type}

/-- `log_sum_exp`; the zero is `-inf`. -/
def logSumExp [AddMonoid W] [DecidableEq W] (a b : W) : W :=
  if a = 0 then
    b
  else if b = 0 then
    a
  else
    a + b

/-- The closure `lp_b` at frame `t` and label `k`. -/
def lpAt (lp : List W) (bs b c t : Nat) (k : Int) : Option W :=
  lp[((t * bs + b) * c + asU64 k) % u64Size]?

/-- The loop that writes the labels between the blanks. -/
def extendTarget (tg : List Int) (sMax b sB : Nat) (yExt : List Int) : Option (List Int) :=
  LoopNest.run [sB] (fun I yExt =>
    match I with
    | [i] => do
      let k ← tg[b * sMax + i]?
      LoopNest.put yExt (2 * i + 1) k
    | _ => some yExt) yExt

variable [CommSemiring W] [DecidableEq W]

/-- `if c { alpha[s] = lp_b(0, k); }`. -/
def initCell (lpB : Nat → Int → Option W) (c : Bool) (s : Nat) (k : Option Int) (alpha : List W) :
    Option (List W) :=
  if c then do
    let k ← k
    let a ← lpB 0 k
    LoopNest.put alpha s a
  else
    some alpha

/-- The two cells of the first frame. -/
def initialise (lpB : Nat → Int → Option W) (yExt : List Int) (sExt : Nat) (alpha : List W) :
    Option (List W) := do
  let alpha ← initCell lpB (1 ≤ sExt) 0 (some blank) alpha
  initCell lpB (2 ≤ sExt) 1 yExt[1]? alpha

/-- `if c { a = log_sum_exp(a, x); }`. -/
def logAddIf (c : Bool) (a : W) (x : Option W) : Option W :=
  if c then
    x.map (logSumExp a)
  else
    some a

/-- `s > 1 && y_ext[s] != BLANK && y_ext[s] != y_ext[s - 2]`. -/
def maySkip (yExt : List Int) (s : Nat) : Option Bool :=
  if 1 < s then do
    let k ← yExt[s]?
    let k' ← yExt[s - 2]?
    some (decide (k ≠ blank ∧ k ≠ k'))
  else
    some false

/-- The body of the recurrence. -/
def ctcStep (lpB : Nat → Int → Option W) (yExt : List Int) (sExt t s : Nat) (alpha : List W) :
    Option (List W) := do
  let a ← alpha[(t - 1) * sExt + s]?
  let a ← logAddIf (0 < s) a alpha[(t - 1) * sExt + s - 1]?
  let skip ← maySkip yExt s
  let a ← logAddIf skip a alpha[(t - 1) * sExt + s - 2]?
  let k ← yExt[s]?
  let l ← lpB t k
  LoopNest.put alpha (t * sExt + s) (a * l)

/-- The log-add over the last two states. -/
def finalTotal (alpha : List W) (sExt lastT : Nat) : Option W := do
  let total ← logAddIf (1 ≤ sExt) 0 alpha[lastT * sExt + sExt - 1]?
  logAddIf (2 ≤ sExt) total alpha[lastT * sExt + sExt - 2]?

/-- The dynamic programme of sample `b`.  A table whose size leaves `usize` cannot be allocated
either, so its size is not reduced. -/
def ctcTotal (lp : List W) (tg : List Int) (tIn bs c sMax : Nat) (inputLens targetLens : List Int)
    (b : Nat) : Outcome BackendError W := do
  let inputLen ← expect inputLens[b]?
  let tB := min (asU64 inputLen) tIn
  let targetLen ← expect targetLens[b]?
  let sB := min (asU64 targetLen) sMax
  let sExt := 2 * sB + 1
  let yExt ← filled .i64 blank sExt
  let yExt ← expect (extendTarget tg sMax b sB yExt)
  let alpha ← filled .f32 (0 : W) (tB * sExt)
  let alpha ← expect (initialise (lpAt lp bs b c) yExt sExt alpha)
  let alpha ← expect (LoopNest.run [tB - 1, sExt] (fun I alpha =>
    match I with
    | [i, s] => ctcStep (lpAt lp bs b c) yExt sExt (i + 1) s alpha
    | _ => some alpha) alpha)
  expect (finalTotal alpha sExt (tB - 1))

/-- The tensor that a reduction makes of the losses of the samples. -/
def reduceLosses [AddMonoid R] (divBy : R → Nat → R) (reduction : Reduction) (losses : List R) :
    Outcome BackendError (Tensor R) :=
  unwrap (ofExcept (match reduction with
    | .none => fromVecTyped .f32 [losses.length] losses
    | .sum => fromVecTyped .f32 [] [losses.sum]
    | .mean => fromVecTyped .f32 [] [divBy losses.sum losses.length]))

/-- The losses are values of another type: `neg` is the negation of a total, and `divBy` divides a
sum of losses by the size of the batch. -/
def ctcLossForward [AddMonoid R] (neg : W → R) (divBy : R → Nat → R) (logProbs : Tensor W)
    (targets : Tensor Int) (inputLens targetLens : List Int) (reduction : Reduction) :
    Outcome BackendError (Tensor R) :=
  if logProbs.layout.dtype ≠ .f32 then
    .err (.dtypeMismatch "ctc_loss" logProbs.layout.dtype .f32)
  else if logProbs.shape.length ≠ 3 ∨ targets.shape.length ≠ 2 then
    .err (.shapeMismatch "ctc_loss" logProbs.shape targets.shape)
  else do
    let tIn ← axisSize logProbs.shape 0
    let bs ← axisSize logProbs.shape 1
    let c ← axisSize logProbs.shape 2
    let sMax ← axisSize targets.shape 1
    let lp ← unwrap (logProbs.asSlice .f32)
    let tg ← unwrap (targets.asSlice .i64)
    withCapacity .f32 bs
    let losses ← (range bs).mapM fun b => do
      let total ← ctcTotal lp tg tIn bs c sMax inputLens targetLens b
      pure (neg total)
    reduceLosses divBy reduction losses

end Model

theorem logSumExp_eq {W : Type} [AddMonoid W] [DecidableEq W] (a b : W) : logSumExp a b = a + b := by
  unfold logSumExp
  split
  · next h => rw [h, zero_add]
  · split
    · next h => rw [h, add_zero]
    · rfl

/-! ## One sample -/

section Frames

variable {W : Type} {n : Nat}

/-- The weight of a label at a frame of sample `b`. -/
def frameWeight (w : Nat → W) (bs b t : Nat) (k : Fin (n + 1)) : W :=
  w ((t * bs + b) * (n + 1) + k.val)

theorem lpAt_eq {w : Nat → W} {tIn bs b t : Nat} (k : Fin (n + 1)) (ht : t < tIn) (hb : b < bs)
    (hfits : tIn * bs * (n + 1) < u64Size) :
    lpAt ((range (tIn * bs * (n + 1))).map w) bs b (n + 1) t (k.val : Int) =
      some (frameWeight w bs b t k) := by
  have hcell : (t * bs + b) * (n + 1) + k.val < tIn * bs * (n + 1) :=
    cell_lt (cell_lt ht hb) k.isLt
  have hk : asU64 (k.val : Int) = k.val := by
    have hlt : k.val < 2 ^ 64 := lt_of_le_of_lt (Nat.le_add_left _ _) (hcell.trans hfits)
    rw [asU64_of_nonneg (Int.natCast_nonneg _) (by exact_mod_cast hlt), Int.toNat_natCast]
  rw [lpAt, hk, Nat.mod_eq_of_lt (hcell.trans hfits), getElem?_map, getElem?_range hcell]
  rfl

end Frames

section Sample

variable {W : Type} [CommSemiring W] {n : Nat} {y : List (Fin (n + 1))}

/-- The extended target as the buffer holds it. -/
def extendedLabels (y : List (Fin (n + 1))) : List Int :=
  (range (2 * y.length + 1)).map fun s => ((extended 0 y s).val : Int)

/-- The first labels of row `b` of the target buffer spell `y`, a word without blanks. -/
structure Spells (g : Nat → Int) (sMax sB b : Nat) (y : List (Fin (n + 1))) : Prop where
  length : y.length = sB
  cell : ∀ i < sB, g (b * sMax + i) = ((y.getD i 0).val : Int)
  noBlank : 0 ∉ y

variable {g : Nat → Int} {s : Nat}

theorem extendTarget_eq {bs sMax sB b : Nat} (hy : Spells g sMax sB b y) (hb : b < bs)
    (hle : sB ≤ sMax) :
    extendTarget ((range (bs * sMax)).map g) sMax b sB (replicate (2 * sB + 1) blank) =
      some (extendedLabels y) := by
  -- The labels before position `2 * i` are written, and the rest are blanks.
  obtain ⟨out, hrun, hlen, hcell⟩ := @LoopNest.run_invariant (List Int) [sB] (fun I yExt =>
      match I with
      | [i] => do
        let k ← ((range (bs * sMax)).map g)[b * sMax + i]?
        LoopNest.put yExt (2 * i + 1) k
      | _ => some yExt)
    (fun i out => out.length = 2 * sB + 1 ∧ ∀ s < 2 * sB + 1, out[s]? =
      some (if s < 2 * i then ((extended 0 y s).val : Int) else blank))
    (replicate (2 * sB + 1) blank) ⟨length_replicate, by
      intro s hs
      rw [getElem?_replicate, if_pos hs, if_neg (by omega)]⟩ (by
      rintro i I out hI ⟨hlen, hcell⟩
      obtain ⟨j, _, hj, hnil, rfl⟩ :=
        forall₂_cons_left_iff.1 (mem_indices.1 (mem_of_getElem? hI))
      cases hnil
      have hpos := LoopNest.position_indices _ _ _ hI
      have hij : j = i := by simpa [LoopNest.position, MixedRadix.value] using hpos
      subst hij
      have hread : ((range (bs * sMax)).map g)[b * sMax + j]? =
          some (((y.getD j 0).val : Int)) := by
        have hlt : b * sMax + j < bs * sMax := cell_lt hb (by omega)
        rw [getElem?_map, getElem?_range hlt, map_some, hy.cell j hj]
      refine ⟨out.set (2 * j + 1) ((y.getD j 0).val : Int), ?_, ?_, ?_⟩
      · simp only [hread, bind_eq_bind, bind_some]
        rw [LoopNest.put, if_pos (by omega)]
      · rw [length_set, hlen]
      · intro s hs
        rw [getElem?_set, hcell s hs]
        by_cases hsj : 2 * j + 1 = s
        · subst hsj
          rw [if_pos rfl, if_pos (by omega), if_pos (by omega), Alignments.extended_odd]
        · rw [if_neg hsj]
          by_cases hlt : s < 2 * j
          · rw [if_pos hlt, if_pos (by omega)]
          · rw [if_neg hlt]
            split
            · rw [show s = 2 * j by omega, Alignments.extended_even]
              rfl
            · rfl)
  rw [extendTarget, hrun, extendedLabels, hy.length]
  refine congrArg some (ext_getElem? ?_)
  intro s
  rw [getElem?_map]
  by_cases hs : s < 2 * sB + 1
  · rw [hcell s hs, getElem?_range hs, map_some]
    split
    · rfl
    · next hge =>
        have hend : s = 2 * sB := by
          simp only [prod_singleton] at hge
          omega
        rw [hend, Alignments.extended_even]
        rfl
  · rw [getElem?_eq_none (by omega), getElem?_eq_none (by simpa using hs)]
    rfl

theorem getElem?_extendedLabels :
    s < 2 * y.length + 1 → (extendedLabels y)[s]? = some ((extended 0 y s).val : Int) := by
  intro hs
  rw [extendedLabels, getElem?_map, getElem?_range hs]
  rfl

variable {lpB : Nat → Int → Option W} {w : Nat → Fin (n + 1) → W} {tB : Nat}

/-- The table holds the weights of the first `m` cells, and no path ends in the others yet. -/
def Filled (w : Nat → Fin (n + 1) → W) (y : List (Fin (n + 1))) (tB m : Nat) (alpha : List W) :
    Prop :=
  alpha.length = tB * (2 * y.length + 1) ∧ ∀ t s, s < 2 * y.length + 1 →
    t * (2 * y.length + 1) + s < m → alpha[t * (2 * y.length + 1) + s]? = some (forward w 0 y t s)

variable {alpha : List W}

theorem Filled.put {t : Nat} (hs : s < 2 * y.length + 1) (ht : t < tB) :
    Filled w y tB (t * (2 * y.length + 1) + s) alpha →
      ∃ alpha', LoopNest.put alpha (t * (2 * y.length + 1) + s) (forward w 0 y t s) = some alpha' ∧
        Filled w y tB (t * (2 * y.length + 1) + s + 1) alpha' := by
  rintro ⟨hlen, hcell⟩
  have hlt : t * (2 * y.length + 1) + s < alpha.length := hlen ▸ cell_lt ht hs
  refine ⟨_, if_pos hlt, ?_, ?_⟩
  · rw [length_set, hlen]
  · intro t' s' hs' hm
    by_cases heq : t * (2 * y.length + 1) + s = t' * (2 * y.length + 1) + s'
    · obtain ⟨rfl, rfl⟩ := cell_inj hs hs' heq
      exact getElem?_set_self hlt
    · rw [getElem?_set_ne heq]
      exact hcell t' s' hs' (by omega)

/-- The first frame. -/
theorem initialise_filled (hT : 0 < tB) (hy : 0 ∉ y)
    (hlp : ∀ t < tB, ∀ k : Fin (n + 1), lpB t (k.val : Int) = some (w t k)) :
    ∃ alpha, initialise lpB (extendedLabels y) (2 * y.length + 1)
        (replicate (tB * (2 * y.length + 1)) 0) = some alpha ∧
      Filled w y tB (2 * y.length + 1) alpha := by
  have hlen : 2 * y.length + 1 ≤ tB * (2 * y.length + 1) := Nat.le_mul_of_pos_left _ hT
  have hstart : lpB 0 blank = some (w 0 0) := hlp 0 hT 0
  -- No path of one frame is past state 1.
  have hrow : ∀ s < 2 * y.length + 1,
      forward w 0 y 0 s = if s ≤ 1 then w 0 (extended 0 y s) else 0 := by
    intro s hs
    exact Alignments.forward_zero hy hs
  have hfirst : initCell lpB (1 ≤ 2 * y.length + 1) 0 (some blank)
      (replicate (tB * (2 * y.length + 1)) 0) =
        some ((replicate (tB * (2 * y.length + 1)) 0).set 0 (w 0 0)) := by
    rw [initCell, if_pos (by simp)]
    simp only [bind_eq_bind, bind_some, hstart]
    exact if_pos (by rw [length_replicate]; omega)
  obtain ⟨alpha, hsecond, halpha, hcells⟩ : ∃ alpha,
      initCell lpB (2 ≤ 2 * y.length + 1) 1 (extendedLabels y)[1]?
        ((replicate (tB * (2 * y.length + 1)) 0).set 0 (w 0 0)) = some alpha ∧
      alpha.length = tB * (2 * y.length + 1) ∧ ∀ s < 2 * y.length + 1,
        alpha[s]? = some (if s ≤ 1 then w 0 (extended 0 y s) else 0) := by
    have hcell : ∀ s < 2 * y.length + 1, s ≠ 1 →
        ((replicate (tB * (2 * y.length + 1)) 0).set 0 (w 0 0))[s]? =
          some (if s ≤ 1 then w 0 (extended 0 y s) else 0) := by
      intro s hs h1
      rcases Nat.eq_zero_or_pos s with rfl | h0
      · rw [getElem?_set_self (by rw [length_replicate]; omega)]
        rfl
      · rw [getElem?_set_ne (by omega), getElem?_replicate, if_pos (by omega), if_neg (by omega)]
    rcases Nat.eq_zero_or_pos y.length with h0 | hpos
    · refine ⟨_, if_neg (by simp [h0]), by simp, ?_⟩
      intro s hs
      exact hcell s hs (by omega)
    · refine ⟨((replicate (tB * (2 * y.length + 1)) 0).set 0 (w 0 0)).set 1
        (w 0 (extended 0 y 1)), ?_, by simp, ?_⟩
      · rw [initCell, if_pos (decide_eq_true (by omega)), getElem?_extendedLabels (by omega)]
        simp only [bind_eq_bind, bind_some, hlp 0 hT]
        exact if_pos (by rw [length_set, length_replicate]; omega)
      · intro s hs
        by_cases h1 : s = 1
        · rw [h1, getElem?_set_self (by rw [length_set, length_replicate]; omega), if_pos le_rfl]
        · rw [getElem?_set_ne (Ne.symm h1), hcell s hs h1]
  refine ⟨alpha, ?_, halpha, ?_⟩
  · rw [initialise, hfirst]
    exact hsecond
  · intro t s hs hm
    have ht : t = 0 := by
      rcases Nat.eq_zero_or_pos t with h0 | h0
      · exact h0
      · have := Nat.le_mul_of_pos_left (2 * y.length + 1) h0
        omega
    rw [ht, Nat.zero_mul, Nat.zero_add, hcells s hs, hrow s hs]

variable [DecidableEq W]

theorem logAddIf_eq {p : Prop} [Decidable p] {x : Option W} {v : W} (a : W) (hx : p → x = some v) :
    logAddIf (decide p) a x = some (a + if p then v else 0) := by
  by_cases h : p
  · rw [logAddIf, if_pos (decide_eq_true h), hx h, map_some, logSumExp_eq, if_pos h]
  · rw [logAddIf, if_neg (by simp [h]), if_neg h, add_zero]

theorem maySkip_eq :
    s < 2 * y.length + 1 → maySkip (extendedLabels y) s = some (decide (Skips 0 y s)) := by
  intro hs
  unfold maySkip
  split
  · next h1 =>
      rw [getElem?_extendedLabels hs, getElem?_extendedLabels (show s - 2 < 2 * y.length + 1 by omega)]
      simp only [bind_eq_bind, bind_some, Option.some_inj, decide_eq_decide, Skips,
        h1, true_and]
      rw [ne_eq, ne_eq, ne_eq, ne_eq, Nat.cast_inj, Fin.val_inj, blank, Int.natCast_eq_zero,
        Fin.val_eq_zero_iff]
  · next h1 => rw [decide_eq_false (fun hskip : Skips 0 y s => h1 hskip.1)]

/-- One cell of the table. -/
theorem ctcStep_filled {t : Nat} (hy : 0 ∉ y)
    (hlp : ∀ t < tB, ∀ k : Fin (n + 1), lpB t (k.val : Int) = some (w t k))
    (hs : s < 2 * y.length + 1) (ht : t + 1 < tB) :
    Filled w y tB ((t + 1) * (2 * y.length + 1) + s) alpha →
      ∃ alpha', ctcStep lpB (extendedLabels y) (2 * y.length + 1) (t + 1) s alpha = some alpha' ∧
        Filled w y tB ((t + 1) * (2 * y.length + 1) + s + 1) alpha' := by
  intro h
  obtain ⟨alpha', hput, hfilled⟩ := h.put hs ht
  refine ⟨alpha', ?_, hfilled⟩
  have hread : ∀ s' < 2 * y.length + 1,
      alpha[t * (2 * y.length + 1) + s']? = some (forward w 0 y t s') := by
    intro s' hs'
    refine h.2 t s' hs' ?_
    rw [Nat.succ_mul t]
    omega
  have hone : 0 < s → alpha[t * (2 * y.length + 1) + s - 1]? = some (forward w 0 y t (s - 1)) := by
    intro h0
    rw [Nat.add_sub_assoc h0, hread (s - 1) (by omega)]
  have htwo : Skips 0 y s →
      alpha[t * (2 * y.length + 1) + s - 2]? = some (forward w 0 y t (s - 2)) := by
    intro hskip
    rw [Nat.add_sub_assoc hskip.1, hread (s - 2) (by omega)]
  rw [Alignments.forward_succ hy hs, mul_comm (w _ _), ← add_assoc] at hput
  rw [ctcStep, Nat.add_sub_cancel, hread s hs, getElem?_extendedLabels hs, maySkip_eq hs]
  simp only [bind_eq_bind, bind_some, logAddIf_eq _ hone, logAddIf_eq _ htwo,
    hlp (t + 1) ht]
  exact hput

theorem finalTotal_eq (hT : 0 < tB) (hy : 0 ∉ y) : Filled w y tB (tB * (2 * y.length + 1)) alpha →
      finalTotal alpha (2 * y.length + 1) (tB - 1) =
        some (total w tB fun l => collapse 0 l = y) := by
  rintro ⟨_, hcell⟩
  obtain ⟨t, rfl⟩ : ∃ t, tB = t + 1 := ⟨tB - 1, by omega⟩
  have hread : ∀ s < 2 * y.length + 1,
      alpha[t * (2 * y.length + 1) + s]? = some (forward w 0 y t s) := by
    intro s hs
    exact hcell t s hs (cell_lt (Nat.lt_succ_self t) hs)
  have hlast : 1 ≤ 2 * y.length + 1 →
      alpha[t * (2 * y.length + 1) + (2 * y.length + 1) - 1]? =
        some (forward w 0 y t (2 * y.length)) := by
    intro h
    rw [Nat.add_sub_assoc h, Nat.add_sub_cancel, hread _ (Nat.lt_succ_self _)]
  have hprev : 2 ≤ 2 * y.length + 1 →
      alpha[t * (2 * y.length + 1) + (2 * y.length + 1) - 2]? =
        some (forward w 0 y t (2 * y.length - 1)) := by
    intro h
    rw [Nat.add_sub_assoc h, show 2 * y.length + 1 - 2 = 2 * y.length - 1 by omega,
      hread _ (by omega)]
  rw [finalTotal, Nat.add_sub_cancel, logAddIf_eq _ hlast, Alignments.total_collapse hy, zero_add,
    if_pos (by omega)]
  simp only [bind_eq_bind, bind_some, logAddIf_eq _ hprev]
  have hiff : 2 ≤ 2 * y.length + 1 ↔ 0 < y.length := by
    omega
  simp only [hiff]

theorem recurrence_filled (hT : 0 < tB) (hy : 0 ∉ y)
    (hlp : ∀ t < tB, ∀ k : Fin (n + 1), lpB t (k.val : Int) = some (w t k)) :
    Filled w y tB (2 * y.length + 1) alpha →
      ∃ alpha', LoopNest.run [tB - 1, 2 * y.length + 1] (fun I alpha =>
          match I with
          | [i, s] => ctcStep lpB (extendedLabels y) (2 * y.length + 1) (i + 1) s alpha
          | _ => some alpha) alpha = some alpha' ∧
        Filled w y tB (tB * (2 * y.length + 1)) alpha' := by
  intro hrow
  obtain ⟨alpha', hrun, hfilled⟩ := @LoopNest.run_invariant (List W) [tB - 1, 2 * y.length + 1]
    (fun I alpha =>
      match I with
      | [i, s] => ctcStep lpB (extendedLabels y) (2 * y.length + 1) (i + 1) s alpha
      | _ => some alpha)
    (fun m alpha => Filled w y tB (2 * y.length + 1 + m) alpha) alpha hrow (by
      intro m I alpha hI hfill
      obtain ⟨i, K, hi, hK, rfl⟩ :=
        forall₂_cons_left_iff.1 (mem_indices.1 (mem_of_getElem? hI))
      obtain ⟨s, K, hs, hnil, rfl⟩ := forall₂_cons_left_iff.1 hK
      cases hnil
      have hpos := LoopNest.position_indices _ _ _ hI
      rw [@LoopNest.position_cons [2 * y.length + 1] [s] _ _ rfl] at hpos
      have hm : 2 * y.length + 1 + m = (i + 1) * (2 * y.length + 1) + s := by
        have hm : i * (2 * y.length + 1) + s = m := by
          simpa [LoopNest.position, MixedRadix.value] using hpos
        rw [← hm, Nat.succ_mul i]
        omega
      rw [hm] at hfill
      obtain ⟨alpha', hstep, hfill'⟩ := ctcStep_filled hy hlp hs (by omega) hfill
      refine ⟨alpha', hstep, ?_⟩
      rwa [← Nat.add_assoc, hm])
  refine ⟨alpha', hrun, ?_⟩
  have hsize : 2 * y.length + 1 + [tB - 1, 2 * y.length + 1].prod = tB * (2 * y.length + 1) := by
    obtain ⟨t, rfl⟩ : ∃ t, tB = t + 1 := ⟨tB - 1, by omega⟩
    rw [Nat.add_sub_cancel, prod_cons, prod_singleton, Nat.succ_mul t, Nat.add_comm]
  rwa [hsize] at hfilled

/-- The frames that sample `b` uses, and the length of its target. -/
def usedLen (lens : List Int) (limit b : Nat) : Nat :=
  min (asU64 (lens.getD b 0)) limit

/-- The programme of one sample. -/
theorem ctcTotal_eq {w : Nat → W} {tIn bs sMax b : Nat} {inputLens targetLens : List Int}
    (hb : b < bs) (hfits : tIn * bs * (n + 1) < u64Size) (hil : b < inputLens.length)
    (htl : b < targetLens.length) (hT : 0 < usedLen inputLens tIn b)
    (hy : Spells g sMax (usedLen targetLens sMax b) b y) :
    ctcTotal ((range (tIn * bs * (n + 1))).map w) ((range (bs * sMax)).map g) tIn bs (n + 1)
        sMax inputLens targetLens b = (do
      withCapacity .i64 (2 * y.length + 1)
      withCapacity .f32 (usedLen inputLens tIn b * (2 * y.length + 1))
      .ok (total (frameWeight w bs b) (usedLen inputLens tIn b) fun l => collapse 0 l = y)) := by
  have hT' : min (asU64 inputLens[b]) tIn = usedLen inputLens tIn b := by
    rw [usedLen, getD_eq_getElem _ _ hil]
  have hS' : min (asU64 targetLens[b]) sMax = y.length := by
    rw [hy.length, usedLen, getD_eq_getElem _ _ htl]
  have htarget := extendTarget_eq hy hb (min_le_right _ _)
  rw [← hy.length] at htarget
  have hlp : ∀ t < usedLen inputLens tIn b, ∀ k : Fin (n + 1),
      lpAt ((range (tIn * bs * (n + 1))).map w) bs b (n + 1) t (k.val : Int) =
        some (frameWeight w bs b t k) := by
    intro t ht k
    exact lpAt_eq k (lt_of_lt_of_le ht (min_le_right _ _)) hb hfits
  obtain ⟨alpha, hinit, hrow⟩ := initialise_filled hT hy.noBlank hlp
  obtain ⟨alpha', hrun, hfilled⟩ := recurrence_filled hT hy.noBlank hlp hrow
  have hfinal := finalTotal_eq hT hy.noBlank hfilled
  simp only [ctcTotal, getElem?_eq_getElem hil, getElem?_eq_getElem htl,
    expect_some, ok_bind, hT', hS', filled, bind_assoc, pure_eq, htarget,
    hinit, hrun, hfinal]

end Sample

/-! ## The batch -/

section Batch

variable {W R : Type} [CommSemiring W] [DecidableEq W] [AddMonoid R] {n tIn bs sMax : Nat}
  {logProbs : Tensor W} {targets : Tensor Int} {w : Nat → W} {g : Nat → Int}
  {y : Nat → List (Fin (n + 1))} {inputLens targetLens : List Int}

/-- The programme sums over exactly the alignments: with at least one frame and a target of labels
for each sample, the loss of a sample is the loss of the weight of the paths that collapse to its
target, which is zero if there are none.  Only an allocation can fail. -/
theorem ctcLossForward_alignments (neg : W → R) (divBy : R → Nat → R) (reduction : Reduction)
    (hlp : Fresh logProbs .f32 [tIn, bs, n + 1] w) (htg : Fresh targets .i64 [bs, sMax] g)
    (hil : bs ≤ inputLens.length) (htl : bs ≤ targetLens.length) :
    (∀ b < bs, 0 < usedLen inputLens tIn b) →
      (∀ b < bs, Spells g sMax (usedLen targetLens sMax b) b (y b)) →
        ctcLossForward neg divBy logProbs targets inputLens targetLens reduction = (do
          let losses ← (range bs).mapM fun b => do
            withCapacity .i64 (2 * (y b).length + 1)
            withCapacity .f32 (usedLen inputLens tIn b * (2 * (y b).length + 1))
            .ok (neg (∑ p : Fin (usedLen inputLens tIn b) → Fin (n + 1)
              with collapse 0 (ofFn p) = y b,
                ∏ t : Fin (usedLen inputLens tIn b), w ((t * bs + b) * (n + 1) + p t)))
          reduceLosses divBy reduction losses) ∧
        ∀ b < bs, (∀ p : Fin (usedLen inputLens tIn b) → Fin (n + 1),
            collapse 0 (ofFn p) ≠ y b) →
          ∑ p : Fin (usedLen inputLens tIn b) → Fin (n + 1) with collapse 0 (ofFn p) = y b,
            ∏ t : Fin (usedLen inputLens tIn b), w ((t * bs + b) * (n + 1) + p t) = 0 := by
  intro hT hy
  constructor
  · have hsize : [tIn, bs, n + 1].prod = tIn * bs * (n + 1) := by
      simp [Nat.mul_assoc]
    have hfits : tIn * bs * (n + 1) < u64Size := hsize ▸ prod_lt_of_bytes hlp.bytes
    -- each sample has a frame, so the losses are no more than the log probabilities
    have hcap : withCapacity .f32 bs = .ok () := by
      apply withCapacity_ok
      rcases Nat.eq_zero_or_pos bs with h0 | hpos
      · rw [h0]
        decide
      · have hframes : 0 < tIn := lt_of_lt_of_le (hT 0 hpos) (min_le_right _ _)
        have hle : bs ≤ tIn * bs * (n + 1) :=
          (Nat.le_mul_of_pos_left bs hframes).trans (Nat.le_mul_of_pos_right _ n.succ_pos)
        exact lt_of_le_of_lt (Nat.mul_le_mul_right _ (hsize ▸ hle)) hlp.bytes
    have htgt : [bs, sMax].prod = bs * sMax := by
      simp
    rw [ctcLossForward, if_neg (not_not.2 hlp.dtype), hlp.shape, htg.shape, if_neg (by simp),
      hlp.asSlice, htg.asSlice, hsize, htgt]
    simp only [axisSize, getElem?_cons_zero, getElem?_cons_succ, expect_some,
      ok_bind, unwrap_ok, hcap]
    refine congrArg (· >>= reduceLosses divBy reduction) (Traversal.mapM_congr ?_)
    intro b hb
    have hb := mem_range.1 hb
    rw [ctcTotal_eq hb hfits (hb.trans_le hil) (hb.trans_le htl) (hT b hb) (hy b hb)]
    simp only [bind_assoc, ok_bind, pure_eq]
    rfl
  · intro b _ hnone
    refine Finset.sum_eq_zero ?_
    intro p hp
    exact absurd (Finset.mem_filter.1 hp).2 (hnone p)

end Batch

/-- Two frames and the labels 0 and 1. -/
def twoFrames : Tensor Nat :=
  { storage := (range 4).map (fun i => [2, 3, 5, 7].getD i 0)
    layout := contiguous [2, 1, 2] .f32 }

def oneLabel : Tensor Int :=
  { storage := (range 1).map (fun _ => 1), layout := contiguous [1, 1] .i64 }

/-- The paths 01, 10 and 11 weigh `2 * 7 + 3 * 5 + 3 * 7`. -/
theorem ctcLossForward_alignments_twoFrames :
    ctcLossForward id (fun r _ => r) twoFrames oneLabel [2] [1] .sum =
      .ok { storage := [50], layout := contiguous [] .f32 } := by
  have hlp : Fresh twoFrames .f32 [2, 1, 1 + 1] (fun i => [2, 3, 5, 7].getD i 0) :=
    @fresh_contiguous _ .f32 [2, 1, 2] (fun i => [2, 3, 5, 7].getD i 0) (by decide)
  have htg : Fresh oneLabel .i64 [1, 1] (fun _ => 1) :=
    @fresh_contiguous _ .i64 [1, 1] (fun _ => 1) (by decide)
  have hone : ∀ b < 1, b = 0 := fun b hb => Nat.lt_one_iff.1 hb
  have hrun := (@ctcLossForward_alignments Nat Nat _ _ _ 1 2 1 1 _ _ _ _ (fun _ => [1]) [2] [1] id
    (fun r _ => r) .sum hlp htg (by decide) (by decide) (by
      intro b hb
      rw [hone b hb]
      decide) (by
      intro b hb
      rw [hone b hb]
      refine ⟨rfl, ?_, by decide⟩
      intro i hi
      rw [show i = 0 from Nat.lt_one_iff.1 hi]
      rfl)).1
  rw [hrun]
  rfl

end Cpu
end Rustorch
