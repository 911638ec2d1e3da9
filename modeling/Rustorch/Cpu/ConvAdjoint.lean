import Rustorch.Cpu.Conv

/-!
# The gradients of a convolution are its adjoints

All three kernels sum over output, kernel and input positions that meet.  The gradients read the
paddings as signed integers; for paddings below `2^63` the forward kernel meets the same positions,
and from there on it meets none (`conv2d_adjoint_iff`).
-/

namespace Rustorch
namespace Cpu

open Rustorch.Core Finset Outcome
open Finset (range sum_eq_zero)
open LoopNest (indices pick)

variable {F : Type} [CommRing F]

/-! ## One sum over the positions that meet -/

section Sums

variable {n cIn h w cOut kh kw ho wo padH padW : Nat} {G X W : List Nat → F}

theorem mul_meet (a : F) (p q : Option Nat) (f : Nat → Nat → F) :
    a * meet p q f = meet p q fun r c => a * f r c := by
  cases p with
  | none => exact mul_zero a
  | some r =>
    cases q with
    | none => exact mul_zero a
    | some c => rfl

theorem meet_mul (a : F) (p q : Option Nat) (f : Nat → Nat → F) :
    meet p q f * a = meet p q fun r c => f r c * a := by
  cases p with
  | none => exact zero_mul a
  | some r =>
    cases q with
    | none => exact zero_mul a
    | some c => rfl

/-- The value at two positions, as a sum over all positions. -/
theorem meet_eq {p q : Option Nat} {m k : Nat} {P Q : Nat → Prop} [DecidablePred P]
    [DecidablePred Q] {f : Nat → Nat → F} (hp : ∀ i, p = some i ↔ i < m ∧ P i)
    (hq : ∀ j, q = some j ↔ j < k ∧ Q j) :
    meet p q f = ∑ i ∈ range m, ∑ j ∈ range k, if P i ∧ Q j then f i j else 0 := by
  have hinner : ∀ i, (q.elim 0 (f i)) = ∑ j ∈ range k, if Q j then f i j else 0 := by
    intro i
    refine LoopNest.sum_position ?_ fun j hj => ((hq j).1 hj).1
    intro j hj
    rw [hq j]
    exact ⟨fun h => ⟨hj, h⟩, fun h => h.2⟩
  rw [meet, LoopNest.sum_position (n := m) (q := P) ?_ fun i hi => ((hp i).1 hi).1]
  · refine sum_congr rfl ?_
    intro i _
    by_cases hPi : P i
    · simp only [hPi, true_and, if_true]
      exact hinner i
    · simp [hPi]
  · intro i hi
    rw [hp i]
    exact ⟨fun h => ⟨hi, h⟩, fun h => h.2⟩

/-- A kernel cell at an output position lies on an input position, the padding read as signed. -/
def Meets (pad out k inp : Nat) : Prop :=
  (out : Int) + k = inp + asI64 pad

instance (pad out k inp : Nat) : Decidable (Meets pad out k inp) :=
  inferInstanceAs (Decidable (_ = _))

/-- The term of an image, two channels, and output, kernel and input positions. -/
def triple (padH padW : Nat) (G X W : List Nat → F) : List Nat → F
  | [ni, co, oh, ow, ci, kr, kc, hi, wi] =>
    if Meets padH oh kr hi ∧ Meets padW ow kc wi then
      G [ni, co, oh, ow] * X [ni, ci, hi, wi] * W [co, ci, kr, kc]
    else
      0
  | _ => 0

def tripleSum (n cIn h w cOut kh kw ho wo padH padW : Nat) (G X W : List Nat → F) : F :=
  ((indices [n, cOut, ho, wo, cIn, kh, kw, h, w]).map (triple padH padW G X W)).sum

theorem forward_total (hb : ConvBounds h w kh kw ho wo) (hpH : padH < 2 ^ 63)
    (hpW : padW < 2 ^ 63) :
    ((indices [n, cOut, ho, wo]).map fun O =>
      G O * forwardValue cIn h w kh kw padH padW X W O).sum =
        tripleSum n cIn h w cOut kh kw ho wo padH padW G X W := by
  have hpos : ∀ {size pad out k : Nat}, size < 2 ^ 61 → out < 2 ^ 61 → k < 2 ^ 61 →
      pad < 2 ^ 63 → ∀ i, inputPos size pad out k = some i ↔ i < size ∧ Meets pad out k i := by
    intro size pad out k hsize hout hk hpad i
    rw [inputPos_iff hsize hout hk, Meets, asI64_eq_self hpad]
    omega
  rw [tripleSum]
  simp only [LoopNest.sum_indices_cons, LoopNest.sum_indices_nil, forwardValue, triple, mul_sum]
  refine sum_congr rfl fun ni _ => sum_congr rfl fun co _ => ?_
  refine sum_congr rfl fun oh hoh => sum_congr rfl fun ow how => ?_
  refine sum_congr rfl fun ci _ => ?_
  refine sum_congr rfl fun kr hkr => sum_congr rfl fun kc hkc => ?_
  have hoh := lt_trans (Finset.mem_range.1 hoh) hb.ho
  have how := lt_trans (Finset.mem_range.1 how) hb.wo
  have hkr := lt_trans (Finset.mem_range.1 hkr) hb.kh
  have hkc := lt_trans (Finset.mem_range.1 hkc) hb.kw
  rw [mul_meet, meet_eq (hpos hb.h hoh hkr hpH) (hpos hb.w how hkc hpW)]
  simp only [mul_assoc]

theorem tripleSum_input : tripleSum n cIn h w cOut kh kw ho wo padH padW G X W =
    ((indices [n, cIn, h, w, cOut, kh, kw, ho, wo]).map fun J =>
      triple padH padW G X W (pick [0, 4, 7, 8, 1, 5, 6, 2, 3] J)).sum :=
  @LoopNest.sum_indices_pick F _ [0, 4, 7, 8, 1, 5, 6, 2, 3] [0, 4, 7, 8, 1, 5, 6, 2, 3]
    [n, cOut, ho, wo, cIn, kh, kw, h, w] (triple padH padW G X W) (by simp) (by simp) rfl rfl

theorem tripleSum_weight : tripleSum n cIn h w cOut kh kw ho wo padH padW G X W =
    ((indices [cOut, cIn, kh, kw, n, ho, wo, h, w]).map fun J =>
      triple padH padW G X W (pick [4, 0, 5, 6, 1, 2, 3, 7, 8] J)).sum :=
  @LoopNest.sum_indices_pick F _ [1, 4, 5, 6, 0, 2, 3, 7, 8] [4, 0, 5, 6, 1, 2, 3, 7, 8]
    [n, cOut, ho, wo, cIn, kh, kw, h, w] (triple padH padW G X W) (by simp) (by simp) rfl rfl

section

variable (hb : ConvBounds h w kh kw ho wo)

include hb

theorem gradInput_total :
    ((indices [n, cIn, h, w]).map fun I =>
      gradInputValue cOut kh kw ho wo padH padW G W I * X I).sum =
        tripleSum n cIn h w cOut kh kw ho wo padH padW G X W := by
  have hpos : ∀ {size pad inp k : Nat}, size < 2 ^ 61 → inp < 2 ^ 61 → k < 2 ^ 61 →
      ∀ o, outputPos size pad inp k = some o ↔ o < size ∧ Meets pad o k inp := by
    intro size pad inp k hsize hinp hk o
    exact outputPos_iff hsize hinp hk
  rw [tripleSum_input]
  simp only [LoopNest.sum_indices_cons, LoopNest.sum_indices_nil, gradInputValue, sum_mul]
  refine sum_congr rfl fun ni _ => sum_congr rfl fun ci _ => ?_
  refine sum_congr rfl fun hi hhi => sum_congr rfl fun wi hwi => ?_
  refine sum_congr rfl fun co _ => ?_
  refine sum_congr rfl fun kr hkr => sum_congr rfl fun kc hkc => ?_
  have hhi := lt_trans (Finset.mem_range.1 hhi) hb.h
  have hwi := lt_trans (Finset.mem_range.1 hwi) hb.w
  have hkr := lt_trans (Finset.mem_range.1 hkr) hb.kh
  have hkc := lt_trans (Finset.mem_range.1 hkc) hb.kw
  rw [meet_mul, meet_eq (hpos hb.ho hhi hkr) (hpos hb.wo hwi hkc)]
  refine sum_congr rfl fun oh _ => sum_congr rfl fun ow _ => ?_
  rw [show pick [0, 4, 7, 8, 1, 5, 6, 2, 3] [ni, ci, hi, wi, co, kr, kc, oh, ow] =
    [ni, co, oh, ow, ci, kr, kc, hi, wi] from rfl, triple]
  simp only [mul_right_comm]

theorem gradWeight_total :
    ((indices [cOut, cIn, kh, kw]).map fun K =>
      gradWeightValue n h w ho wo padH padW X G K * W K).sum =
        tripleSum n cIn h w cOut kh kw ho wo padH padW G X W := by
  have hpos : ∀ {size pad out k : Nat}, size < 2 ^ 61 → out < 2 ^ 61 → k < 2 ^ 61 →
      ∀ i, inputPosSigned size pad out k = some i ↔ i < size ∧ Meets pad out k i := by
    intro size pad out k hsize hout hk i
    exact inputPosSigned_iff hsize hout hk
  rw [tripleSum_weight]
  simp only [LoopNest.sum_indices_cons, LoopNest.sum_indices_nil, gradWeightValue, sum_mul]
  refine sum_congr rfl fun co _ => sum_congr rfl fun ci _ => ?_
  refine sum_congr rfl fun kr hkr => sum_congr rfl fun kc hkc => ?_
  refine sum_congr rfl fun ni _ => ?_
  refine sum_congr rfl fun oh hoh => sum_congr rfl fun ow how => ?_
  have hoh := lt_trans (Finset.mem_range.1 hoh) hb.ho
  have how := lt_trans (Finset.mem_range.1 how) hb.wo
  have hkr := lt_trans (Finset.mem_range.1 hkr) hb.kh
  have hkc := lt_trans (Finset.mem_range.1 hkc) hb.kw
  rw [meet_mul, meet_eq (hpos hb.h hoh hkr) (hpos hb.w how hkc)]
  refine sum_congr rfl fun hi _ => sum_congr rfl fun wi _ => ?_
  rw [show pick [4, 0, 5, 6, 1, 2, 3, 7, 8] [co, ci, kr, kc, ni, oh, ow, hi, wi] =
    [ni, co, oh, ow, ci, kr, kc, hi, wi] from rfl, triple]
  simp only [mul_comm (X _)]

/-- A padding from `2^63` on leaves nothing but padding. -/
theorem forward_total_zero (hpad : 2 ^ 63 ≤ padH ∨ 2 ^ 63 ≤ padW) :
    ((indices [n, cOut, ho, wo]).map fun O =>
      G O * forwardValue cIn h w kh kw padH padW X W O).sum = 0 := by
  simp only [LoopNest.sum_indices_cons, LoopNest.sum_indices_nil, forwardValue, mul_sum]
  refine sum_eq_zero fun ni _ => sum_eq_zero fun co _ => ?_
  refine sum_eq_zero fun oh hoh => sum_eq_zero fun ow how => ?_
  refine sum_eq_zero fun ci _ => ?_
  refine sum_eq_zero fun kr hkr => sum_eq_zero fun kc hkc => ?_
  have hoh := lt_trans (mem_range.1 hoh) hb.ho
  have how := lt_trans (mem_range.1 how) hb.wo
  have hkr := lt_trans (mem_range.1 hkr) hb.kh
  have hkc := lt_trans (mem_range.1 hkc) hb.kw
  cases hr : inputPos h padH oh kr with
  | none => exact mul_zero _
  | some r =>
    cases hc : inputPos w padW ow kc with
    | none => exact mul_zero _
    | some c =>
      have hrH := ((inputPos_iff hb.h hoh hkr).1 hr).2.1
      have hcW := ((inputPos_iff hb.w how hkc).1 hc).2.1
      omega

end

/-- Along one axis some output, kernel and input positions meet. -/
def AxisMeets (size pad k out : Nat) : Prop :=
  ∃ o < out, ∃ c < k, ∃ i < size, Meets pad o c i

theorem tripleSum_zero (hno : ¬ AxisMeets h padH kh ho ∨ ¬ AxisMeets w padW kw wo) :
    tripleSum n cIn h w cOut kh kw ho wo padH padW G X W = 0 := by
  simp only [tripleSum, LoopNest.sum_indices_cons, LoopNest.sum_indices_nil, triple]
  refine sum_eq_zero fun ni _ => sum_eq_zero fun co _ => ?_
  refine sum_eq_zero fun oh hoh => sum_eq_zero fun ow how => ?_
  refine sum_eq_zero fun ci _ => ?_
  refine sum_eq_zero fun kr hkr => sum_eq_zero fun kc hkc => ?_
  refine sum_eq_zero fun hi hhi => sum_eq_zero fun wi hwi => ?_
  refine if_neg ?_
  rintro ⟨hH, hW⟩
  rcases hno with hno | hno
  · exact hno ⟨oh, mem_range.1 hoh, kr, mem_range.1 hkr, hi, mem_range.1 hhi, hH⟩
  · exact hno ⟨ow, mem_range.1 how, kc, mem_range.1 hkc, wi, mem_range.1 hwi, hW⟩

/-- One at a multi-index of a shape, and zero elsewhere. -/
def unitAt (S : Shape) (I : List Nat) (l : Nat) : F :=
  if l = linearOf S I then 1 else 0

theorem unitAt_linearOf {S : Shape} {I J : List Nat} (hI : InBounds S I) (hJ : InBounds S J) :
    unitAt S I (linearOf S J) = if J = I then (1 : F) else 0 := by
  refine if_congr ?_ rfl rfl
  constructor
  · intro h
    rw [← coordsOf_linearOf hJ, h, coordsOf_linearOf hI]
  · rintro rfl
    rfl

/-- A single output, kernel and input position that meet. -/
theorem tripleSum_unit {oh kr hi ow kc wi : Nat} (hn : 0 < n) (hcIn : 0 < cIn) (hcOut : 0 < cOut)
    (hoh : oh < ho) (hkr : kr < kh) (hhi : hi < h) (how : ow < wo) (hkc : kc < kw) (hwi : wi < w)
    (hH : Meets padH oh kr hi) (hW : Meets padW ow kc wi) :
    tripleSum n cIn h w cOut kh kw ho wo padH padW
      (fun I => unitAt [n, cOut, ho, wo] [0, 0, oh, ow] (linearOf [n, cOut, ho, wo] I))
      (fun I => unitAt [n, cIn, h, w] [0, 0, hi, wi] (linearOf [n, cIn, h, w] I))
      (fun I => unitAt [cOut, cIn, kh, kw] [0, 0, kr, kc] (linearOf [cOut, cIn, kh, kw] I)) =
        (1 : F) := by
  have hG := inBounds_four hn hcOut hoh how
  have hX := inBounds_four hn hcIn hhi hwi
  have hK := inBounds_four hcOut hcIn hkr hkc
  have hb : MixedRadix.Bounded [n, cOut, ho, wo, cIn, kh, kw, h, w]
      [0, 0, oh, ow, 0, kr, kc, hi, wi] :=
    .cons hn (.cons hcOut (.cons hoh (.cons how (.cons hcIn (.cons hkr (.cons hkc
      (.cons hhi (.cons hwi .nil))))))))
  rw [tripleSum, LoopNest.sum_indices_single hb]
  · simp only [triple, hH, hW, unitAt_linearOf hG hG, unitAt_linearOf hX hX, unitAt_linearOf hK hK,
      and_self, if_true, mul_one]
  · rintro J (_ | ⟨h0, _ | ⟨h1, _ | ⟨h2, _ | ⟨h3, _ | ⟨h4, _ | ⟨h5, _ | ⟨h6, _ | ⟨h7,
      _ | ⟨h8, _ | _⟩⟩⟩⟩⟩⟩⟩⟩⟩) hne
    simp only [triple, unitAt_linearOf hG (inBounds_four h0 h1 h2 h3),
      unitAt_linearOf hX (inBounds_four h0 h4 h7 h8),
      unitAt_linearOf hK (inBounds_four h1 h4 h5 h6)]
    split_ifs with _ e1 e2 e3
    · simp only [List.cons.injEq, and_true] at e1 e2 e3
      obtain ⟨rfl, rfl, rfl, rfl⟩ := e1
      obtain ⟨_, rfl, rfl, rfl⟩ := e2
      obtain ⟨_, _, rfl, rfl⟩ := e3
      exact absurd rfl hne
    all_goals simp

end Sums

/-! ## The three kernels together -/

section Kernels

variable {x wt g : Tensor F} {f v u : Nat → F} {n cIn h w cOut kh kw padH padW : Nat}

variable {S : Shape} {u : Nat → F} {V : List Nat → F}

theorem innerProduct_right {a b : Tensor F} {T U : Dtype} (ha : Holds a T S u)
    (hb : Holds b U S (fun l => V (coordsOf S l))) :
    innerProduct a b = some (((indices S).map fun I => u (linearOf S I) * V I).sum) := by
  rw [innerProduct_holds ha hb, sum_indices]
  refine congrArg some (Finset.sum_congr rfl ?_)
  intro l hl
  rw [linearOf_coordsOf (Finset.mem_range.1 hl)]

theorem innerProduct_left {a b : Tensor F} {T U : Dtype}
    (ha : Holds a T S (fun l => V (coordsOf S l))) (hb : Holds b U S u) :
    innerProduct a b = some (((indices S).map fun I => V I * u (linearOf S I)).sum) := by
  rw [innerProduct_holds ha hb, sum_indices]
  refine congrArg some (Finset.sum_congr rfl ?_)
  intro l hl
  rw [linearOf_coordsOf (Finset.mem_range.1 hl)]

/-- The operands of a convolution and an output gradient, of matching nonempty shapes. -/
structure ConvOperands (x wt g : Tensor F) (n cIn h w cOut kh kw padH padW : Nat) : Prop where
  input : Reachable x
  weight : Reachable wt
  gradient : Reachable g
  flags : x.layout.isContiguous = true ∧ wt.layout.isContiguous = true ∧
    g.layout.isContiguous = true
  inputShape : x.shape = [n, cIn, h, w]
  weightShape : wt.shape = [cOut, cIn, kh, kw]
  gradientShape : g.shape = [n, cOut, convOut h padH kh, convOut w padW kw]
  sizes : 0 < n ∧ 0 < cIn ∧ 0 < h ∧ 0 < w ∧ 0 < cOut ∧ 0 < kh ∧ 0 < kw

theorem convOut_pos {size pad k : Nat} (hk : 0 < k) : 0 < convOut size pad k := by
  have hlt : (size + 2 * pad) % u64Size < u64Size := Nat.mod_lt _ (by decide)
  have hfit : (size + 2 * pad) % u64Size - k + 1 < u64Size := by
    unfold u64Size at hlt ⊢
    omega
  rw [convOut, Nat.mod_eq_of_lt hfit]
  exact Nat.succ_pos _

/-- The outcome of the three kernels on tensors in front of their buffers. -/
theorem conv_runs (hx : Fresh x .f32 [n, cIn, h, w] f)
    (hw : Fresh wt .f32 [cOut, cIn, kh, kw] v)
    (hg : Fresh g .f32 [n, cOut, convOut h padH kh, convOut w padW kw] u)
    (hb : ConvBounds h w kh kw (convOut h padH kh) (convOut w padW kw)) :
    ∃ y dx dw, conv2dForward x wt none padH padW = .ok y ∧
      y.shape = [n, cOut, convOut h padH kh, convOut w padW kw] ∧
      conv2dGradInput g wt [n, cIn, h, w] padH padW = .ok dx ∧
      conv2dGradWeight x g [cOut, cIn, kh, kw] padH padW = .ok dw ∧
      innerProduct g y = some (((indices [n, cOut, convOut h padH kh, convOut w padW kw]).map
        fun O => u (linearOf [n, cOut, convOut h padH kh, convOut w padW kw] O) *
          forwardValue cIn h w kh kw padH padW (fun I => f (linearOf [n, cIn, h, w] I))
            (fun K => v (linearOf [cOut, cIn, kh, kw] K)) O).sum) ∧
      innerProduct dx x = some (tripleSum n cIn h w cOut kh kw (convOut h padH kh)
        (convOut w padW kw) padH padW
        (fun O => u (linearOf [n, cOut, convOut h padH kh, convOut w padW kw] O))
        (fun I => f (linearOf [n, cIn, h, w] I)) (fun K => v (linearOf [cOut, cIn, kh, kw] K))) ∧
      innerProduct dw wt = some (tripleSum n cIn h w cOut kh kw (convOut h padH kh)
        (convOut w padW kw) padH padW
        (fun O => u (linearOf [n, cOut, convOut h padH kh, convOut w padW kw] O))
        (fun I => f (linearOf [n, cIn, h, w] I)) (fun K => v (linearOf [cOut, cIn, kh, kw] K))) := by
  obtain ⟨y, hy, hyfresh⟩ := @conv2dForward_fresh F _ x wt f v n cIn h w cOut kh kw padH padW hx hw
    hg.bytes hb
  obtain ⟨dx, hdx, hdxfresh⟩ := @conv2dGradInput_fresh F _ wt g v u n cIn h w cOut kh kw
    (convOut h padH kh) (convOut w padW kw) padH padW hg hw hx.bytes hb
  obtain ⟨dw, hdw, hdwfresh⟩ := @conv2dGradWeight_fresh F _ x g f u n cIn h w cOut kh kw
    (convOut h padH kh) (convOut w padW kw) padH padW hx hg hw.bytes hb
  refine ⟨y, dx, dw, hy, hyfresh.shape, hdx, hdw, innerProduct_right hg.holds hyfresh.holds, ?_, ?_⟩
  · rw [innerProduct_left hdxfresh.holds hx.holds, gradInput_total hb]
  · rw [innerProduct_left hdwfresh.holds hw.holds, gradWeight_total hb]

/-- The three sums agree, and none of the calls fails. -/
def ConvAdjoint (x wt g : Tensor F) (padH padW : Nat) : Prop :=
  ∃ y dx dw r, conv2dForward x wt none padH padW = .ok y ∧ y.shape = g.shape ∧
    conv2dGradInput g wt x.shape padH padW = .ok dx ∧
      conv2dGradWeight x g wt.shape padH padW = .ok dw ∧
        innerProduct g y = some r ∧ innerProduct dx x = some r ∧ innerProduct dw wt = some r

/-- The kernels can take the tensors as slices, and a padding that reads as negative meets
nothing. -/
def ConvCondition (x wt g : Tensor F) (h w kh kw padH padW : Nat) : Prop :=
  (Sliced x ∧ Sliced wt ∧ Sliced g) ∧
    ((padH < 2 ^ 63 ∧ padW < 2 ^ 63) ∨ ¬ AxisMeets h padH kh (convOut h padH kh) ∨
      ¬ AxisMeets w padW kw (convOut w padW kw))

namespace ConvOperands

variable (hc : ConvOperands x wt g n cIn h w cOut kh kw padH padW)

include hc

/-- Operands that are slices hold their elements from the front of their buffers. -/
theorem fresh (hs : Sliced x ∧ Sliced wt ∧ Sliced g) :
    ∃ f v u, Fresh x .f32 [n, cIn, h, w] f ∧ Fresh wt .f32 [cOut, cIn, kh, kw] v ∧
      Fresh g .f32 [n, cOut, convOut h padH kh, convOut w padW kw] u := by
  let _ : Inhabited F := ⟨0⟩
  obtain ⟨f, hf⟩ := reachable_holds hc.input
  obtain ⟨v, hv⟩ := reachable_holds hc.weight
  obtain ⟨u, hu⟩ := reachable_holds hc.gradient
  rw [hc.inputShape] at hf
  rw [hc.weightShape] at hv
  rw [hc.gradientShape] at hu
  exact ⟨f, v, u, hs.1.fresh hf, hs.2.1.fresh hv, hs.2.2.fresh hu⟩

theorem bounds (hs : Sliced x ∧ Sliced wt ∧ Sliced g) :
    ConvBounds h w kh kw (convOut h padH kh) (convOut w padW kw) := by
  obtain ⟨hn, hcIn, hh, hw, hcOut, hkh, hkw⟩ := hc.sizes
  obtain ⟨f, v, u, hf, hv, hu⟩ := hc.fresh hs
  have hxs := size_lt (by simp [hn, hcIn, hh, hw]) hf.bytes
  have hws := size_lt (by simp [hcOut, hcIn, hkh, hkw]) hv.bytes
  have hgs := size_lt (by simp [hn, hcOut, convOut_pos hkh, convOut_pos hkw]) hu.bytes
  simp only [List.mem_cons, List.not_mem_nil, or_false, forall_eq_or_imp, forall_eq] at hxs hws hgs
  exact ⟨hxs.2.2.1, hxs.2.2.2, hws.2.2.1, hws.2.2.2, hgs.2.2.1, hgs.2.2.2⟩

omit [CommRing F] in
theorem of_layouts {x' wt' g' : Tensor F} (hx : Reachable x') (hw : Reachable wt')
    (hg : Reachable g') (hxl : x'.layout = x.layout) (hwl : wt'.layout = wt.layout)
    (hgl : g'.layout = g.layout) : ConvOperands x' wt' g' n cIn h w cOut kh kw padH padW := by
  refine ⟨hx, hw, hg, ?_, ?_, ?_, ?_, hc.sizes⟩
  · rw [hxl, hwl, hgl]
    exact hc.flags
  · rw [Tensor.shape, hxl]
    exact hc.inputShape
  · rw [Tensor.shape, hwl]
    exact hc.weightShape
  · rw [Tensor.shape, hgl]
    exact hc.gradientShape

theorem adjoint (hcond : ConvCondition x wt g h w kh kw padH padW) :
    ConvAdjoint x wt g padH padW := by
  obtain ⟨hs, hpad⟩ := hcond
  have hb := hc.bounds hs
  obtain ⟨f, v, u, hf, hv, hu⟩ := hc.fresh hs
  obtain ⟨y, dx, dw, hy, hshape, hdx, hdw, hgy, hdxx, hdww⟩ := conv_runs hf hv hu hb
  refine ⟨y, dx, dw, _, hy, hshape.trans hc.gradientShape.symm, ?_, ?_, ?_, hdxx, hdww⟩
  · rw [hc.inputShape, hdx]
  · rw [hc.weightShape, hdw]
  · rw [hgy]
    refine congrArg some ?_
    by_cases hsmall : padH < 2 ^ 63 ∧ padW < 2 ^ 63
    · exact forward_total hb hsmall.1 hsmall.2
    · rw [forward_total_zero hb (by omega), tripleSum_zero (hpad.resolve_left hsmall)]

/-- The forward kernel and the input gradient take their operands as slices. -/
theorem sliced (hadj : ConvAdjoint x wt g padH padW) : Sliced x ∧ Sliced wt ∧ Sliced g := by
  obtain ⟨y, dx, dw, r, hy, _, hdx, _⟩ := hadj
  have hranks : ¬ (x.shape.length ≠ 4 ∨ wt.shape.length ≠ 4) := by
    simp [hc.inputShape, hc.weightShape]
  rw [conv2dForward, if_neg hranks] at hy
  split_ifs at hy
  simp only [hc.inputShape, hc.weightShape, axisSize, List.getElem?_cons_zero,
    List.getElem?_cons_succ, expect_some, ok_bind, ne_eq, not_true_eq_false,
    if_false] at hy
  obtain ⟨xs, hxs, hy⟩ := bind_eq_ok.1 hy
  obtain ⟨ws, hws, _⟩ := bind_eq_ok.1 hy
  rw [conv2dGradInput] at hdx
  simp only [hc.inputShape, hc.weightShape, hc.gradientShape, axisSize, List.getElem?_cons_zero,
    List.getElem?_cons_succ, expect_some, ok_bind] at hdx
  obtain ⟨gs, hgs, _⟩ := bind_eq_ok.1 hdx
  exact ⟨sliced_of_sliceOr hxs, sliced_of_sliceOr hws, sliced_of_sliceOr hgs⟩

end ConvOperands

/-- For all contents of tensors with these layouts the gradients are the adjoints of the forward
kernel, exactly if the tensors are `f32` ones that start at their buffers and a padding from
`2^63` on, which the gradients read as negative, leaves no positions that meet. -/
theorem conv2d_adjoint_iff [Nontrivial F]
    (hc : ConvOperands x wt g n cIn h w cOut kh kw padH padW) :
    (∀ x' wt' g' : Tensor F, Reachable x' → Reachable wt' → Reachable g' →
        x'.layout = x.layout → wt'.layout = wt.layout → g'.layout = g.layout →
          ConvAdjoint x' wt' g' padH padW) ↔
      ConvCondition x wt g h w kh kw padH padW := by
  constructor
  · intro hall
    have hs := hc.sliced (hall x wt g hc.input hc.weight hc.gradient rfl rfl rfl)
    have hb := hc.bounds hs
    refine ⟨hs, ?_⟩
    by_contra hpad
    rw [not_or, not_or, not_not, not_not] at hpad
    obtain ⟨hbig, ⟨oh, hoh, kr, hkr, hi, hhi, hH⟩, ⟨ow, how, kc, hkc, wi, hwi, hW⟩⟩ := hpad
    obtain ⟨f, v, u, hf, hv, hu⟩ := hc.fresh hs
    -- One output, kernel and input position that meet, and zeros elsewhere.
    have hx := hf.refill (unitAt [n, cIn, h, w] [0, 0, hi, wi])
    have hw := hv.refill (unitAt [cOut, cIn, kh, kw] [0, 0, kr, kc])
    have hg := hu.refill (unitAt [n, cOut, convOut h padH kh, convOut w padW kw] [0, 0, oh, ow])
    obtain ⟨y, dx, dw, r, hy, _, hdx, _, hgy, hdxx, _⟩ := hall
      { storage := (List.range x.storage.length).map (unitAt [n, cIn, h, w] [0, 0, hi, wi])
        layout := x.layout }
      { storage := (List.range wt.storage.length).map (unitAt [cOut, cIn, kh, kw] [0, 0, kr, kc])
        layout := wt.layout }
      { storage := (List.range g.storage.length).map
          (unitAt [n, cOut, convOut h padH kh, convOut w padW kw] [0, 0, oh, ow])
        layout := g.layout }
      (reachable_refill hc.input _ (by simp)) (reachable_refill hc.weight _ (by simp))
      (reachable_refill hc.gradient _ (by simp)) rfl rfl rfl
    obtain ⟨y', dx', dw', hy', _, hdx', _, hgy', hdxx', _⟩ := conv_runs hx hw hg hb
    rw [hy] at hy'
    rw [hx.shape, hdx'] at hdx
    cases hy'
    cases hdx
    obtain ⟨hn, hcIn, _, _, hcOut, _, _⟩ := hc.sizes
    rw [hgy', forward_total_zero hb (by omega)] at hgy
    rw [hdxx', tripleSum_unit hn hcIn hcOut hoh hkr hhi how hkc hwi hH hW] at hdxx
    exact zero_ne_one (Option.some.inj (hgy.trans hdxx.symm))
  · intro hcond x' wt' g' hx hw hg hxl hwl hgl
    refine (hc.of_layouts hx hw hg hxl hwl hgl).adjoint ?_
    rw [ConvCondition, Sliced, Sliced, Sliced, hxl, hwl, hgl]
    exact hcond

end Kernels

/-! ## Images -/

/-- A tensor that counts its cells. -/
def counted (S : Shape) : Tensor Int :=
  tabulated S .f32 Int.ofNat

/-- Two channels of two rows and three columns, two filters, and one column and one row of
padding on each side. -/
theorem counted_operands : ConvOperands (counted [1, 2, 2, 3]) (counted [2, 2, 2, 2])
    (counted [1, 2, 3, 4]) 1 2 2 3 2 2 2 1 1 :=
  ⟨reachable_tabulated (by decide), reachable_tabulated (by decide),
    reachable_tabulated (by decide), ⟨rfl, rfl, rfl⟩, rfl, rfl, rfl, by decide⟩

theorem conv2d_adjoint_counted :
    ConvAdjoint (counted [1, 2, 2, 3]) (counted [2, 2, 2, 2]) (counted [1, 2, 3, 4]) 1 1 :=
  (conv2d_adjoint_iff counted_operands).2
    ⟨⟨⟨rfl, rfl, rfl⟩, ⟨rfl, rfl, rfl⟩, ⟨rfl, rfl, rfl⟩⟩, Or.inl (by decide)⟩ _ _ _
    counted_operands.input counted_operands.weight counted_operands.gradient rfl rfl rfl

/-- One pixel. -/
def pixel : Tensor Int :=
  counted [1, 1, 1, 1]

/-- The second of two images. -/
def secondPixel : Tensor Int where
  storage := [1, 2]
  layout := Layout.ofAxes [⟨1, 1⟩, ⟨1, 1⟩, ⟨1, 1⟩, ⟨1, 1⟩] 1 one_lt_u64Size .f32

theorem secondPixel_reachable : Reachable secondPixel :=
  @Reachable.view Int _ secondPixel (.narrow 0 1 1)
    (@Reachable.fromVecTyped Int .f32 [2, 1, 1, 1] [1, 2] _ (by decide) (by decide) rfl)
    trivial rfl

/-- The forward kernel refuses the contiguous second image. -/
theorem conv2d_second_fails :
    ConvOperands secondPixel pixel pixel 1 1 1 1 1 1 1 0 0 ∧
      ¬ ConvAdjoint secondPixel pixel pixel 0 0 := by
  have hpixel : Reachable pixel := reachable_tabulated (by decide)
  refine ⟨⟨secondPixel_reachable, hpixel, hpixel, ⟨rfl, rfl, rfl⟩, rfl, rfl, rfl, by decide⟩, ?_⟩
  rintro ⟨y, _, _, _, hy, _⟩
  have herr : conv2dForward secondPixel pixel none 0 0 =
      .err (.dtypeMismatch "conv2d" .f32 .f32) := rfl
  rw [herr] at hy
  cases hy

end Cpu
end Rustorch
