import Mathlib.Data.Rat.Floor
import Rustorch.Lib.Rounding
import Rustorch.Quant.GemmInt8

/-!
# Quantisation parameters of a range, and the round trip

`QParams::from_min_max` takes a scale that is symmetric around zero,
`from_min_max_asymmetric` one that spends all 256 codes on the range and clamps the zero point.
`quantize` rounds half to even and clamps.

Floats are an exact field, so every value is finite.  `panic` is an overflow of an `i32` operation.
The clamp of the zero point shifts a range away from zero out of the codes: the round trip stays
within half a step exactly when the range comes within half a step of zero (`calibrates_iff`).
-/

namespace Rustorch
namespace Quant

open Rounding List Traversal

attribute [local instance] two_atLeastTwo

inductive QError (F : Type)
  | lengthMismatch (expected got : Nat)
  | nonPositiveScale (scale : F)
  deriving DecidableEq, Repr

section Kernel

variable {F : Type} [Field F] [LinearOrder F]

namespace QParams

def fromMinMax (min max : F) : Option (QParams F) :=
  if min ≥ max then
    none
  else
    let absMax := Max.max |min| |max|
    if absMax = 0 then none else some { scale := absMax / 127, zeroPoint := 0 }

def fromMinMaxAsymmetric [FloorRing F] (min max : F) : Option (QParams F) :=
  if min ≥ max then
    none
  else
    let qMax : F := 127
    let qMin : F := -128
    let scale := (max - min) / (qMax - qMin)
    if scale = 0 then
      none
    else
      -- a range away from zero would need a zero point outside the codes; it is clamped
      some { scale, zeroPoint := clamp (-128) 127 (halfAway (qMin - min / scale)) }

end QParams

variable [FloorRing F]

/-- The cast of a float with an integer value: it saturates. -/
def asI32 (x : ℤ) : ℤ :=
  clamp i32Min i32Max x

def roundHalfToEven (x : F) : Option ℤ :=
  let floor := ⌊x⌋
  let diff := x - floor
  if diff < 1 / 2 then
    some (asI32 floor)
  else if diff > 1 / 2 then
    some (asI32 (floor + 1))
  else
    let fInt := asI32 floor
    -- this increment is not saturated
    if fInt % 2 = 0 then some fInt else i32 (fInt + 1)

/-- The body of the loop of `quantize`. -/
def quantizeValue (qp : QParams F) (x : F) : Option Int8 := do
  let scaled := x / qp.scale + qp.zeroPoint
  let rounded ← roundHalfToEven scaled
  return Int8.ofInt (clamp (-128) 127 rounded)

def quantize (input : List F) (output : List Int8) (qp : QParams F) :
    Outcome (QError F) (List Int8) :=
  if input.length ≠ output.length then
    .err (.lengthMismatch input.length output.length)
  else if qp.scale ≤ 0 then
    .err (.nonPositiveScale qp.scale)
  else
    .expect (input.mapM (quantizeValue qp))

omit [FloorRing F] in
/-- The body of the loop of `dequantize`. -/
def dequantizeValue (qp : QParams F) (q : Int8) : Option F :=
  (i32 (q.toInt - qp.zeroPoint)).map fun ticks => (ticks : F) * qp.scale

omit [FloorRing F] in
def dequantize (input : List Int8) (output : List F) (qp : QParams F) :
    Outcome (QError F) (List F) :=
  if input.length ≠ output.length then
    .err (.lengthMismatch input.length output.length)
  else if qp.scale ≤ 0 then
    .err (.nonPositiveScale qp.scale)
  else
    .expect (input.mapM (dequantizeValue qp))

/-! ## What the parameters promise -/

/-- Every buffer of values in the range comes back within half a step. -/
def HalfStep (qp : QParams F) (min max : F) : Prop :=
  ∀ (xs back : List F) (out : List Int8), (∀ x ∈ xs, min ≤ x ∧ x ≤ max) →
    out.length = xs.length → back.length = xs.length →
      ∃ qs ys, quantize xs out qp = .ok qs ∧ dequantize qs back qp = .ok ys ∧
        List.Forall₂ (fun x y => |y - x| ≤ qp.scale / 2) xs ys

/-- The codes of a buffer are ordered as its values are. -/
def MonotoneCodes (qp : QParams F) : Prop :=
  ∀ (xs : List F) (out qs : List Int8), quantize xs out qp = .ok qs →
    ∀ (i j : Nat) (x y : F), xs[i]? = some x → xs[j]? = some y → x ≤ y →
      ∃ a b, qs[i]? = some a ∧ qs[j]? = some b ∧ a.toInt ≤ b.toInt

/-- Codes come back as they were. -/
def KeepsCodes (qp : QParams F) : Prop :=
  ∀ (qs out : List Int8) (back : List F), back.length = qs.length → out.length = qs.length →
    ∃ ys, dequantize qs back qp = .ok ys ∧ quantize ys out qp = .ok qs

/-- What is expected of the parameters that a range is given, and of all valid parameters. -/
structure Calibrates (min max : F) : Prop where
  symmetric : ∃ qp, QParams.fromMinMax min max = some qp ∧ HalfStep qp min max ∧ MonotoneCodes qp
  asymmetric : ∃ qp, QParams.fromMinMaxAsymmetric min max = some qp ∧ HalfStep qp min max ∧
    MonotoneCodes qp
  codes : ∀ qp : QParams F, 0 < qp.scale → ZeroPoint qp.zeroPoint → KeepsCodes qp

end Kernel

/-! ## One value -/

section Value

variable {F : Type} [Field F] [LinearOrder F] [FloorRing F] {qp : QParams F} {x : F}

theorem asI32_of_mem {n : ℤ} (hlo : -(2 ^ 31) ≤ n) (hhi : n ≤ 2 ^ 31 - 1) : asI32 n = n :=
  clamp_of_mem hlo hhi

theorem eq_of_roundHalfToEven {r : ℤ} (h : roundHalfToEven x = some r) :
    r = asI32 (nearestEven x) := by
  unfold roundHalfToEven at h
  unfold nearestEven
  simp only [gt_iff_lt] at h
  split at h
  · next hlt =>
      rw [if_pos hlt]
      exact (Option.some.inj h).symm
  · next hlt =>
      rw [if_neg hlt]
      split at h
      · next hgt =>
          rw [if_pos hgt]
          exact (Option.some.inj h).symm
      · next hgt =>
          rw [if_neg hgt]
          unfold asI32 clamp i32Min i32Max at h
          unfold asI32 clamp i32Min i32Max
          -- a saturated floor is kept at the lower bound, which is even; at the upper one the
          -- increment overflows
          split at h
          · have h := Option.some.inj h
            split <;> omega
          · obtain ⟨heq, hlo, hhi⟩ := CheckedSum.fit_eq_some.1 h
            unfold i32Max at hhi
            split <;> omega

/-- It returns on what fits with room for the increment. -/
theorem roundHalfToEven_eq (hlo : -(2 ^ 31) ≤ ⌊x⌋) (hhi : ⌊x⌋ < 2 ^ 31 - 1) :
    roundHalfToEven x = some (nearestEven x) := by
  have hfloor : asI32 ⌊x⌋ = ⌊x⌋ := asI32_of_mem hlo hhi.le
  have hnext : asI32 (⌊x⌋ + 1) = ⌊x⌋ + 1 := asI32_of_mem (by omega) (by omega)
  have hfit : i32 (⌊x⌋ + 1) = some (⌊x⌋ + 1) :=
    CheckedSum.fit_of_mem (by unfold i32Min; omega) (by unfold i32Max; omega)
  unfold roundHalfToEven nearestEven
  simp only [hfloor, hnext, hfit, gt_iff_lt]
  split
  · rfl
  · split
    · rfl
    · split <;> rfl

theorem toInt_ofInt_clamp (r : ℤ) :
    (Int8.ofInt (clamp (-128) 127 r)).toInt = clamp (-128) 127 r := by
  obtain ⟨hlo, hhi⟩ := @clamp_mem (-128) 127 r (by decide)
  rw [Int8.toInt_ofInt]
  exact Int.bmod_eq_of_le_mul_two (by simp only [Int8.size]; omega) (by simp only [Int8.size]; omega)

theorem toInt_mem (q : Int8) : -128 ≤ q.toInt ∧ q.toInt ≤ 127 :=
  ⟨Int8.le_toInt q, Int.le_of_lt_add_one (Int8.toInt_lt q)⟩

theorem clamp_asI32 (r : ℤ) : clamp (-128) 127 (asI32 r) = clamp (-128) 127 r := by
  unfold asI32 clamp i32Min i32Max
  omega

variable {q : Int8}

theorem toInt_of_quantizeValue (h : quantizeValue qp x = some q) :
    q.toInt = clamp (-128) 127 (nearestEven (x / qp.scale + qp.zeroPoint)) := by
  obtain ⟨r, hr, hq⟩ := Option.bind_eq_some_iff.1 h
  have hq : Int8.ofInt (clamp (-128) 127 r) = q := Option.some.inj hq
  rw [← hq, toInt_ofInt_clamp, eq_of_roundHalfToEven hr, clamp_asI32]

theorem quantizeValue_eq (hlo : -(2 ^ 31) ≤ ⌊x / qp.scale + qp.zeroPoint⌋)
    (hhi : ⌊x / qp.scale + qp.zeroPoint⌋ < 2 ^ 31 - 1) : quantizeValue qp x =
      some (Int8.ofInt (clamp (-128) 127 (nearestEven (x / qp.scale + qp.zeroPoint)))) := by
  unfold quantizeValue
  simp only [roundHalfToEven_eq hlo hhi]
  rfl

omit [LinearOrder F] [FloorRing F] in
theorem dequantizeValue_eq (hz : ZeroPoint qp.zeroPoint) (q : Int8) :
    dequantizeValue qp q = some (((q.toInt - qp.zeroPoint : ℤ) : F) * qp.scale) := by
  obtain ⟨hlo, hhi⟩ := toInt_mem q
  obtain ⟨hz₁, hz₂⟩ := hz
  have hfit : i32 (q.toInt - qp.zeroPoint) = some (q.toInt - qp.zeroPoint) :=
    CheckedSum.fit_of_mem (by unfold i32Min; omega) (by unfold i32Max; omega)
  rw [dequantizeValue, hfit]
  rfl

variable [IsStrictOrderedRing F]

omit [FloorRing F] in
theorem abs_error_le_iff (hs : 0 < qp.scale) {q : ℤ} :
    |((q - qp.zeroPoint : ℤ) : F) * qp.scale - x| ≤ qp.scale / 2 ↔
      |(q : F) - (x / qp.scale + qp.zeroPoint)| ≤ 1 / 2 := by
  have herror : ((q - qp.zeroPoint : ℤ) : F) * qp.scale - x =
      ((q : F) - (x / qp.scale + qp.zeroPoint)) * qp.scale := by
    push_cast
    field_simp
    ring
  have hhalf : qp.scale / 2 = 1 / 2 * qp.scale := by ring
  rw [herror, abs_mul, abs_of_pos hs, hhalf]
  exact mul_le_mul_iff_left₀ hs

/-- A value whose ticks are within half a step of the codes. -/
def Reachable (qp : QParams F) (x : F) : Prop :=
  -128 - 1 / 2 ≤ x / qp.scale + qp.zeroPoint ∧ x / qp.scale + qp.zeroPoint ≤ 127 + 1 / 2

theorem quantizeValue_near (hs : 0 < qp.scale) (hx : Reachable qp x) :
    ∃ q, quantizeValue qp x = some q ∧
      |((q.toInt - qp.zeroPoint : ℤ) : F) * qp.scale - x| ≤ qp.scale / 2 := by
  obtain ⟨hlo, hhi⟩ := hx
  refine ⟨_, quantizeValue_eq ?_ ?_, ?_⟩
  · refine Int.le_floor.2 (le_trans ?_ hlo)
    norm_num
  · refine Int.floor_lt.2 (lt_of_le_of_lt hhi ?_)
    norm_num
  · rw [abs_error_le_iff hs, toInt_ofInt_clamp]
    exact abs_clamp_sub_le (abs_nearestEven_sub_le _) (by push_cast; exact hlo)
      (by push_cast; exact hhi)

omit [FloorRing F] in
theorem reachable_of_near (hs : 0 < qp.scale)
    (h : |((q.toInt - qp.zeroPoint : ℤ) : F) * qp.scale - x| ≤ qp.scale / 2) : Reachable qp x := by
  rw [abs_error_le_iff hs] at h
  obtain ⟨hlo, hhi⟩ := le_of_abs_sub_le h (toInt_mem q).1 (toInt_mem q).2
  push_cast at hlo hhi
  exact ⟨hlo, hhi⟩

end Value

/-! ## Buffers -/

section Buffers

variable {F : Type} [Field F] [LinearOrder F] [FloorRing F] {qp : QParams F}

variable {xs : List F} {out qs : List Int8}

theorem quantize_eq (hs : 0 < qp.scale) (hlen : out.length = xs.length) :
    quantize xs out qp = .expect (xs.mapM (quantizeValue qp)) := by
  rw [quantize, if_neg (not_not.2 hlen.symm), if_neg (not_le.2 hs)]

omit [FloorRing F] in
theorem dequantize_eq (hs : 0 < qp.scale) (hz : ZeroPoint qp.zeroPoint) {back : List F}
    (hlen : back.length = qs.length) : dequantize qs back qp =
      .ok (qs.map fun q => ((q.toInt - qp.zeroPoint : ℤ) : F) * qp.scale) := by
  rw [dequantize, if_neg (not_not.2 hlen.symm), if_neg (not_le.2 hs),
    mapM_eq_map fun q _ => dequantizeValue_eq hz q]
  rfl

theorem forall₂_of_quantize (h : quantize xs out qp = .ok qs) :
    List.Forall₂ (fun x q => quantizeValue qp x = some q) xs qs := by
  unfold quantize at h
  split at h
  · cases h
  · split at h
    · cases h
    · exact (mapM_eq_some xs qs).1 (Outcome.expect_eq_ok.1 h)

theorem scale_pos_of_quantize (h : quantize xs out qp = .ok qs) : 0 < qp.scale := by
  unfold quantize at h
  split at h
  · cases h
  · split at h
    · cases h
    · next hs => exact not_le.1 hs

variable [IsStrictOrderedRing F]

/-- Dividing by the scale keeps the order, and so do rounding and clamping. -/
theorem monotoneCodes (qp : QParams F) : MonotoneCodes qp := by
  intro xs out qs h i j x y hx hy hxy
  have hs := scale_pos_of_quantize h
  have hall := forall₂_of_quantize h
  have hcode : ∀ (i : Nat) (x : F), xs[i]? = some x →
      ∃ a, qs[i]? = some a ∧ quantizeValue qp x = some a := by
    intro i x hx
    obtain ⟨hi, rfl⟩ := List.getElem?_eq_some_iff.1 hx
    have hi' : i < qs.length := hall.length_eq ▸ hi
    exact ⟨qs[i], getElem?_eq_getElem hi', (forall₂_iff_get.1 hall).2 i hi hi'⟩
  obtain ⟨a, ha, hqa⟩ := hcode i x hx
  obtain ⟨b, hb, hqb⟩ := hcode j y hy
  refine ⟨a, b, ha, hb, ?_⟩
  rw [toInt_of_quantizeValue hqa, toInt_of_quantizeValue hqb]
  apply clamp_mono
  apply nearestEven_mono
  exact add_le_add_left ((div_le_div_iff_of_pos_right hs).2 hxy) _

theorem keepsCodes (hs : 0 < qp.scale) (hz : ZeroPoint qp.zeroPoint) : KeepsCodes qp := by
  intro qs out back hback hout
  refine ⟨_, dequantize_eq hs hz hback, ?_⟩
  rw [quantize_eq hs (by rw [length_map, hout]), Outcome.expect_eq_ok, mapM_map,
    mapM_eq_map (g := id), map_id]
  intro q _
  obtain ⟨hlo, hhi⟩ := toInt_mem q
  have hticks : ((q.toInt - qp.zeroPoint : ℤ) : F) * qp.scale / qp.scale + qp.zeroPoint =
      (q.toInt : F) := by
    rw [mul_div_cancel_right₀ _ hs.ne']
    push_cast
    ring
  rw [Function.comp_apply, quantizeValue_eq, hticks, nearestEven_intCast, clamp_of_mem hlo hhi,
    Int8.ofInt_toInt]
  · rfl
  · rw [hticks, Int.floor_intCast]
    omega
  · rw [hticks, Int.floor_intCast]
    omega

theorem halfStep_iff (hs : 0 < qp.scale) (hz : ZeroPoint qp.zeroPoint) {min max : F} :
    HalfStep qp min max ↔ ∀ x, min ≤ x → x ≤ max → Reachable qp x := by
  constructor
  · intro h x hmin hmax
    -- a buffer of one value
    obtain ⟨qs, ys, hqs, hys, hnear⟩ := h [x] [0] [0] (by simpa using ⟨hmin, hmax⟩) rfl rfl
    obtain ⟨q, _, hq, hnil, rfl⟩ := forall₂_cons_left_iff.1 (forall₂_of_quantize hqs)
    cases hnil
    rw [dequantize_eq hs hz rfl] at hys
    cases hys
    exact reachable_of_near hs (forall₂_cons.1 hnear).1
  · intro h xs back out hxs hout hback
    have hvalue := fun x hx => quantizeValue_near hs (h x (hxs x hx).1 (hxs x hx).2)
    obtain ⟨qs, hqs⟩ := exists_mapM fun x hx => (hvalue x hx).imp fun _ hq => hq.1
    have hall := (mapM_eq_some xs qs).1 hqs
    refine ⟨qs, _, ?_, dequantize_eq hs hz (hback.trans hall.length_eq), ?_⟩
    · rw [quantize_eq hs hout, hqs]
      rfl
    · rw [forall₂_map_right_iff]
      refine ((forall₂_and_left xs qs).2 ⟨hxs, hall⟩).imp ?_
      rintro x q ⟨⟨hmin, hmax⟩, hq⟩
      obtain ⟨q', hq', hnear⟩ := quantizeValue_near hs (h x hmin hmax)
      cases hq.symm.trans hq'
      exact hnear

end Buffers

/-! ## Ranges -/

section Ranges

variable {F : Type} [Field F] [LinearOrder F] [IsStrictOrderedRing F] {min max : F}

theorem exists_fromMinMax (h : min < max) : 0 < Max.max |min| |max| ∧
    QParams.fromMinMax min max = some ⟨Max.max |min| |max| / 127, 0⟩ := by
  have hpos : 0 < Max.max |min| |max| := by
    rw [lt_max_iff, abs_pos, abs_pos]
    -- a range of magnitude zero is one point
    by_contra hzero
    rw [not_or, not_not, not_not] at hzero
    exact h.ne (hzero.1.trans hzero.2.symm)
  refine ⟨hpos, ?_⟩
  rw [QParams.fromMinMax, if_neg (not_le.2 h)]
  simp only [if_neg hpos.ne']

/-- The largest magnitude is 127 ticks. -/
theorem reachable_symmetric {x : F} (hpos : 0 < Max.max |min| |max|) (hmin : min ≤ x)
    (hmax : x ≤ max) : Reachable (⟨Max.max |min| |max| / 127, 0⟩ : QParams F) x := by
  have habs : |x| ≤ Max.max |min| |max| := abs_le_max_abs_abs hmin hmax
  obtain ⟨hlo, hhi⟩ := abs_le.1 habs
  have hs : 0 < Max.max |min| |max| / 127 := by positivity
  unfold Reachable
  simp only [Int.cast_zero, add_zero]
  constructor
  · rw [le_div_iff₀ hs]
    linarith
  · rw [div_le_iff₀ hs]
    linarith

/-- The scale of the asymmetric parameters. -/
def spread (min max : F) : F :=
  (max - min) / (127 - -128)

theorem spread_pos (h : min < max) : 0 < spread min max :=
  div_pos (sub_pos.2 h) (by norm_num)

variable [FloorRing F]

/-- The zero point that would put `min` at the lowest code, before the clamp. -/
theorem exists_fromMinMaxAsymmetric (h : min < max) : QParams.fromMinMaxAsymmetric min max =
    some ⟨spread min max, clamp (-128) 127 (halfAway (-128 - min / spread min max))⟩ := by
  rw [QParams.fromMinMaxAsymmetric, if_neg (not_le.2 h)]
  have hne : (max - min) / (127 - -128) ≠ 0 := (spread_pos h).ne'
  simp only [if_neg hne]
  rfl

theorem zeroPoint_clamp (r : ℤ) : ZeroPoint (clamp (-128) 127 r) :=
  clamp_mem r (by decide)

/-- The range comes within half a step of zero. -/
def NearZero (min max : F) : Prop :=
  min ≤ (max - min) / 510 ∧ -((max - min) / 510) ≤ max

/-- The clamped zero point puts the ends of the range at the ends of the codes exactly for a range
near zero. -/
theorem reachable_asymmetric_iff (h : min < max) :
    (∀ x, min ≤ x → x ≤ max → Reachable (⟨spread min max,
      clamp (-128) 127 (halfAway (-128 - min / spread min max))⟩ : QParams F) x) ↔
      NearZero min max := by
  have hs := spread_pos h
  have hspread : max = min + 255 * spread min max := by
    unfold spread
    ring
  have hstep : (max - min) / 510 = spread min max / 2 := by
    unfold spread
    ring
  have hends : ∀ x, x / spread min max * spread min max = x := fun x => div_mul_cancel₀ x hs.ne'
  unfold NearZero
  rw [hstep]
  set s := spread min max with hsdef
  set a := min / s with ha
  have hmin : min = a * s := (hends min).symm
  have hmaxTicks : max / s = a + 255 := by
    rw [hspread, add_div, mul_div_cancel_right₀ _ hs.ne']
  constructor
  · intro hall
    obtain ⟨hlo, _⟩ := hall min le_rfl h.le
    obtain ⟨_, hhi⟩ := hall max h.le le_rfl
    obtain ⟨hz₁, hz₂⟩ := @clamp_mem (-128) 127 (halfAway (-128 - a)) (by decide)
    simp only [hmaxTicks] at hhi
    simp only [← ha] at hlo
    have hz₁' : (-128 : F) ≤ (clamp (-128) 127 (halfAway (-128 - a)) : ℤ) := by exact_mod_cast hz₁
    have hz₂' : ((clamp (-128) 127 (halfAway (-128 - a)) : ℤ) : F) ≤ 127 := by exact_mod_cast hz₂
    -- the ends reach the codes although the zero point stays within them
    have hhalf : a ≤ 1 / 2 := by linarith
    have hfar : -(255 + 1 / 2) ≤ a := by linarith
    constructor
    · rw [hmin]
      nlinarith
    · rw [hspread, hmin]
      nlinarith
  · rintro ⟨hnear₁, hnear₂⟩ x hx₁ hx₂
    have hhalf : a ≤ 1 / 2 := by
      rw [ha, div_le_iff₀ hs]
      linarith
    have hfar : -(255 + 1 / 2) ≤ a := by
      rw [ha, le_div_iff₀ hs]
      linarith
    -- near zero the clamp moves the zero point by at most half a tick
    have hz : |((clamp (-128) 127 (halfAway (-128 - a)) : ℤ) : F) - (-128 - a)| ≤ 1 / 2 :=
      abs_clamp_sub_le (abs_halfAway_sub_le (-128 - a)) (by push_cast; linarith)
        (by push_cast; linarith)
    obtain ⟨hz₁, hz₂⟩ := abs_le.1 hz
    have hlo : a ≤ x / s := (div_le_div_iff_of_pos_right hs).2 hx₁
    have hhi : x / s ≤ a + 255 := hmaxTicks ▸ (div_le_div_iff_of_pos_right hs).2 hx₂
    unfold Reachable
    exact ⟨by linarith, by linarith⟩

/-- Quantising and dequantising meets what is expected of the parameters exactly for a range that
comes within half a step of zero. -/
theorem calibrates_iff (h : min < max) : Calibrates min max ↔ NearZero min max := by
  rw [← reachable_asymmetric_iff h]
  have hz := zeroPoint_clamp (halfAway (-128 - min / spread min max))
  constructor
  · intro hcal
    obtain ⟨qp, hqp, hstep, _⟩ := hcal.asymmetric
    cases (exists_fromMinMaxAsymmetric h).symm.trans hqp
    exact (halfStep_iff (spread_pos h) hz).1 hstep
  · intro hreach
    obtain ⟨hpos, hsymmetric⟩ := exists_fromMinMax h
    exact
      { symmetric := ⟨_, hsymmetric,
          (halfStep_iff (div_pos hpos (by norm_num)) (by decide : ZeroPoint 0)).2
            fun x hmin hmax => reachable_symmetric hpos hmin hmax,
          monotoneCodes _⟩
        asymmetric := ⟨_, exists_fromMinMaxAsymmetric h,
          (halfStep_iff (spread_pos h) hz).2 hreach, monotoneCodes _⟩
        codes := fun qp hs hz => keepsCodes hs hz }

/-- Activations between zero and one. -/
theorem calibrates_iff_relu : (0 : ℚ) < 1 ∧ Calibrates (0 : ℚ) 1 := by
  refine ⟨by norm_num, (calibrates_iff (by norm_num)).2 ?_⟩
  unfold NearZero
  norm_num

/-- Between one and two every value becomes code 127. -/
theorem not_calibrates_one_two : (1 : ℚ) < 2 ∧ ¬ Calibrates (1 : ℚ) 2 := by
  have hlt : (1 : ℚ) < 2 := by norm_num
  refine ⟨hlt, ?_⟩
  intro hcal
  obtain ⟨qp, hqp, hstep, _⟩ := hcal.asymmetric
  cases (exists_fromMinMaxAsymmetric hlt).symm.trans hqp
  have hnear := (reachable_asymmetric_iff hlt).1
    ((halfStep_iff (spread_pos hlt) (zeroPoint_clamp _)).1 hstep)
  unfold NearZero at hnear
  norm_num at hnear

end Ranges

end Quant
end Rustorch
