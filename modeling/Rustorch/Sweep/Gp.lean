import Mathlib.Analysis.Complex.Exponential
import Mathlib.Analysis.Real.Sqrt
import Rustorch.Sweep.Cholesky

/-!
# Gaussian-process regression

`Gp` of `bayes.rs`, over an exact field.  `fit` factors the covariance matrix of the points, with
more and more jitter on the diagonal, and `posterior` combines what it stored.

- `gp_closed_form` : after a fit without jitter, `posterior` is the closed form
- `refitSafe_iff`  : when a failed `fit` leaves `posterior` as it was
-/

namespace Rustorch
namespace Sweep

open List Finset Option

-- The numerals of the noise and of the retry loop.
local instance two_atLeastTwo : Nat.AtLeastTwo 2 := ⟨le_rfl⟩
local instance ten_atLeastTwo : Nat.AtLeastTwo 10 := ⟨by decide⟩
local instance thousand_atLeastTwo : Nat.AtLeastTwo 1000 := ⟨by decide⟩
local instance million_atLeastTwo : Nat.AtLeastTwo 1000000 := ⟨by decide⟩

/-! ## Kernels -/

/-- A symmetric covariance, and the output scale. -/
structure Kernel (X F : Type) where
  cov : X → X → F
  sigmaF : F
  symm : ∀ x y, cov x y = cov y x

structure MaternKernel52 (F : Type) where
  lengthScale : F
  sigmaF : F

namespace MaternKernel52

variable {F : Type} [Field F]

/-- Points of one dimension. -/
def cov (sqrt exp : F → F) (k : MaternKernel52 F) (a b : List F) : F :=
  let d2 := (a.zip b).foldl (fun d2 p => let dx := p.1 - p.2; d2 + dx * dx) 0
  let d := sqrt d2
  let r := sqrt 5 * d / k.lengthScale
  let prefactor := 1 + r + r * r / 3
  k.sigmaF * k.sigmaF * prefactor * exp (-r)

theorem cov_comm (sqrt exp : F → F) (k : MaternKernel52 F) (a b : List F) :
    k.cov sqrt exp a b = k.cov sqrt exp b a := by
  have hdist : ∀ (a b : List F) (acc : F),
      (a.zip b).foldl (fun d2 p => d2 + (p.1 - p.2) * (p.1 - p.2)) acc =
        (b.zip a).foldl (fun d2 p => d2 + (p.1 - p.2) * (p.1 - p.2)) acc := by
    intro a
    induction a with
    | nil => simp
    | cons x a ih =>
      intro b acc
      cases b with
      | nil => rfl
      | cons y b =>
        have hsq : (x - y) * (x - y) = (y - x) * (y - x) := by ring
        rw [zip_cons_cons, zip_cons_cons, foldl_cons, foldl_cons, ih, hsq]
  unfold cov
  simp only [hdist a b]

def kernel (sqrt exp : F → F) (k : MaternKernel52 F) : Kernel (List F) F where
  cov := k.cov sqrt exp
  sigmaF := k.sigmaF
  symm := k.cov_comm sqrt exp

end MaternKernel52

/-! ## The model and its fit -/

/-- The factor and the weights belong to the points. -/
structure Gp (X F : Type) where
  kernel : Kernel X F
  noise : F
  xs : List X
  ys : List F
  chol : Square F
  alpha : Nat → F
  priorMean : F

inductive GpError
  | shapeMismatch
  | choleskyFailed
  deriving DecidableEq, Repr

/-- The retry loop ends after this many rounds. -/
def factorRounds : Nat := 6

section Code

variable {X F : Type} [Field F] [LinearOrder F]

/-- `row[i] += jitter` -/
def addJitter (k : Square F) (jitter : F) : Square F :=
  { k with entry := fun i j => k.entry i j + if i = j then jitter else 0 }

/-- The retry loop; `none` is a loop that has not ended. -/
def factor (sqrt : F → F) (kMat : Square F) : Nat → F → Option (Option (Square F))
  | 0, _ => none
  | fuel + 1, jitter =>
    match cholesky sqrt (addJitter kMat jitter) with
    | some l => some (some l)
    | none =>
      let jitter := if jitter = 0 then 1 / 1000000 else jitter * 10
      if jitter > 1 / 100 then some none else factor sqrt kMat fuel jitter

namespace Gp

def new (kernel : Kernel X F) : Gp X F where
  kernel := kernel
  noise := 1 / 1000000
  xs := []
  ys := []
  chol := Square.zeros 0
  alpha := 0
  priorMean := 0

/-- `K + σ²I` -/
def kernelMatrix (g : Gp X F) (xs : List X) : Square F where
  len := xs.length
  entry := fun i j =>
    (Option.map₂ g.kernel.cov xs[i]? xs[j]?).getD 0 + if i = j then g.noise else 0

def mean (ys : List F) : F :=
  ys.sum / ys.length

def centered (ys : List F) (i : Nat) : F :=
  (ys[i]?.map fun y => y - mean ys).getD 0

def fit (sqrt : F → F) (fuel : Nat) (g : Gp X F) (xs : List X) (ys : List F) :
    Option (Except GpError Unit × Gp X F) :=
  if xs.length ≠ ys.length then
    some (.error .shapeMismatch, g)
  else if xs.length = 0 then
    some (.ok (), { g with xs := [], ys := [], chol := Square.zeros 0, alpha := 0 })
  else
    -- the mean is stored before the factorisation may fail
    let g := { g with priorMean := mean ys }
    match factor sqrt (g.kernelMatrix xs) fuel 0 with
    | none => none
    | some none => some (.error .choleskyFailed, g)
    | some (some chol) =>
      some (.ok (), { g with xs, ys, chol, alpha := cholSolve chol (centered ys) })

def kStar (g : Gp X F) (x : X) (i : Nat) : F :=
  (g.xs[i]?.map fun y => g.kernel.cov y x).getD 0

def posterior (g : Gp X F) (x : X) : F × F :=
  if g.xs.isEmpty then
    (g.priorMean, g.kernel.sigmaF * g.kernel.sigmaF)
  else
    let n := g.xs.length
    let mean := g.priorMean + ∑ i ∈ Finset.range n, g.kStar x i * g.alpha i
    let v := cholSolveLower g.chol (g.kStar x)
    let kXx := g.kernel.cov x x
    -- the variance is clamped, as the difference may round below zero
    let var := max (kXx - ∑ i ∈ Finset.range g.chol.len, v i * v i) 0
    (mean, var)

end Gp

end Code

/-! ## The retry loop -/

section Retry

variable {X F : Type} [Field F] [LinearOrder F] [IsStrictOrderedRing F] {sqrt : F → F}
  {kMat : Square F}

/-- The amounts of jitter that are tried. -/
def levels : List F :=
  [0, 1 / 1000000, 1 / 100000, 1 / 10000, 1 / 1000, 1 / 100]

variable {fuel : Nat}

omit [IsStrictOrderedRing F] in
theorem factor_retry {jitter : F} (next : F)
    (hnext : (if jitter = 0 then 1 / 1000000 else jitter * 10) = next) (hle : next ≤ 1 / 100) :
    factor sqrt kMat (fuel + 1) jitter =
      (cholesky sqrt (addJitter kMat jitter)).elim (factor sqrt kMat fuel next)
        fun l => some (some l) := by
  rw [factor]
  cases cholesky sqrt (addJitter kMat jitter) with
  | some l => rfl
  | none => simp only [hnext, if_neg (not_lt.2 hle), elim_none]

theorem factor_last : factor sqrt kMat (fuel + 1) (1 / 100) =
    (cholesky sqrt (addJitter kMat (1 / 100))).elim (some none) fun l => some (some l) := by
  have hne : (1 / 100 : F) ≠ 0 := by norm_num
  have hgt : (1 / 100 * 10 : F) > 1 / 100 := by norm_num
  rw [factor]
  cases cholesky sqrt (addJitter kMat (1 / 100)) with
  | some l => rfl
  | none => simp only [if_neg hne, if_pos hgt, elim_none]

theorem factor_eq (hfuel : factorRounds ≤ fuel) : factor sqrt kMat fuel 0 =
    some (levels.findSome? fun jitter => cholesky sqrt (addJitter kMat jitter)) := by
  have hcons : ∀ (c : F → Option (Square F)) (jitter : F) (rest : List F),
      some ((jitter :: rest).findSome? c) =
        (c jitter).elim (some (rest.findSome? c)) fun l => some (some l) := by
    intro c jitter rest
    rw [findSome?_cons]
    cases c jitter with
    | none => rfl
    | some l => rfl
  obtain ⟨fuel, rfl⟩ := Nat.exists_eq_add_of_le' hfuel
  -- six rounds: no jitter, then from `1e-6` to `1e-2` in powers of ten
  change factor sqrt kMat (fuel + 1 + 1 + 1 + 1 + 1 + 1) 0 = _
  rw [factor_retry (1 / 1000000) (by norm_num) (by norm_num),
    factor_retry (1 / 100000) (by norm_num) (by norm_num),
    factor_retry (1 / 10000) (by norm_num) (by norm_num),
    factor_retry (1 / 1000) (by norm_num) (by norm_num),
    factor_retry (1 / 100) (by norm_num) (by norm_num), factor_last]
  unfold levels
  rw [hcons, hcons, hcons, hcons, hcons, hcons]
  rfl

theorem Gp.fit_eq (hfuel : factorRounds ≤ fuel) (g : Gp X F) {xs : List X} {ys : List F}
    (hlen : xs.length = ys.length) (hne : xs ≠ []) : g.fit sqrt fuel xs ys =
      match levels.findSome? fun jitter => cholesky sqrt (addJitter (g.kernelMatrix xs) jitter) with
      | none => some (.error .choleskyFailed, { g with priorMean := mean ys })
      | some chol => some (.ok (), { g with
          priorMean := mean ys, xs, ys, chol, alpha := cholSolve chol (centered ys) }) := by
  have hzero : ¬ xs.length = 0 := fun h => hne (length_eq_zero_iff.1 h)
  rw [fit, if_neg (not_not.2 hlen), if_neg hzero]
  have hloop := @factor_eq F _ _ _ sqrt (g.kernelMatrix xs) fuel hfuel
  change (match factor sqrt (g.kernelMatrix xs) fuel 0 with
    | none => none
    | some none => some (Except.error GpError.choleskyFailed, { g with priorMean := mean ys })
    | some (some chol) => some (Except.ok (), { g with
        priorMean := mean ys, xs, ys, chol, alpha := cholSolve chol (centered ys) })) = _
  rw [hloop]
  cases levels.findSome? fun jitter => cholesky sqrt (addJitter (g.kernelMatrix xs) jitter) with
  | none => rfl
  | some chol => rfl

end Retry

/-! ## A failed fit -/

section Refit

variable {X F : Type} [Field F] [LinearOrder F] {sqrt : F → F}
  {g : Gp X F} {xs : List X} {ys : List F}

/-- The fit ends, and an error leaves every later prediction as it was. -/
def RefitSafe (sqrt : F → F) (g : Gp X F) (xs : List X) (ys : List F) : Prop :=
  ∃ r g', (∀ fuel, factorRounds ≤ fuel → g.fit sqrt fuel xs ys = some (r, g')) ∧
    (r ≠ .ok () → ∀ x, g'.posterior x = g.posterior x)

theorem Gp.posterior_priorMean_iff {m : F} {x : X} :
    ({ g with priorMean := m } : Gp X F).posterior x = g.posterior x ↔ m = g.priorMean := by
  unfold posterior
  -- with and without data, the mean enters as a summand and the variance not at all
  by_cases hxs : g.xs.isEmpty
  · rw [if_pos hxs, if_pos hxs, Prod.mk.injEq]
    exact and_iff_left rfl
  · rw [if_neg hxs, if_neg hxs, Prod.mk.injEq]
    constructor
    · rintro ⟨hmean, _⟩
      exact add_right_cancel hmean
    · rintro rfl
      exact ⟨rfl, rfl⟩

variable [IsStrictOrderedRing F]

/-- Where no level of jitter has a factor, only an unchanged mean leaves the predictions as they
were. -/
theorem refitSafe_iff_of_failed (hlen : xs.length = ys.length) (hne : xs ≠ [])
    (hlevels : ∀ jitter ∈ levels, cholesky sqrt (addJitter (g.kernelMatrix xs) jitter) = none) :
    RefitSafe sqrt g xs ys ↔ Gp.mean ys = g.priorMean := by
  have hnone := findSome?_eq_none_iff.2 hlevels
  have hfit := fun fuel hfuel => @Gp.fit_eq X F _ _ _ sqrt fuel hfuel g xs ys hlen hne
  rw [hnone] at hfit
  constructor
  · rintro ⟨r, g', hrun, hsafe⟩
    -- any point tells the two means apart; the data has one
    cases (hrun factorRounds le_rfl).symm.trans (hfit factorRounds le_rfl)
    obtain ⟨x, hx⟩ := exists_mem_of_ne_nil xs hne
    exact Gp.posterior_priorMean_iff.1 (hsafe (by simp) x)
  · intro hmean
    exact ⟨.error .choleskyFailed, _, hfit, fun _ x => Gp.posterior_priorMean_iff.2 hmean⟩

/-- A failed fit has stored the mean of the new values.  It leaves the predictions as they were
exactly if the lengths differ, some level of jitter has a factor, or the means agree. -/
theorem refitSafe_iff (sqrt : F → F) (g : Gp X F) (xs : List X) (ys : List F) :
    RefitSafe sqrt g xs ys ↔
      xs.length ≠ ys.length ∨ xs = [] ∨
        (∃ jitter ∈ levels, (cholesky sqrt (addJitter (g.kernelMatrix xs) jitter)).isSome) ∨
          Gp.mean ys = g.priorMean := by
  by_cases hlen : xs.length = ys.length
  · rw [or_iff_right (not_not.2 hlen)]
    by_cases hne : xs = []
    · refine iff_of_true ⟨.ok (), { g with xs := [], ys := [], chol := Square.zeros 0, alpha := 0 },
        ?_, fun h => absurd rfl h⟩ (.inl hne)
      intro fuel _
      rw [Gp.fit, if_neg (not_not.2 hlen), if_pos (by rw [hne]; rfl)]
    · rw [or_iff_right hne]
      by_cases hsome : ∃ jitter ∈ levels,
          (cholesky sqrt (addJitter (g.kernelMatrix xs) jitter)).isSome
      · refine iff_of_true ?_ (.inl hsome)
        obtain ⟨chol, hchol⟩ := isSome_iff_exists.1 (findSome?_isSome_iff.2 hsome)
        have hfit := fun fuel hfuel => @Gp.fit_eq X F _ _ _ sqrt fuel hfuel g xs ys hlen hne
        rw [hchol] at hfit
        exact ⟨.ok (), _, hfit, fun h => absurd rfl h⟩
      · rw [or_iff_right hsome]
        refine refitSafe_iff_of_failed hlen hne ?_
        intro jitter hjitter
        exact not_isSome_iff_eq_none.1 fun h => hsome ⟨jitter, hjitter, h⟩
  · refine iff_of_true ⟨.error .shapeMismatch, g, ?_, fun _ _ => rfl⟩ (.inl hlen)
    intro fuel _
    rw [Gp.fit, if_pos hlen]

end Refit

/-! ## Covariance matrices -/

section Covariance

variable {X F : Type} [Field F] {g : Gp X F} {xs : List X}

theorem Gp.kernelMatrix_symmetric : (g.kernelMatrix xs).Symmetric := by
  intro i hi j hj
  have hdiag : (if i = j then g.noise else 0) = if j = i then g.noise else 0 := by
    simp only [eq_comm]
  simp only [kernelMatrix, getElem?_eq_getElem hi, getElem?_eq_getElem hj,
    map₂_coe_coe, getD_some, g.kernel.symm xs[i] xs[j], hdiag]

theorem addJitter_symmetric {k : Square F} {jitter : F} (h : k.Symmetric) :
    (addJitter k jitter).Symmetric := by
  intro i hi j hj
  have hdiag : (if i = j then jitter else 0) = if j = i then jitter else 0 := by
    simp only [eq_comm]
  simp only [addJitter, h i hi j hj, hdiag]

theorem addJitter_zero (k : Square F) : addJitter k 0 = k := by
  simp [addJitter]

end Covariance

section Reals

theorem squareRoots_real : SquareRoots Real.sqrt :=
  fun s hs => ⟨Real.sqrt_nonneg s, Real.mul_self_sqrt hs⟩

/-- The covariance grows with the distance, as a Matérn kernel does at a negative length scale. -/
def growingKernel : Kernel Bool ℝ where
  cov := fun x y => if x = y then 1 else 2
  sigmaF := 1
  symm := fun x y => by simp only [eq_comm]

theorem growing_form (jitter : ℝ) :
    Triangular.form 2 (addJitter ((Gp.new growingKernel).kernelMatrix [false, true]) jitter).entry
      (fun i => if i = 0 then 1 else -1) = 2 * (1 + 1 / 1000000 + jitter) - 4 := by
  simp only [Triangular.form, Finset.sum_range_succ, Finset.sum_range_zero, addJitter,
    Gp.kernelMatrix, Gp.new, growingKernel]
  norm_num
  ring

theorem growing_fails (jitter : ℝ) (hle : jitter ≤ 1 / 100) :
    cholesky Real.sqrt (addJitter ((Gp.new growingKernel).kernelMatrix [false, true]) jitter) =
      none := by
  rw [← not_isSome_iff_eq_none, isSome_iff_exists,
    cholesky_isSome_iff squareRoots_real (addJitter_symmetric Gp.kernelMatrix_symmetric),
    positiveDefinite_iff]
  -- the difference of the two points has a negative variance
  intro hpos
  have hform := hpos (fun i => if i = 0 then 1 else -1)
    ⟨0, Nat.zero_lt_two, by rw [if_pos rfl]; exact one_ne_zero⟩
  have heq := growing_form jitter
  change 0 < Triangular.form 2 _ _ at hform
  linarith

/-- Values of the mean that is stored already. -/
theorem refitSafe_iff_growing :
    RefitSafe Real.sqrt (Gp.new growingKernel) [false, true] [1, -1] := by
  refine (refitSafe_iff Real.sqrt (Gp.new growingKernel) [false, true] [1, -1]).2 ?_
  simp [Gp.mean, Gp.new]

theorem not_refitSafe_growing : ¬ RefitSafe Real.sqrt (Gp.new growingKernel) [false, true] [1, 1] := by
  have hlen : [false, true].length = ([1, 1] : List ℝ).length := rfl
  rw [refitSafe_iff_of_failed hlen (by simp)]
  · simp [Gp.mean, Gp.new]
  · intro jitter hjitter
    refine growing_fails jitter ?_
    unfold levels at hjitter
    simp only [List.mem_cons, List.not_mem_nil, or_false] at hjitter
    rcases hjitter with rfl | rfl | rfl | rfl | rfl | rfl <;> norm_num

end Reals

/-! ## The closed form -/

section ClosedForm

variable {X F : Type} [Field F] [LinearOrder F] [IsStrictOrderedRing F] {sqrt : F → F}

namespace Gp

/-- `K + σ²I` -/
def noisyCovariance (g : Gp X F) (xs : List X) : Matrix (Fin xs.length) (Fin xs.length) F :=
  Matrix.of (fun i j => g.kernel.cov xs[i] xs[j]) + g.noise • (1 : Matrix _ _ F)

/-- The covariances of a point with the data. -/
def covariances (g : Gp X F) (xs : List X) (x : X) : Fin xs.length → F :=
  fun i => g.kernel.cov xs[i] x

/-- `mean(ys) + kᵀ (K + σ²I)⁻¹ (ys - mean(ys))` -/
noncomputable def closedMean (g : Gp X F) (xs : List X) (ys : List F) (x : X) : F :=
  mean ys + dotProduct (g.covariances xs x)
    ((g.noisyCovariance xs)⁻¹.mulVec fun i => ys.getD i 0 - mean ys)

/-- `max(0, k(x, x) - kᵀ (K + σ²I)⁻¹ k)` -/
noncomputable def closedVar (g : Gp X F) (xs : List X) (x : X) : F :=
  max 0 (g.kernel.cov x x -
    dotProduct (g.covariances xs x) ((g.noisyCovariance xs)⁻¹.mulVec (g.covariances xs x)))

variable {g : Gp X F} {xs : List X} {ys : List F}

omit [LinearOrder F] [IsStrictOrderedRing F] in
theorem kernelMatrix_toMatrix :
    (g.kernelMatrix xs).toMatrix xs.length = g.noisyCovariance xs := by
  funext i j
  have hentry : (map₂ g.kernel.cov xs[(i : Nat)]? xs[(j : Nat)]?).getD 0 =
      g.kernel.cov xs[i] xs[j] := by
    simp
  have hdiag : (if (i : Nat) = j then g.noise else 0) = (g.noise • (1 : Matrix _ _ F)) i j := by
    by_cases hij : i = j
    · simp [hij]
    · simp [hij, Fin.val_ne_of_ne hij]
  change (map₂ g.kernel.cov xs[(i : Nat)]? xs[(j : Nat)]?).getD 0 +
    (if (i : Nat) = j then g.noise else 0) = _
  rw [hentry, hdiag]
  rfl

omit [LinearOrder F] [IsStrictOrderedRing F] in
theorem column_kStar (x : X) (h : g.xs = xs) :
    column xs.length (g.kStar x) = g.covariances xs x := by
  subst h
  funext i
  simp [column, kStar, covariances]

omit [LinearOrder F] [IsStrictOrderedRing F] in
theorem column_centered (hlen : xs.length = ys.length) :
    column xs.length (centered ys) = fun i : Fin xs.length => ys.getD i 0 - mean ys := by
  funext i
  have hi : (i : Nat) < ys.length := i.isLt.trans_eq hlen
  simp [column, centered, hi]

theorem posterior_of_factors {chol : Square F} (hchol : Factors chol (g.kernelMatrix xs))
    (hlen : xs.length = ys.length) (hne : xs ≠ []) (x : X) :
    ({ g with priorMean := mean ys, xs, ys, chol, alpha := cholSolve chol (centered ys) } :
      Gp X F).posterior x = (g.closedMean xs ys x, g.closedVar xs x) := by
  set fitted : Gp X F :=
    { g with priorMean := mean ys, xs, ys, chol, alpha := cholSolve chol (centered ys) } with hfitted
  have hkStar : column xs.length (fitted.kStar x) = g.covariances xs x := column_kStar x rfl
  have hnonempty : ¬ xs.isEmpty := by simpa using hne
  have hmean : ∑ i ∈ range xs.length, fitted.kStar x i * fitted.alpha i =
      dotProduct (g.covariances xs x)
        ((g.noisyCovariance xs)⁻¹.mulVec fun i => ys.getD i 0 - mean ys) := by
    -- the stored weights are the solution for the centred values
    have hweights := inv_mulVec hchol (centered ys)
    change ((g.kernelMatrix xs).toMatrix xs.length)⁻¹.mulVec (column xs.length (centered ys)) =
      column xs.length (cholSolve chol (centered ys)) at hweights
    rw [kernelMatrix_toMatrix, column_centered hlen] at hweights
    rw [hweights, ← hkStar, sum_range]
    rfl
  have hvar : ∑ i ∈ range chol.len, cholSolveLower chol (fitted.kStar x) i *
      cholSolveLower chol (fitted.kStar x) i = dotProduct (g.covariances xs x)
        ((g.noisyCovariance xs)⁻¹.mulVec (g.covariances xs x)) := by
    -- one forward solve is half of the inverse, and its squares are the whole form
    have hsquares := sum_sq_lower hchol (fitted.kStar x)
    change ∑ i : Fin xs.length, _ = dotProduct (column xs.length (fitted.kStar x))
      (((g.kernelMatrix xs).toMatrix xs.length)⁻¹.mulVec
        (column xs.length (fitted.kStar x))) at hsquares
    rw [kernelMatrix_toMatrix, hkStar] at hsquares
    rw [hchol.len, ← hsquares]
    exact sum_range _
  have hposterior : fitted.posterior x =
      (mean ys + ∑ i ∈ range xs.length, fitted.kStar x i * fitted.alpha i,
        max (g.kernel.cov x x - ∑ i ∈ range chol.len, cholSolveLower chol (fitted.kStar x) i *
          cholSolveLower chol (fitted.kStar x) i) 0) :=
    if_neg hnonempty
  rw [hposterior, hmean, hvar, max_comm]
  rfl

end Gp

/-- The factorisation succeeds exactly on positive definite matrices and gives a triangular factor,
the solves then give the one solution, and a fit that needed no jitter predicts by the closed
form. -/
theorem gp_closed_form (hsqrt : SquareRoots sqrt) :
    (∀ a : Square F, a.Symmetric →
      ((∃ l, cholesky sqrt a = some l) ↔ a.PositiveDefinite) ∧
      ∀ l, cholesky sqrt a = some l → Factors l a ∧
        ∀ (b : Nat → F) (x : Fin a.len → F),
          (a.toMatrix a.len).mulVec x = column a.len b ↔ x = column a.len (cholSolve l b)) ∧
    ∀ (g : Gp X F) (xs : List X) (ys : List F), xs.length = ys.length → xs ≠ [] →
      (cholesky sqrt (g.kernelMatrix xs)).isSome →
        ∀ fuel, factorRounds ≤ fuel → ∃ g', g.fit sqrt fuel xs ys = some (.ok (), g') ∧
          ∀ x, g'.posterior x = (g.closedMean xs ys x, g.closedVar xs x) := by
  constructor
  · intro a hsymm
    refine ⟨cholesky_isSome_iff hsqrt hsymm, ?_⟩
    intro l hl
    have hfactors := factors_of_cholesky hsqrt hsymm hl
    exact ⟨hfactors, fun b x => mulVec_eq_iff hfactors b x⟩
  · intro g xs ys hlen hne hsome fuel hfuel
    obtain ⟨chol, hchol⟩ := isSome_iff_exists.1 hsome
    -- the first level is no jitter, so its factor is the one that is stored
    have hlevels : levels.findSome? (fun jitter =>
        cholesky sqrt (addJitter (g.kernelMatrix xs) jitter)) = some chol := by
      unfold levels
      rw [findSome?_cons, addJitter_zero, hchol]
    have hfit := @Gp.fit_eq X F _ _ _ sqrt fuel hfuel g xs ys hlen hne
    rw [hlevels] at hfit
    exact ⟨_, hfit, fun x => Gp.posterior_of_factors
      (factors_of_cholesky hsqrt Gp.kernelMatrix_symmetric hchol) hlen hne x⟩

/-- The default kernel. -/
noncomputable def maternKernel : Kernel (List ℝ) ℝ :=
  MaternKernel52.kernel Real.sqrt Real.exp ⟨1, 1⟩

/-- Neither negative nor above the variance. -/
theorem matern_unit : maternKernel.cov [0] [1] ∈ Set.Icc 0 1 := by
  have hcov : maternKernel.cov [0] [1] =
      (1 + Real.sqrt 5 + Real.sqrt 5 * Real.sqrt 5 / 3) * Real.exp (-Real.sqrt 5) := by
    simp [maternKernel, MaternKernel52.kernel, MaternKernel52.cov]
  have hr := Real.sqrt_nonneg 5
  have hexp := Real.quadratic_le_exp_of_nonneg hr
  rw [hcov]
  refine ⟨by positivity, ?_⟩
  rw [Real.exp_neg, ← div_eq_mul_inv, div_le_one (Real.exp_pos _)]
  nlinarith

theorem matern_factors :
    (cholesky Real.sqrt ((Gp.new maternKernel).kernelMatrix [[0], [1]])).isSome := by
  rw [isSome_iff_exists,
    cholesky_isSome_iff squareRoots_real Gp.kernelMatrix_symmetric, positiveDefinite_iff]
  rintro x ⟨i, hi, hx⟩
  change 0 < Triangular.form 2 _ x
  obtain ⟨hc, hc1⟩ := matern_unit
  have hself : ∀ a : ℝ, maternKernel.cov [a] [a] = 1 := by
    intro a
    simp [maternKernel, MaternKernel52.kernel, MaternKernel52.cov]
  have hform : Triangular.form 2 ((Gp.new maternKernel).kernelMatrix [[0], [1]]).entry x =
      maternKernel.cov [0] [1] * (x 0 + x 1) ^ 2 +
        (1 - maternKernel.cov [0] [1] + 1 / 1000000) * (x 0 ^ 2 + x 1 ^ 2) := by
    simp [Triangular.form, Finset.sum_range_succ, Gp.kernelMatrix, Gp.new, hself,
      maternKernel.symm [1] [0]]
    ring
  have hsum : 0 < x 0 ^ 2 + x 1 ^ 2 := by
    have hi2 : i < 2 := hi
    rcases (by omega : i = 0 ∨ i = 1) with rfl | rfl
    · positivity
    · positivity
  rw [hform]
  have hpos := sub_nonneg.2 hc1
  positivity

theorem gp_closed_form_pair :
    (∃ l, cholesky Real.sqrt ((Gp.new maternKernel).kernelMatrix [[0], [1]]) = some l ∧
      ∀ (b : Nat → ℝ) (x : Fin 2 → ℝ),
        (((Gp.new maternKernel).kernelMatrix [[0], [1]]).toMatrix 2).mulVec x = column 2 b ↔
          x = column 2 (cholSolve l b)) ∧
    ∃ g', (Gp.new maternKernel).fit Real.sqrt 6 [[0], [1]] [3, 5] = some (.ok (), g') ∧
      ∀ x, g'.posterior x = ((Gp.new maternKernel).closedMean [[0], [1]] [3, 5] x,
        (Gp.new maternKernel).closedVar [[0], [1]] x) := by
  have hall := @gp_closed_form (List ℝ) ℝ _ _ _ _ squareRoots_real
  obtain ⟨l, hl⟩ := isSome_iff_exists.1 matern_factors
  exact ⟨⟨l, hl, ((hall.1 _ Gp.kernelMatrix_symmetric).2 l hl).2⟩,
    hall.2 (Gp.new maternKernel) [[0], [1]] [3, 5] rfl (by simp) matern_factors 6 le_rfl⟩

end ClosedForm

end Sweep
end Rustorch
