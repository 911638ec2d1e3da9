import Rustorch.Fusion.MatmulBiasAct
import Rustorch.Lib.Filling

/-!
# The paths of the fused kernel

`fused_matmul_bias_activation` and its reference as they write the buffer `y`, over a commutative
ring.  Small products run one loop that starts from the bias; large ones go to `gemm` and an
epilogue with five branches.  Both write what the naive three passes write
(`fused_path_independent`).
-/

namespace Rustorch
namespace Fusion

open List GridLoop Rows Machine

/-- The transcendental activations. -/
structure Activations (R : Type) where
  gelu : R → R
  silu : R → R

section Code

variable {R : Type} [CommRing R] [Max R]

def Activation.on (acts : Activations R) : Activation → R → R
  | .none, x => x
  | .relu, x => max x 0
  | .gelu, x => acts.gelu x
  | .silu, x => acts.silu x

/-- A routine that writes the product of its operands over the buffer that it is given. -/
abbrev GemmInto (R : Type) : Type :=
  Nat → Nat → Nat → List R → List R → List R → List R

/-- `acc += x[row * k + kk] * w[kk * n + col]` -/
def accumulate (x w : List R) (k n row col : Nat) (acc : R) : Option R :=
  Accumulate.sumLoop k
    (fun kk => Option.map₂ (· * ·) x[row * k + kk]? w[kk * n + col]?) acc

/-- `b.map(|bb| bb[col]).unwrap_or(0.0)` -/
def startAt (b : Option (List R)) (col : Nat) : Option R :=
  match b with
  | some bb => bb[col]?
  | none => some 0

def singlePass (acts : Activations R) (x w : List R) (b : Option (List R)) (y : List R)
    (m k n : Nat) (activation : Activation) : Option (List R) :=
  cells m n
    (fun _ row col => do
      let start ← startAt b col
      let acc ← accumulate x w k n row col start
      return activation.on acts acc)
    y

/-- `apply_bias_activation_epilogue` -/
def epilogue (acts : Activations R) (y : List R) (b : Option (List R)) (m n : Nat)
    (activation : Activation) : Option (List R) :=
  match b, activation with
  | none, .none => some y
  -- without a bias, GELU and SiLU go through the branch of ReLU
  | none, act => rows m n (fun row => row.map (act.on acts)) y
  | some bias, .none => rows m n (fun row => zipWith (· + ·) row bias) y
  | some bias, .relu =>
    rows m n
      (fun row => zipWith (fun cell bb => let v := cell + bb; max v 0) row bias) y
  | some bias, act =>
    rows m n (fun row => zipWith (fun cell bb => act.on acts (cell + bb)) row bias) y

/-- `matmul_dispatch` and the epilogue. -/
def dispatchPath (gemm : GemmInto R) (acts : Activations R) (x w : List R) (b : Option (List R))
    (y : List R) (m k n : Nat) (activation : Activation) : Option (List R) :=
  epilogue acts (gemm m k n x w y) b m n activation

/-- The checks of the four buffers. -/
def checkBuffers (mach : Machine) (x w : List R) (b : Option (List R)) (y : List R)
    (m k n : Nat) : Outcome FusionError Unit := do
  let mk ← mach.mul m k
  if x.length ≠ mk then
    .err (.shapeMismatch "x" mk x.length)
  else
    let kn ← mach.mul k n
    if w.length ≠ kn then
      .err (.shapeMismatch "w" kn w.length)
    else
      let mn ← mach.mul m n
      if y.length ≠ mn then
        .err (.shapeMismatch "y" mn y.length)
      else
        match b with
        | some bias =>
          if bias.length ≠ n then .err (.shapeMismatch "b" n bias.length) else .ok ()
        | none => .ok ()

/-- A path that ran to its end, or panicked at an index. -/
def written (y : List R) : Option (List R) → Outcome FusionError Unit × List R
  | some out => (.ok (), out)
  | none => (.panic, y)

/-- The answer, and the new contents of `y`. -/
def fusedMatmulBiasActivationInto (mach : Machine) (gemm : GemmInto R) (acts : Activations R)
    (x w : List R) (b : Option (List R)) (y : List R) (m k n : Nat) (activation : Activation) :
    Outcome FusionError Unit × List R :=
  match checkBuffers mach x w b y m k n with
  | .err e => (.err e, y)
  | .panic => (.panic, y)
  | .ok () =>
    -- nothing to write, but `k = 0` still writes the bias
    if m = 0 ∨ n = 0 then
      (.ok (), y)
    else
      match (mach.mul m n >>= fun mn => mach.mul mn k : Outcome FusionError Nat) with
      | .err e => (.err e, y)
      | .panic => (.panic, y)
      | .ok flops =>
        -- the only branch that chooses between the paths
        if flops ≥ gemmDispatchMinFlops then
          written y (dispatchPath gemm acts x w b y m k n activation)
        else
          written y (singlePass acts x w b y m k n activation)

/-- The second pass of the reference. -/
def addBias (b : Option (List R)) (y : List R) (m n : Nat) : Option (List R) :=
  match b with
  | some bias =>
    cells m n (fun y row col => Option.map₂ (· + ·) y[row * n + col]? bias[col]?) y
  | none => some y

/-- The product, the bias and the activation in three passes. -/
def naiveMatmulBiasActivation (acts : Activations R) (x w : List R) (b : Option (List R))
    (y : List R) (m k n : Nat) (activation : Activation) : Option (List R) := do
  let y ← cells m n (fun _ row col => accumulate x w k n row col 0) y
  let y ← addBias b y m n
  return y.map (activation.on acts)

/-- The exact product in cell `l`. -/
def cellProduct (x w : List R) (k n l : Nat) : R :=
  ∑ kk ∈ Finset.range k, x.getD (l / n * k + kk) 0 * w.getD (kk * n + l % n) 0

/-- The bias of cell `l`. -/
def cellBias (b : Option (List R)) (n l : Nat) : R :=
  b.elim 0 fun bias => bias.getD (l % n) 0

/-- `activation(x @ w + b)` -/
def affine (acts : Activations R) (x w : List R) (b : Option (List R)) (m k n : Nat)
    (activation : Activation) : List R :=
  (range (m * n)).map fun l => activation.on acts (cellProduct x w k n l + cellBias b n l)

/-- The contract of the `gemm` routine. -/
def ExactGemmInto (gemm : GemmInto R) : Prop :=
  ∀ (m k n : Nat) (x w y : List R), x.length = m * k → w.length = k * n → y.length = m * n →
    gemm m k n x w y = (range (m * n)).map (cellProduct x w k n)

/-- Buffers of the stated sizes; a slice is shorter than `2^64`. -/
structure Fits (x w : List R) (b : Option (List R)) (y : List R) (m k n : Nat) : Prop where
  xLen : x.length = m * k
  wLen : w.length = k * n
  yLen : y.length = m * n
  bLen : ∀ bias, b = some bias → bias.length = n
  slices : x.length < u64Size ∧ w.length < u64Size ∧ y.length < u64Size

end Code

/-! ## The paths -/

section Paths

variable {R : Type} [CommRing R] {acts : Activations R} {x w y : List R}
  {b : Option (List R)} {m k n : Nat} {activation : Activation}

theorem range_getD (y : List R) {size : Nat} (hy : y.length = size) :
    (range size).map (fun l => y.getD l 0) = y := by
  subst hy
  refine ext_getElem (by simp) ?_
  intro l hl hl'
  simp [hl']

variable {col : Nat} {bias : List R} {gemm : GemmInto R}

theorem accumulate_eq (h : Fits x w b y m k n) {row : Nat} (hrow : row < m) (hcol : col < n)
    (acc : R) : accumulate x w k n row col acc =
      some (acc + cellProduct x w k n (row * n + col)) := by
  unfold accumulate cellProduct
  rw [cell_div hcol, cell_mod hcol]
  refine Accumulate.sumLoop_eq acc ?_
  intro kk hkk
  have hx : row * k + kk < x.length := h.xLen ▸ cell_lt hrow hkk
  have hw : kk * n + col < w.length := h.wLen ▸ cell_lt hkk hcol
  simp [hx, hw]

theorem bias_getElem? (h : Fits x w b y m k n) (hcol : col < n) (hb : b = some bias) (row : Nat) :
    bias[col]? = some (cellBias b n (row * n + col)) := by
  have hlen : col < bias.length := h.bLen bias hb ▸ hcol
  simp [cellBias, hb, cell_mod hcol, hlen]

theorem startAt_eq (h : Fits x w b y m k n) (hcol : col < n) (row : Nat) :
    startAt b col = some (cellBias b n (row * n + col)) := by
  cases hb : b with
  | none => rfl
  | some bias =>
    rw [← hb, ← bias_getElem? h hcol hb row, hb]
    rfl

variable [Max R]

/-- The loop that starts from the bias. -/
theorem singlePass_eq (h : Fits x w b y m k n) :
    singlePass acts x w b y m k n activation = some (affine acts x w b m k n activation) := by
  rw [← range_getD y h.yLen]
  refine cells_eq ?_
  intro row hrow col hcol
  -- the loop starts from the bias, the naive passes add it last
  rw [add_comm (cellProduct x w k n _)]
  simp only [Option.bind_eq_bind, startAt_eq h hcol row, Option.bind_some,
    accumulate_eq h hrow hcol]
  rfl

omit [Max R] in
theorem zipWith_bias (h : Fits x w b y m k n) (hb : b = some bias) (row : Nat) (f : R → R → R)
    (p : Nat → R) : zipWith f ((range n).map fun col => p (row * n + col)) bias =
      (range n).map fun col => f (p (row * n + col)) (cellBias b n (row * n + col)) := by
  have hbias : bias = (range n).map fun col => cellBias b n (row * n + col) := by
    refine ext_getElem? fun col => ?_
    by_cases hcol : col < n
    · rw [bias_getElem? h hcol hb row]
      simp [hcol]
    · have hlen : bias.length ≤ col := h.bLen bias hb ▸ Nat.le_of_not_lt hcol
      simp [hcol, hlen]
  rw [hbias, zipWith_map, zipWith_self]

theorem epilogue_product (h : Fits x w b y m k n) :
    epilogue acts ((range (m * n)).map (cellProduct x w k n)) b m n activation =
      some (affine acts x w b m k n activation) := by
  unfold affine
  cases hb : b with
  | none =>
    have hrows : rows m n (fun row => row.map (activation.on acts))
        ((range (m * n)).map (cellProduct x w k n)) =
        some ((range (m * n)).map fun l =>
          activation.on acts (cellProduct x w k n l + cellBias none n l)) := by
      refine rows_eq ?_
      intro row _
      simp [cellBias]
    -- the branch without an activation returns the buffer as it is
    cases activation with
    | none => simp [epilogue, cellBias, Activation.on]
    | relu => exact hrows
    | gelu => exact hrows
    | silu => exact hrows
  | some bias =>
    have hrows : rows m n
        (fun row => zipWith (fun cell bb => activation.on acts (cell + bb)) row bias)
        ((range (m * n)).map (cellProduct x w k n)) =
        some ((range (m * n)).map fun l =>
          activation.on acts (cellProduct x w k n l + cellBias (some bias) n l)) := by
      refine rows_eq ?_
      intro row _
      rw [zipWith_bias h hb row, hb]
    cases activation with
    | none => exact hrows
    | relu => exact hrows
    | gelu => exact hrows
    | silu => exact hrows

theorem dispatchPath_eq (hgemm : ExactGemmInto gemm) (h : Fits x w b y m k n) :
    dispatchPath gemm acts x w b y m k n activation =
      some (affine acts x w b m k n activation) := by
  rw [dispatchPath, hgemm m k n x w y h.xLen h.wLen h.yLen, epilogue_product h]

omit [Max R] in
theorem addBias_eq (h : Fits x w b y m k n) :
    addBias b ((range (m * n)).map (cellProduct x w k n)) m n =
      some ((range (m * n)).map fun l => cellProduct x w k n l + cellBias b n l) := by
  cases hb : b with
  | none => simp [addBias, cellBias]
  | some bias =>
    refine cells_eq ?_
    intro row hrow col hcol
    -- the cell at hand has not been visited, so it still holds the product
    have hcell : row * n + col < m * n := cell_lt hrow hcol
    rw [bias_getElem? h hcol hb row, hb]
    simp [hcell, mix]

theorem naive_eq (h : Fits x w b y m k n) :
    naiveMatmulBiasActivation acts x w b y m k n activation =
      some (affine acts x w b m k n activation) := by
  have hproduct : cells m n (fun _ row col => accumulate x w k n row col 0) y =
      some ((range (m * n)).map (cellProduct x w k n)) := by
    rw [← range_getD y h.yLen]
    refine cells_eq ?_
    intro row hrow col hcol
    rw [accumulate_eq h hrow hcol, zero_add]
  unfold naiveMatmulBiasActivation affine
  simp only [Option.bind_eq_bind, hproduct, Option.bind_some, addBias_eq h]
  simp only [Option.pure_def, map_map]
  rfl

/-! ## The kernel -/

omit [CommRing R] [Max R] in
theorem checkBuffers_eq (mach : Machine) (h : Fits x w b y m k n) :
    checkBuffers mach x w b y m k n = .ok () := by
  obtain ⟨hx, hw, hy⟩ := h.slices
  rw [h.xLen] at hx
  rw [h.wLen] at hw
  rw [h.yLen] at hy
  unfold checkBuffers
  simp only [mul_of_lt hx, mul_of_lt hw, mul_of_lt hy, Outcome.ok_bind,
    h.xLen, h.wLen, h.yLen, ne_eq, not_true_eq_false, if_false]
  cases hb : b with
  | none => rfl
  | some bias => simp [h.bLen bias hb]

theorem unchanged_of_err {mach : Machine} {e : FusionError} {y' : List R}
    (h : fusedMatmulBiasActivationInto mach gemm acts x w b y m k n activation = (.err e, y')) :
    y' = y := by
  -- a path never returns an error
  have hwritten : ∀ out, written y out = (.err e, y') → y' = y := by
    intro out hout
    cases out with
    | none => cases hout
    | some out => cases hout
  unfold fusedMatmulBiasActivationInto at h
  split at h
  · cases h
    rfl
  · cases h
  · split at h
    · cases h
    · split at h
      · cases h
        rfl
      · cases h
      · split at h
        · exact hwritten _ h
        · exact hwritten _ h

theorem into_eq (hgemm : ExactGemmInto gemm) (mach : Machine) (hflops : m * n * k < u64Size)
    (h : Fits x w b y m k n) : fusedMatmulBiasActivationInto mach gemm acts x w b y m k n activation =
      (.ok (), affine acts x w b m k n activation) := by
  have hmn : m * n < u64Size := h.yLen ▸ h.slices.2.2
  unfold fusedMatmulBiasActivationInto
  simp only [checkBuffers_eq mach h, mul_of_lt hmn, Outcome.ok_bind,
    mul_of_lt hflops, singlePass_eq h, dispatchPath_eq hgemm h]
  split
  · next hempty =>
      have hzero : m * n = 0 := by
        rcases hempty with rfl | rfl
        · exact Nat.zero_mul n
        · exact Nat.mul_zero m
      -- an empty product has an empty buffer, so the early return leaves what it should
      have hnil : y = [] := length_eq_zero_iff.1 (h.yLen.trans hzero)
      rw [affine, hzero, hnil]
      rfl
  · split
    · rfl
    · rfl

/-- On buffers of the stated sizes, both paths and the kernel write `activation(x @ w + b)`, as the
reference does, whatever `y` held; an error leaves `y` as it was. -/
theorem fused_path_independent {gemm : GemmInto R} (hgemm : ExactGemmInto gemm)
    (acts : Activations R) (mach : Machine) (x w : List R) (b : Option (List R)) (y : List R)
    (m k n : Nat) (hflops : m * n * k < u64Size) (activation : Activation) :
    (Fits x w b y m k n →
      fusedMatmulBiasActivationInto mach gemm acts x w b y m k n activation =
          (.ok (), affine acts x w b m k n activation) ∧
        singlePass acts x w b y m k n activation = some (affine acts x w b m k n activation) ∧
        dispatchPath gemm acts x w b y m k n activation =
          some (affine acts x w b m k n activation) ∧
        naiveMatmulBiasActivation acts x w b y m k n activation =
          some (affine acts x w b m k n activation)) ∧
    ∀ e y', fusedMatmulBiasActivationInto mach gemm acts x w b y m k n activation = (.err e, y') →
      y' = y := by
  exact ⟨fun h => ⟨into_eq hgemm mach hflops h, singlePass_eq h, dispatchPath_eq hgemm h, naive_eq h⟩,
    fun e y' => unchanged_of_err⟩

end Paths

/-- `fusedMatmulBiasActivation` returns what the kernel writes. -/
theorem fusedMatmulBiasActivation_into {F : Type} [Field F] [LinearOrder F] {x w y : List F}
    {b : Option (List F)} {m k n : Nat} {gemm : Cpu.Gemm F} (hgemm : Cpu.ExactGemm gemm)
    (el : Elementary F) (mach : Machine) (h : Fits x w b y m k n) (hn : 0 < n)
    (hflops : m * n * k < u64Size) (activation : Activation) :
    ∃ out, fusedMatmulBiasActivation gemm el x w b y.length m k n activation = .ok out ∧
      fusedMatmulBiasActivationInto mach (fun m k n x w _ => gemm m k n x w)
        ⟨Activation.gelu.apply el, Activation.silu.apply el⟩ x w b y m k n activation =
          (.ok (), out) := by
  have hinto : ExactGemmInto fun m k n x w (_ : List F) => gemm m k n x w := by
    intro m k n x w y hx hw _
    have hproduct := hgemm m k n (fun l => x.getD l 0) fun l => w.getD l 0
    rwa [range_getD x hx, range_getD w hw] at hproduct
  refine ⟨_, ?_, into_eq hinto mach hflops h⟩
  have hkernel := @fusedMatmulBiasActivation_eq F _ _ m k n (fun l => x.getD l 0)
    (fun l => w.getD l 0) (b.map fun bias col => bias.getD col 0) el activation gemm hgemm hn
  have hb : (b.map fun bias col => bias.getD col 0).map (fun h => (range n).map h) = b := by
    cases hb : b with
    | none => rfl
    | some bias => exact congrArg some (range_getD bias (h.bLen bias hb))
  rw [range_getD x h.xLen, range_getD w h.wLen, hb, ← h.yLen] at hkernel
  have hon : Activation.on ⟨Activation.gelu.apply el, Activation.silu.apply el⟩ activation =
      activation.apply el := by cases activation <;> rfl
  have hbias : ∀ l, cellBias b n l =
      biasAt (b.map fun bias col => bias.getD col 0) (l % n) := by cases b <;> exact fun _ => rfl
  rw [hkernel, h.yLen, affine, hon]
  simp only [hbias]
  rfl

/-- A routine that meets the contract. -/
def exactGemmInto : GemmInto ℤ :=
  fun m k n x w _ => (range (m * n)).map (cellProduct x w k n)

/-- `relu(x @ w + b)` in two rows, over stale contents. -/
theorem fused_path_independent_twoRows :
    fusedMatmulBiasActivationInto ⟨.release, 0⟩ exactGemmInto ⟨id, id⟩ [1, 2, 3, 4]
      [5, 6, 7, 8, 9, 10] (some [-30, 1, -27]) [9, 9, 9, 9, 9, 9] 2 2 3 .relu =
        (.ok (), [0, 25, 0, 17, 55, 34]) := by
  have hfits : Fits [1, 2, 3, 4] [5, 6, 7, 8, 9, 10] (some [-30, 1, -27])
      [(9 : ℤ), 9, 9, 9, 9, 9] 2 2 3 :=
    ⟨rfl, rfl, rfl, fun bias hbias => by cases hbias; rfl, by decide⟩
  exact ((fused_path_independent (fun _ _ _ _ _ _ _ _ _ => rfl) ⟨id, id⟩ ⟨.release, 0⟩ _ _ _ _ 2 2 3
    (by decide) .relu).1 hfits).1

end Fusion
end Rustorch
