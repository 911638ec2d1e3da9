import Rustorch.Cpu.Matmul

/-!
# Fused product, bias and activation

`fused_matmul_bias_activation` computes `activation(x @ w + b)`.  Large products go to the `gemm`
routine with an epilogue pass; small ones run a scalar loop that starts from the bias.  Both give
the same buffer (`fusedMatmulBiasActivation_eq`).
-/

namespace Rustorch
namespace Fusion

open Cpu List Rows Accumulate

local instance two_atLeastTwo : Nat.AtLeastTwo 2 := ⟨le_rfl⟩

inductive Activation
  | none
  | relu
  | gelu
  | silu
  deriving DecidableEq, Repr

/-- The functions of `f32` that the activations call. -/
structure Elementary (F : Type) where
  exp : F → F
  tanh : F → F
  sqrt : F → F
  pi : F

inductive FusionError
  | shapeMismatch (which : String) (expected got : Nat)
  deriving DecidableEq, Repr

/-- The derived `Debug` text. -/
def FusionError.debug : FusionError → String
  | .shapeMismatch which expected got =>
    "ShapeMismatch \x7b which: \"" ++ which ++ "\", expected: " ++ toString expected ++ ", got: " ++
      toString got ++ " \x7d"

section Kernel

variable {F : Type} [Field F] [LinearOrder F]

def sigmoid (el : Elementary F) (x : F) : F :=
  1 / (1 + el.exp (-x))

namespace Activation

def apply (el : Elementary F) : Activation → F → F
  | .none, x => x
  | .relu, x => max x 0
  | .gelu, x =>
    let inner := el.sqrt (2 / el.pi) * (x + 44715 / 1000000 * x * x * x)
    1 / 2 * x * (1 + el.tanh inner)
  | .silu, x => x * sigmoid el x

end Activation

def gemmDispatchMinFlops : Nat := 100000

/-- The epilogue; its `None` and `Relu` arms write `apply` out. -/
def applyBiasActivationEpilogue (el : Elementary F) (y : List F) (b : Option (List F)) (m n : Nat)
    (activation : Activation) : List F :=
  match b with
  | none => y.map (activation.apply el)
  | some bias =>
    ((range m).map fun row =>
      zipWith (fun cell bb => activation.apply el (cell + bb)) (Rows.row n row y) bias).flatten

/-- The new contents of `y`, a buffer of `yLen` cells. -/
def fusedMatmulBiasActivation (gemm : Gemm F) (el : Elementary F) (x w : List F)
    (b : Option (List F)) (yLen m k n : Nat) (activation : Activation) :
    Outcome FusionError (List F) :=
  if x.length ≠ m * k then
    .err (.shapeMismatch "x" (m * k) x.length)
  else if w.length ≠ k * n then
    .err (.shapeMismatch "w" (k * n) w.length)
  else if yLen ≠ m * n then
    .err (.shapeMismatch "y" (m * n) yLen)
  else
    match b.filter (fun bias => decide (bias.length ≠ n)) with
    | some bias => .err (.shapeMismatch "b" n bias.length)
    | none =>
      if m = 0 ∨ n = 0 then
        .ok []
      else if gemmDispatchMinFlops ≤ m * n * k then
        .ok (applyBiasActivationEpilogue el (gemm m k n x w) b m n activation)
      else
        Outcome.expect (grid m n fun row col => do
          let start ← match b with
            | some bb => bb[col]?
            | none => some 0
          let acc ← sumLoop k
            (fun kk => Option.map₂ (· * ·) x[row * k + kk]? w[kk * n + col]?) start
          some (activation.apply el acc))

/-! ## Both branches compute the same -/

/-- The bias of a column, 0 without one. -/
def biasAt (h : Option (Nat → F)) (col : Nat) : F :=
  (h.map (fun h => h col)).getD 0

variable {m k n : Nat} {f g : Nat → F} {h : Option (Nat → F)} {el : Elementary F}
  {activation : Activation}

theorem epilogue_eq :
    applyBiasActivationEpilogue el ((range (m * n)).map (product k n f g))
        (h.map (fun h => (range n).map h)) m n activation =
      (range (m * n)).map
        (fun l => activation.apply el (product k n f g l + biasAt h (l % n))) := by
  cases h with
  | none =>
    simp [applyBiasActivationEpilogue, biasAt]
  | some h =>
    have hrows : (range m).map (fun row =>
        zipWith (fun cell bb => activation.apply el (cell + bb))
          (Rows.row n row ((range (m * n)).map (product k n f g)))
          ((range n).map h)) =
        (range m).map (fun row => (range n).map
          (fun col => activation.apply el (product k n f g (row * n + col) + h col))) := by
      refine map_congr_left ?_
      intro row hrow
      rw [row_map_range _ (mem_range.1 hrow), zipWith_map, zipWith_self]
    simp only [applyBiasActivationEpilogue, Option.map_some, hrows, flatten_rows, Nat.div_add_mod']
    rfl

/-- On buffers of the stated sizes the kernel returns `activation(x @ w + b)`. -/
theorem fusedMatmulBiasActivation_eq {gemm : Gemm F} (hgemm : ExactGemm gemm) (hn : 0 < n) :
    fusedMatmulBiasActivation gemm el ((range (m * k)).map f) ((range (k * n)).map g)
        (h.map (fun h => (range n).map h)) (m * n) m k n activation =
      .ok ((range (m * n)).map
        (fun l => activation.apply el (product k n f g l + biasAt h (l % n)))) := by
  have hx : ¬ ((range (m * k)).map f).length ≠ m * k := by simp
  have hw : ¬ ((range (k * n)).map g).length ≠ k * n := by simp
  have hb : (h.map (fun h => (range n).map h)).filter
      (fun bias => decide (bias.length ≠ n)) = none := by
    cases h with
    | none => rfl
    | some h => simp
  rw [fusedMatmulBiasActivation, if_neg hx, if_neg hw, if_neg (not_not.2 rfl), hb]
  by_cases hm : m = 0
  · simp [hm]
  · have hmn : ¬ (m = 0 ∨ n = 0) := by omega
    simp only [if_neg hmn]
    split
    · rw [hgemm, epilogue_eq]
    · rw [@grid_eq F m n _ (fun row col => activation.apply el
        ((∑ kk ∈ Finset.range k, f (row * k + kk) * g (kk * n + col)) + biasAt h col))]
      · rfl
      · intro row hrow col hcol
        have hstart : (match h.map (fun h => (range n).map h) with
            | some bb => bb[col]?
            | none => some 0) = some (biasAt h col) := by
          cases h with
          | none => rfl
          | some h => simp [hcol, biasAt]
        have hsum : sumLoop k (fun kk => Option.map₂ (· * ·)
            ((range (m * k)).map f)[row * k + kk]? ((range (k * n)).map g)[kk * n + col]?)
            (biasAt h col) =
              some (biasAt h col + ∑ kk ∈ Finset.range k, f (row * k + kk) * g (kk * n + col)) := by
          refine sumLoop_eq _ ?_
          intro kk hkk
          have hxlt : row * k + kk < m * k := cell_lt hrow hkk
          have hwlt : kk * n + col < k * n := cell_lt hkk hcol
          simp [hxlt, hwlt]
        rw [add_comm (∑ kk ∈ Finset.range k, _)]
        -- The loop starts from the bias, so its sum is the bias plus the product.
        cases h with
        | none =>
          exact (congrArg (fun r => r.bind fun acc => some (activation.apply el acc)) hsum)
        | some h =>
          have hget : ((range n).map h)[col]? = some (biasAt (some h) col) := hstart
          calc
            _ = ((range n).map h)[col]?.bind (fun start =>
                  (sumLoop k (fun kk => Option.map₂ (· * ·)
                    ((range (m * k)).map f)[row * k + kk]?
                    ((range (k * n)).map g)[kk * n + col]?) start).bind
                  fun acc => some (activation.apply el acc)) := rfl
            _ = _ := by rw [hget, Option.bind_some, hsum, Option.bind_some]

/-- A result needs an input of the stated size. -/
theorem length_of_fused {gemm : Gemm F} {x w y : List F} {b : Option (List F)}
    {yLen : Nat} :
    fusedMatmulBiasActivation gemm el x w b yLen m k n activation = .ok y → x.length = m * k := by
  intro h
  by_contra hlen
  rw [fusedMatmulBiasActivation, if_pos hlen] at h
  cases h

end Kernel

end Fusion
end Rustorch
