import Rustorch.Lib.DualNumbers

/-!
# The adjoint of a softmax average

Row `i` of the output is the average of the values `v` with the weights `p i`, a softmax of scaled
products of `q i` with the keys `k`.  To first order, the output moves by the values' tangent and by
the Jacobian of the softmax at the scores' tangent (`outputTangent`).  The transpose of that map
is the sum of five products (`sum_outputTangent`).
-/

namespace SoftmaxAdjoint

open DualNumbers Finset

variable {ι κ δ F : Type*} [Field F] {s : Finset ι} {t : Finset κ} {u : Finset δ} {scale : F}
  {p : ι → κ → F} {q q' g : ι → δ → F} {k k' v v' : κ → δ → F}

/-- How the score of a query and a key moves. -/
def scoreTangent (u : Finset δ) (scale : F) (q q' : ι → δ → F) (k k' : κ → δ → F) (i : ι) (j : κ) :
    F :=
  (∑ d ∈ u, (q i d * k' j d + q' i d * k j d)) * scale

/-- How the average moves. -/
def outputTangent (t : Finset κ) (u : Finset δ) (scale : F) (p : ι → κ → F) (q q' : ι → δ → F)
    (k k' v v' : κ → δ → F) (i : ι) (d : δ) : F :=
  ∑ j ∈ t, (p i j * v' j d + jacobian (p i) t (scoreTangent u scale q q' k k' i) j * v j d)

/-- What the scores of a row receive from the output's cotangent `g`. -/
def scoreCotangent (t : Finset κ) (u : Finset δ) (p : ι → κ → F) (v : κ → δ → F) (g : ι → δ → F)
    (i : ι) (j : κ) : F :=
  jacobian (p i) t (fun j => ∑ d ∈ u, g i d * v j d) j

theorem sum_outputTangent_row (i : ι) :
    ∑ d ∈ u, g i d * outputTangent t u scale p q q' k k' v v' i d =
      ∑ j ∈ t, ∑ d ∈ u, p i j * g i d * v' j d +
        ∑ j ∈ t, scoreCotangent t u p v g i j * scoreTangent u scale q q' k k' i j := by
  have hscores : ∑ j ∈ t, scoreCotangent t u p v g i j * scoreTangent u scale q q' k k' i j =
      ∑ j ∈ t, ∑ d ∈ u,
        jacobian (p i) t (scoreTangent u scale q q' k k' i) j * (g i d * v j d) := by
    simp only [scoreCotangent]
    rw [sum_jacobian_mul]
    simp only [mul_sum]
  rw [hscores, sum_comm, sum_comm (s := t), ← sum_add_distrib]
  apply sum_congr rfl
  intro d _
  rw [outputTangent, mul_sum, ← sum_add_distrib]
  apply sum_congr rfl
  intro j _
  ring

/-! ## Products with a matrix -/

theorem sum_rows (c : ι → κ → F) (x : κ → δ → F) (y : ι → δ → F) :
    ∑ i ∈ s, ∑ d ∈ u, (∑ j ∈ t, c i j * x j d) * y i d =
      ∑ i ∈ s, ∑ j ∈ t, ∑ d ∈ u, c i j * x j d * y i d := by
  apply sum_congr rfl
  intro i _
  rw [sum_comm (s := t)]
  simp only [sum_mul]

theorem sum_columns (c : ι → κ → F) (x : ι → δ → F) (y : κ → δ → F) :
    ∑ j ∈ t, ∑ d ∈ u, (∑ i ∈ s, c i j * x i d) * y j d =
      ∑ i ∈ s, ∑ j ∈ t, ∑ d ∈ u, c i j * x i d * y j d := by
  rw [sum_rows fun j i => c i j, sum_comm]

/-! ## The transpose -/

theorem sum_scoreTangent (ds : ι → κ → F) :
    ∑ i ∈ s, ∑ j ∈ t, ds i j * scoreTangent u scale q q' k k' i j =
      (∑ i ∈ s, ∑ d ∈ u, (∑ j ∈ t, scale * ds i j * k j d) * q' i d) +
        ∑ j ∈ t, ∑ d ∈ u, (∑ i ∈ s, scale * ds i j * q i d) * k' j d := by
  rw [sum_rows, sum_columns, ← sum_add_distrib]
  apply sum_congr rfl
  intro i _
  rw [← sum_add_distrib]
  apply sum_congr rfl
  intro j _
  rw [scoreTangent, ← sum_add_distrib, sum_mul, mul_sum]
  apply sum_congr rfl
  intro d _
  ring

/-- The transpose of the tangent map. -/
theorem sum_outputTangent :
    ∑ i ∈ s, ∑ d ∈ u, g i d * outputTangent t u scale p q q' k k' v v' i d =
      (∑ i ∈ s, ∑ d ∈ u, (∑ j ∈ t, scale * scoreCotangent t u p v g i j * k j d) * q' i d) +
        (∑ j ∈ t, ∑ d ∈ u, (∑ i ∈ s, scale * scoreCotangent t u p v g i j * q i d) * k' j d) +
          ∑ j ∈ t, ∑ d ∈ u, (∑ i ∈ s, p i j * g i d) * v' j d := by
  rw [← sum_scoreTangent, sum_columns, add_comm, ← sum_add_distrib]
  apply sum_congr rfl
  intro i _
  exact sum_outputTangent_row i

end SoftmaxAdjoint
