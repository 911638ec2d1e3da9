import Rustorch.Lib.Accumulate
import Rustorch.Lib.CheckedSum
import Rustorch.Lib.Outcome

/-!
# The scalar int8 matrix product

`gemm_int8.rs`: `gemm_int8_scalar` subtracts the zero points, multiplies and accumulates in `i32`,
and scales the result.  `panic` is an overflow of an `i32` operation or an index out of bounds.
Floats are any type with a product and a cast from `i32`.

How long a sum may be depends on the zero points: a product is at most `highest` and at least
`-lowest`.
-/

namespace Rustorch
namespace Quant

open CheckedSum List Accumulate

structure QParams (F : Type) where
  scale : F
  zeroPoint : ℤ

inductive GemmError
  | shapeMismatch (which : String) (expected got : Nat)
  deriving DecidableEq, Repr

def i32Min : ℤ := -(2 ^ 31)

def i32Max : ℤ := 2 ^ 31 - 1

/-- A checked `i32` value. -/
def i32 (x : ℤ) : Option ℤ :=
  fit i32Min i32Max x

section Kernel

variable {F : Type} [Mul F] (toF32 : ℤ → F)

/-- One product of the inner loop, with the zero points taken off. -/
def product (a b : List Int8) (k n : Nat) (zpA zpB : ℤ) (row col kk : Nat) : Option ℤ := do
  let x ← a[row * k + kk]?
  let aVal ← i32 (x.toInt - zpA)
  let y ← b[kk * n + col]?
  let bVal ← i32 (y.toInt - zpB)
  i32 (aVal * bVal)

def gemmInt8Scalar (a b : List Int8) (c : List F) (m k n : Nat) (qa qb : QParams F) :
    Outcome GemmError (List F) :=
  if a.length ≠ m * k then
    .err (.shapeMismatch "a" (m * k) a.length)
  else if b.length ≠ k * n then
    .err (.shapeMismatch "b" (k * n) b.length)
  else if c.length ≠ m * n then
    .err (.shapeMismatch "c" (m * n) c.length)
  else
    let scaleOut := qa.scale * qb.scale
    .expect (grid m n fun row col =>
      (sum i32Min i32Max k (product a b k n qa.zeroPoint qb.zeroPoint row col)).map
        fun acc => toF32 acc * scaleOut)

/-- The exact sum of a cell. -/
def exactSum (a b : List Int8) (k n : Nat) (zpA zpB : ℤ) (row col : Nat) : ℤ :=
  ∑ kk ∈ Finset.range k,
    ((a.getD (row * k + kk) 0).toInt - zpA) * ((b.getD (kk * n + col) 0).toInt - zpB)

/-- For all matrices of the shape, every cell is the exact sum, scaled. -/
def Exact (m k n : Nat) (qa qb : QParams F) : Prop :=
  ∀ (a b : List Int8) (c : List F), a.length = m * k → b.length = k * n → c.length = m * n →
    gemmInt8Scalar toF32 a b c m k n qa qb = .ok ((List.range (m * n)).map fun l =>
      toF32 (exactSum a b k n qa.zeroPoint qb.zeroPoint (l / n) (l % n)) * (qa.scale * qb.scale))

end Kernel

/-! ## The range of a product -/

/-- The zero point of an `i8` quantisation. -/
def ZeroPoint (z : ℤ) : Prop :=
  -128 ≤ z ∧ z ≤ 127

instance (z : ℤ) : Decidable (ZeroPoint z) :=
  inferInstanceAs (Decidable (_ ∧ _))

/-- The largest product. -/
def highest (zpA zpB : ℤ) : ℤ :=
  max ((127 - zpA) * (127 - zpB)) ((128 + zpA) * (128 + zpB))

/-- The largest product with the sign reversed. -/
def lowest (zpA zpB : ℤ) : ℤ :=
  max ((127 - zpA) * (128 + zpB)) ((128 + zpA) * (127 - zpB))

section Range

variable {zpA zpB x y : ℤ}

/-- A product over two intervals around zero has its extremes at the corners. -/
theorem product_mem (ha : ZeroPoint zpA) (hb : ZeroPoint zpB) (hx : -128 ≤ x ∧ x ≤ 127)
    (hy : -128 ≤ y ∧ y ≤ 127) :
    -(lowest zpA zpB) ≤ (x - zpA) * (y - zpB) ∧ (x - zpA) * (y - zpB) ≤ highest zpA zpB := by
  obtain ⟨ha₁, ha₂⟩ := ha
  obtain ⟨hb₁, hb₂⟩ := hb
  have hlow₁ := le_max_left ((127 - zpA) * (128 + zpB)) ((128 + zpA) * (127 - zpB))
  have hlow₂ := le_max_right ((127 - zpA) * (128 + zpB)) ((128 + zpA) * (127 - zpB))
  have hhigh₁ := le_max_left ((127 - zpA) * (127 - zpB)) ((128 + zpA) * (128 + zpB))
  have hhigh₂ := le_max_right ((127 - zpA) * (127 - zpB)) ((128 + zpA) * (128 + zpB))
  unfold lowest highest
  rcases le_total zpA x with hxs | hxs
  · rcases le_total zpB y with hys | hys
    · constructor
      · nlinarith
      · nlinarith
    · constructor
      · nlinarith
      · nlinarith
  · rcases le_total zpB y with hys | hys
    · constructor
      · nlinarith
      · nlinarith
    · constructor
      · nlinarith
      · nlinarith

theorem highest_le (ha : ZeroPoint zpA) (hb : ZeroPoint zpB) :
    0 ≤ highest zpA zpB ∧ highest zpA zpB ≤ 255 * 255 := by
  obtain ⟨ha₁, ha₂⟩ := ha
  obtain ⟨hb₁, hb₂⟩ := hb
  refine ⟨le_max_of_le_left (by nlinarith), max_le ?_ ?_⟩
  · nlinarith
  · nlinarith

theorem lowest_le (ha : ZeroPoint zpA) (hb : ZeroPoint zpB) :
    0 ≤ lowest zpA zpB ∧ lowest zpA zpB ≤ 255 * 255 := by
  obtain ⟨ha₁, ha₂⟩ := ha
  obtain ⟨hb₁, hb₂⟩ := hb
  refine ⟨le_max_of_le_left (by nlinarith), max_le ?_ ?_⟩
  · nlinarith
  · nlinarith

end Range

/-! ## The kernel -/

section Exact

variable {F : Type} [Mul F] {toF32 : ℤ → F} {a b : List Int8} {m k n row col kk : Nat}
variable {zpA zpB : ℤ} {qa qb : QParams F}

theorem i32_sub {x : Int8} (h : ZeroPoint zpA) : i32 (x.toInt - zpA) = some (x.toInt - zpA) := by
  have hlo := x.le_toInt
  have hhi := x.toInt_lt
  obtain ⟨h₁, h₂⟩ := h
  apply fit_of_mem
  · unfold i32Min
    omega
  · unfold i32Max
    omega

theorem int8_mem (x : Int8) : -128 ≤ x.toInt ∧ x.toInt ≤ 127 := by
  have hlo := x.le_toInt
  have hhi := x.toInt_lt
  omega

theorem product_eq (ha : ZeroPoint zpA) (hb : ZeroPoint zpB) (hrow : row * k + kk < a.length)
    (hcol : kk * n + col < b.length) : product a b k n zpA zpB row col kk =
      some (((a.getD (row * k + kk) 0).toInt - zpA) * ((b.getD (kk * n + col) 0).toInt - zpB)) := by
  have hmem := product_mem ha hb (int8_mem (a.getD (row * k + kk) 0))
    (int8_mem (b.getD (kk * n + col) 0))
  have hlow := (lowest_le ha hb).2
  have hhigh := (highest_le ha hb).2
  unfold product
  rw [getElem?_eq_getElem hrow, getElem?_eq_getElem hcol]
  rw [getD_eq_getElem _ _ hrow, getD_eq_getElem _ _ hcol] at hmem ⊢
  simp only [Option.bind_eq_bind, Option.bind_some, i32_sub ha, i32_sub hb]
  apply fit_of_mem
  · unfold i32Min
    omega
  · unfold i32Max
    omega

theorem inner_lt (hrow : row < m) (hcol : col < n) (hkk : kk < k) :
    row * k + kk < m * k ∧ kk * n + col < k * n :=
  ⟨Rows.cell_lt hrow hkk, Rows.cell_lt hkk hcol⟩

theorem products_eq (ha : ZeroPoint zpA) (hb : ZeroPoint zpB) (hlenA : a.length = m * k)
    (hlenB : b.length = k * n) (hrow : row < m) (hcol : col < n) :
    ∀ kk < k, product a b k n zpA zpB row col kk =
      some (((a.getD (row * k + kk) 0).toInt - zpA) *
        ((b.getD (kk * n + col) 0).toInt - zpB)) := by
  intro kk hkk
  obtain ⟨hA, hB⟩ := inner_lt hrow hcol hkk
  exact product_eq ha hb (by rwa [hlenA]) (by rwa [hlenB])

theorem exact_of_room (ha : ZeroPoint qa.zeroPoint) (hb : ZeroPoint qb.zeroPoint)
    (hhigh : k * highest qa.zeroPoint qb.zeroPoint < 2 ^ 31)
    (hlow : k * lowest qa.zeroPoint qb.zeroPoint ≤ 2 ^ 31) : Exact toF32 m k n qa qb := by
  intro a b c hlenA hlenB hlenC
  have hcell : ∀ row < m, ∀ col < n,
      (sum i32Min i32Max k (product a b k n qa.zeroPoint qb.zeroPoint row col)).map
          (fun acc => toF32 acc * (qa.scale * qb.scale)) =
        some (toF32 (exactSum a b k n qa.zeroPoint qb.zeroPoint row col) *
          (qa.scale * qb.scale)) := by
    intro row hrow col hcol
    have hlo : i32Min ≤ -(k * lowest qa.zeroPoint qb.zeroPoint) := by
      unfold i32Min
      omega
    have hhi : k * highest qa.zeroPoint qb.zeroPoint ≤ i32Max := by
      unfold i32Max
      omega
    rw [sum_eq (products_eq ha hb hlenA hlenB hrow hcol)
      (fun kk _ => product_mem ha hb (int8_mem _) (int8_mem _)) (lowest_le ha hb).1
      (highest_le ha hb).1 hlo hhi]
    rfl
  unfold gemmInt8Scalar
  rw [if_neg (not_not.2 hlenA), if_neg (not_not.2 hlenB), if_neg (not_not.2 hlenC)]
  simp only
  rw [grid_eq hcell]
  rfl

/-- A matrix product that succeeds on constant matrices has a sum that fits. -/
theorem fits_of_exact (ha : ZeroPoint qa.zeroPoint) (hb : ZeroPoint qb.zeroPoint) [Inhabited F]
    (hm : 0 < m) (hn : 0 < n) (h : Exact toF32 m k n qa qb) (x y : Int8) :
    i32Min ≤ k * ((x.toInt - qa.zeroPoint) * (y.toInt - qb.zeroPoint)) ∧
      k * ((x.toInt - qa.zeroPoint) * (y.toInt - qb.zeroPoint)) ≤ i32Max := by
  let a := replicate (m * k) x
  let b := replicate (k * n) y
  let c : List F := replicate (m * n) default
  have hlenA : a.length = m * k := length_replicate
  have hlenB : b.length = k * n := length_replicate
  have hlenC : c.length = m * n := length_replicate
  have hrun := h a b c hlenA hlenB hlenC
  unfold gemmInt8Scalar at hrun
  rw [if_neg (not_not.2 hlenA), if_neg (not_not.2 hlenB), if_neg (not_not.2 hlenC)] at hrun
  have hterms := products_eq ha hb hlenA hlenB hm hn
  cases hcell : sum i32Min i32Max k
      (product a b k n qa.zeroPoint qb.zeroPoint 0 0) with
  | none =>
    -- one cell that overflows is enough for the whole call to fail
    have hrow : (range n).mapM (fun col =>
        (sum i32Min i32Max k (product a b k n qa.zeroPoint qb.zeroPoint 0 col)).map
          (fun acc => toF32 acc * (qa.scale * qb.scale))) = none :=
      Traversal.mapM_eq_none (mem_range.2 hn) (by rw [hcell]; rfl)
    have hgrid : grid m n (fun row col =>
        (sum i32Min i32Max k (product a b k n qa.zeroPoint qb.zeroPoint row col)).map
          (fun acc => toF32 acc * (qa.scale * qb.scale))) = none := by
      unfold grid
      rw [Traversal.mapM_eq_none (mem_range.2 hm) hrow]
      rfl
    simp only at hrun
    rw [hgrid] at hrun
    cases hrun
  | some v =>
    obtain ⟨hexact, hrange⟩ := eq_of_sum hterms (by decide) hcell
    have hconst : ∀ kk ∈ Finset.range k,
        ((a.getD (0 * k + kk) 0).toInt - qa.zeroPoint) *
            ((b.getD (kk * n + 0) 0).toInt - qb.zeroPoint) =
          (x.toInt - qa.zeroPoint) * (y.toInt - qb.zeroPoint) := by
      intro kk hkk
      obtain ⟨hA, hB⟩ := inner_lt hm hn (Finset.mem_range.1 hkk)
      rw [getD_eq_getElem _ _ (by rwa [hlenA]), getD_eq_getElem _ _ (by rwa [hlenB]),
        getElem_replicate, getElem_replicate]
    rw [Finset.sum_congr rfl hconst, Finset.sum_const, Finset.card_range, nsmul_eq_mul] at hexact
    rwa [hexact] at hrange

/-- The product is exact for all matrices of a shape exactly where `k` extreme products fit the
accumulator, or there is no cell at all. -/
theorem exact_iff [Inhabited F] (m k n : Nat) (qa qb : QParams F) (ha : ZeroPoint qa.zeroPoint)
    (hb : ZeroPoint qb.zeroPoint) : Exact toF32 m k n qa qb ↔
      m = 0 ∨ n = 0 ∨ (k * highest qa.zeroPoint qb.zeroPoint < 2 ^ 31 ∧
        k * lowest qa.zeroPoint qb.zeroPoint ≤ 2 ^ 31) := by
  constructor
  · intro h
    by_cases hm : m = 0
    · exact Or.inl hm
    · by_cases hn : n = 0
      · exact Or.inr (Or.inl hn)
      · have hfits := fits_of_exact ha hb (Nat.pos_of_ne_zero hm) (Nat.pos_of_ne_zero hn) h
        -- The extreme bytes at both ends give the two bounds.
        have hpp := (hfits 127 127).2
        have hmm := (hfits (-128) (-128)).2
        have hpm := (hfits 127 (-128)).1
        have hmp := (hfits (-128) 127).1
        refine Or.inr (Or.inr ⟨?_, ?_⟩)
        · unfold highest
          rcases max_choice ((127 - qa.zeroPoint) * (127 - qb.zeroPoint))
            ((128 + qa.zeroPoint) * (128 + qb.zeroPoint)) with heq | heq
          · rw [heq]
            exact Int.lt_of_le_sub_one hpp
          · rw [heq]
            change (k : ℤ) * ((-128 - qa.zeroPoint) * (-128 - qb.zeroPoint)) ≤ 2 ^ 31 - 1 at hmm
            linarith
        · unfold lowest
          rcases max_choice ((127 - qa.zeroPoint) * (128 + qb.zeroPoint))
            ((128 + qa.zeroPoint) * (127 - qb.zeroPoint)) with heq | heq
          · rw [heq]
            change (-(2 ^ 31) : ℤ) ≤ k * ((127 - qa.zeroPoint) * (-128 - qb.zeroPoint)) at hpm
            linarith
          · rw [heq]
            change (-(2 ^ 31) : ℤ) ≤ k * ((-128 - qa.zeroPoint) * (127 - qb.zeroPoint)) at hmp
            linarith
  · rintro (rfl | rfl | ⟨hhigh, hlow⟩)
    · intro a b c hlenA hlenB hlenC
      unfold gemmInt8Scalar
      rw [if_neg (not_not.2 hlenA), if_neg (not_not.2 hlenB), if_neg (not_not.2 hlenC)]
      simp only
      rw [grid_eq (f := fun _ _ => default) (fun row hrow => absurd hrow (by omega))]
      simp
    · intro a b c hlenA hlenB hlenC
      unfold gemmInt8Scalar
      rw [if_neg (not_not.2 hlenA), if_neg (not_not.2 hlenB), if_neg (not_not.2 hlenC)]
      simp only
      rw [grid_eq (f := fun _ _ => default)
        (fun row _ col hcol => absurd hcol (by omega))]
      simp
    · exact exact_of_room ha hb hhigh hlow

/-- The zero points of quantised activations that are never negative. -/
def unsignedParams : QParams ℤ where
  scale := 1
  zeroPoint := -128

theorem exact_unsigned : Exact id 2 33025 2 unsignedParams unsignedParams :=
  (exact_iff 2 33025 2 unsignedParams unsignedParams (by decide) (by decide)).2 (by decide)

theorem not_exact_unsigned :
    33026 ≤ 2 ^ 24 ∧ ¬ Exact id 1 33026 1 unsignedParams unsignedParams := by
  refine ⟨by decide, ?_⟩
  intro h
  have hfits := (fits_of_exact (by decide) (by decide) Nat.one_pos Nat.one_pos h 127 127).2
  revert hfits
  decide

end Exact

end Quant
end Rustorch
