import Rustorch.Attention.Backward
import Rustorch.Lib.MixedRadix

/-!
# Forward tangents against backward cotangents

The reference at dual numbers carries the tangents of the operands through the softmax, row by row
(`snd_dualRows`).  The backward kernel writes the transpose of that map (`flashBackward_adjoint`).
-/

namespace Rustorch
namespace Attention

open DualNumbers MixedRadix OnlineSoftmax Rows SoftmaxAdjoint TrivSqZeroExt List
open Finset (sum_congr)
open Extended (fin foldl_add_fin lt)

/-! ## Unmasked rows of the reference -/

section Reference

variable {D : Type} [CommRing D] [Div D] [LT D] [DecidableLT D] [DecidableEq D] {exp : D → D}
  {scale : D} {n d base : Nat} {q k v : List (Extended D)}

omit [Div D] [DecidableEq D] in
theorem row_naiveScores_none (hq : HeadOperand n d base q) (hk : HeadOperand n d base k) {i : Nat}
    (hi : i < n) :
    row n i (naiveScores scale n d d base .none q k) =
      (range n).map fun j => .fin (scaledDot scale d d base q k i j) := by
  rw [naiveScores, row_flatMap_range (fun _ _ => by simp) i hi]
  apply map_congr_left
  intro j hj
  rw [naiveScore, Mask.isMasked, if_neg Bool.false_ne_true, foldl_add_fin 0 (f := fun dd =>
      finPart (read q (base + i * d + dd)) * finPart (read k (base + j * d + dd))), zero_add]
  · rfl
  · intro dd hdd
    rw [hq.read_eq hi hdd, hk.read_eq (mem_range.1 hj) hdd]
    rfl

/-- A row of finite scores, taken against its maximum `m`. -/
theorem naiveRow_fin {K : Type} [LinearOrder K] {rank : D → K}
    (hrank : ∀ x y, x < y ↔ rank x < rank y) {a : Nat → D} (hn : 0 < n)
    (hv : HeadOperand n d base v) (hpos : ∀ m, 0 < ∑ j ∈ Finset.range n, exp (a j - m))
    (hne : ∀ x : D, 0 < x → x ≠ 0) :
    ∃ m, (Finset.range n).sup (fun j => WithBot.some (rank (a j))) = WithBot.some (rank m) ∧
      naiveRow exp n d d base v ((range n).map fun j => .fin (a j)) =
        (range d).map fun dd => .fin (∑ j ∈ Finset.range n,
          exp (a j - m) / (∑ k ∈ Finset.range n, exp (a k - m)) * keyValue d base v j dd) := by
  obtain ⟨m, hm, hsup⟩ : ∃ m, ((range n).map fun j => fin (a j)).foldl Extended.max
      .negInf = .fin m ∧
        (Finset.range n).sup (fun j => WithBot.some (rank (a j))) = WithBot.some (rank m) := by
    obtain ⟨n, rfl⟩ := Nat.exists_eq_succ_of_ne_zero hn.ne'
    rw [foldl_map]
    exact Extended.exists_foldl_max_fin rank hrank a n
  refine ⟨m, hsup, ?_⟩
  have hsum : ((range n).map fun j => fin (exp (a j - m))).foldl (· + ·) (.fin 0) =
      .fin (∑ j ∈ Finset.range n, exp (a j - m)) := by
    rw [foldl_map, foldl_add_fin 0 (fun _ _ => rfl), zero_add]
  have htest : (lt (.fin 0) (fin (∑ j ∈ Finset.range n, exp (a j - m))) &&
      (fin (∑ j ∈ Finset.range n, exp (a j - m))).isFinite) = true := by
    simpa [lt] using hpos m
  have hweights : ((range n).map fun j => fin (a j)).map (fun x =>
      Extended.exp exp (x - .fin m)) = (range n).map fun j => .fin (exp (a j - m)) := by
    rw [map_map]
    rfl
  rw [naiveRow, hm]
  simp only [hweights, hsum, htest, if_true]
  apply map_congr_left
  intro dd hdd
  rw [foldl_add_fin 0 (f := fun j => exp (a j - m) /
    (∑ k ∈ Finset.range n, exp (a k - m)) * keyValue d base v j dd), zero_add]
  intro j hj
  rw [map_map, read_map_range hj, Function.comp_apply, Extended.fin_div (hne _ (hpos m)),
    hv.read_eq hj (mem_range.1 hdd)]
  rfl

end Reference

/-! ## Rows at dual numbers -/

section Duals

variable {F : Type} [Field F] {exp sqrt : F → F} {n d base dim : Nat} {xs xs' : List F}
  {q q' k k' v v' : List F}

/-- The values of a buffer and of its tangent. -/
def duals (xs xs' : List F) : List (Extended (DualNumber F)) :=
  zipWith (fun x x' => .fin (dual x x')) xs xs'

theorem length_duals : xs.length = xs'.length → (duals xs xs').length = xs.length := by
  intro h
  rw [duals, length_zipWith, ← h, Nat.min_self]

theorem duals_finite : ∀ x ∈ duals xs xs', x.isFinite = true := by
  intro x hx
  obtain ⟨i, _, rfl⟩ := mem_iff_getElem.1 hx
  simp [duals]

variable {R : Type}

theorem finPart_read_map [Zero R] (xs : List R) (i : Nat) :
    finPart (read (xs.map .fin) i) = xs.getD i 0 := by
  by_cases hi : i < xs.length
  · simp [read, hi, finPart]
  · simp [read, hi, finPart]

theorem finPart_read_duals (h : xs.length = xs'.length) (i : Nat) :
    finPart (read (duals xs xs') i) = dual (xs.getD i 0) (xs'.getD i 0) := by
  by_cases hi : i < xs.length
  · have hi' : i < xs'.length := h ▸ hi
    simp [read, duals, hi, hi', finPart]
  · have hi' : ¬ i < xs'.length := h ▸ hi
    simp [read, duals, hi, hi', finPart, dual]

theorem keyValue_duals (h : xs.length = xs'.length) (i dd : Nat) :
    keyValue d base (duals xs xs') i dd =
      dual (keyValue d base (xs.map .fin) i dd) (keyValue d base (xs'.map .fin) i dd) := by
  rw [keyValue, keyValue, keyValue, finPart_read_duals h, finPart_read_map, finPart_read_map]

theorem scale_duals : (1 : DualNumber F) / liftConst sqrt dim = dual (1 / sqrt dim) 0 := by
  ext
  · rw [fst_div, fst_dual, fst_one, liftConst, fst_inl, fst_natCast]
  · rw [snd_div, snd_dual, snd_one, liftConst, snd_inl, mul_zero, sub_zero, zero_div]

theorem scaledDot_duals (hq : q.length = q'.length) (hk : k.length = k'.length) (scale : F)
    (i j : Nat) :
    scaledDot (dual scale 0) d d base (duals q q') (duals k k') i j =
      dual (scaledDot scale d d base (q.map .fin) (k.map .fin) i j)
        (scoreTangent (Finset.range d) scale (keyValue d base (q.map .fin))
          (keyValue d base (q'.map .fin)) (keyValue d base (k.map .fin))
          (keyValue d base (k'.map .fin)) i j) := by
  have hcell : scaledDot (dual scale 0) d d base (duals q q') (duals k k') i j =
      (∑ dd ∈ Finset.range d, keyValue d base (duals q q') i dd *
        keyValue d base (duals k k') j dd) * dual scale 0 := rfl
  rw [hcell]
  simp only [keyValue_duals hq, keyValue_duals hk]
  ext
  · rw [fst_mul, fst_sum, fst_dual, fst_dual]
    simp only [fst_mul, fst_dual]
    rfl
  · rw [DualNumber.snd_mul, snd_sum, snd_dual, snd_dual, fst_dual, mul_zero, zero_add, scoreTangent]
    simp only [DualNumber.snd_mul, fst_dual, snd_dual]

variable [LinearOrder F]

/-- How the output of a head moves with the operands' tangents. -/
def headTangent (exp : F → F) (scale : F) (n d base : Nat) (q q' k k' v v' : List F) :
    Nat → Nat → F :=
  outputTangent (Finset.range n) (Finset.range d) scale
    (headWeight exp scale n d base (q.map .fin) (k.map .fin)) (keyValue d base (q.map .fin))
    (keyValue d base (q'.map .fin)) (keyValue d base (k.map .fin)) (keyValue d base (k'.map .fin))
    (keyValue d base (v.map .fin)) (keyValue d base (v'.map .fin))

variable [IsStrictOrderedRing F]

theorem dualRow (hpos : ∀ x, 0 < exp x) (scale : F) (hq : q.length = q'.length)
    (hk : k.length = k'.length) (hv : v.length = v'.length)
    (hqHead : HeadOperand n d base (duals q q')) (hkHead : HeadOperand n d base (duals k k'))
    (hvHead : HeadOperand n d base (duals v v')) {i : Nat} (hi : i < n) :
    ∃ o : Nat → DualNumber F,
      naiveRow (liftExp exp) n d d base (duals v v')
          (row n i (naiveScores (dual scale 0) n d d base .none (duals q q') (duals k k'))) =
        (range d).map (fun dd => .fin (o dd)) ∧
      ∀ dd, (o dd).snd = headTangent exp scale n d base q q' k k' v v' i dd := by
  have hn : 0 < n := Nat.zero_lt_of_lt hi
  have hkeys : (Finset.range n).Nonempty := Finset.nonempty_range_iff.2 hn.ne'
  have hsum : ∀ m, 0 < ∑ j ∈ Finset.range n, liftExp exp
      (scaledDot (dual scale 0) d d base (duals q q') (duals k k') i j - m) := by
    intro m
    change fst 0 < fst (∑ j ∈ Finset.range n, liftExp exp
      (scaledDot (dual scale 0) d d base (duals q q') (duals k k') i j - m))
    rw [fst_zero, fst_sum]
    exact Finset.sum_pos (fun _ _ => by simpa [liftExp] using hpos _) hkeys
  have hne : ∀ x : DualNumber F, 0 < x → x ≠ 0 := by
    rintro x hx rfl
    exact lt_irrefl (fst (0 : DualNumber F)) hx
  have hrank : ∀ x y : DualNumber F, x < y ↔ fst x < fst y := fun _ _ => Iff.rfl
  obtain ⟨m, hsup, hm⟩ := naiveRow_fin hrank hn hvHead hsum hne
  simp only [scaledDot_duals hq hk, fst_dual] at hsup
  have hweight : ∀ j, headWeight exp scale n d base (q.map .fin) (k.map .fin) i j =
      softmax exp (fun j => scaledDot scale d d base (q.map .fin) (k.map .fin) i j - m.fst)
        (Finset.range n) j := by
    intro j
    rw [headWeight, denominator, hsup]
    rfl
  refine ⟨_, (congrArg _ (row_naiveScores_none hqHead hkHead hi)).trans hm, ?_⟩
  intro dd
  rw [snd_sum, headTangent, outputTangent]
  apply sum_congr rfl
  intro j _
  rw [DualNumber.snd_mul, fst_weight_div, snd_weight_div hpos hkeys, keyValue_duals hv,
    fst_dual, snd_dual, hweight j, funext hweight]
  simp only [scaledDot_duals hq hk, fst_dual, snd_dual]

/-! ## Sums over all cells -/

omit [LinearOrder F] [IsStrictOrderedRing F] in
theorem sum_range_mul [AddCommMonoid R] (f : Nat → R) (m w : Nat) :
    ∑ x ∈ Finset.range (m * w), f x =
      ∑ r ∈ Finset.range m, ∑ c ∈ Finset.range w, f (r * w + c) := by
  induction m with
  | zero => simp
  | succ m ih => rw [Nat.succ_mul, Finset.sum_range_add, ih, Finset.sum_range_succ]

theorem dot_eq_sum [Semiring R] {N : Nat} {ys zs : List R} (hy : ys.length = N) (hz : zs.length = N) :
    dot ys zs = ∑ x ∈ Finset.range N, ys.getD x 0 * zs.getD x 0 := by
  have hmap : zipWith (· * ·) ys zs = (range N).map fun x => ys.getD x 0 * zs.getD x 0 := by
    apply ext_getElem
    · simp [hy, hz]
    · intro x hx _
      have hlt : x < N := by simpa [hy, hz] using hx
      have hxy : x < ys.length := hy ▸ hlt
      have hxz : x < zs.length := hz ▸ hlt
      simp [hxy, hxz]
  rw [dot, hmap]
  rfl

/-- A product of two buffers, head by head and row by row. -/
theorem dot_heads [Semiring R] {B n d : Nat} {ys zs : List R} (hy : ys.length = B * (n * d))
    (hz : zs.length = B * (n * d)) :
    dot ys zs = ∑ bh ∈ Finset.range B, ∑ i ∈ Finset.range n, ∑ dd ∈ Finset.range d,
      keyValue d (bh * (n * d)) (ys.map .fin) i dd *
        keyValue d (bh * (n * d)) (zs.map .fin) i dd := by
  rw [dot_eq_sum hy hz, sum_range_mul]
  apply sum_congr rfl
  intro bh _
  rw [sum_range_mul]
  simp only [keyValue, finPart_read_map, Nat.add_assoc]

/-! ## Cells of the outputs -/

theorem map_fin_finPart [Zero R] {ys : List (Extended R)} :
    (∀ y ∈ ys, y.isFinite = true) → (ys.map finPart).map .fin = ys := by
  intro h
  rw [map_map]
  exact (map_congr_left fun y hy => (eq_fin_finPart (h y hy)).symm).trans (map_id ys)

theorem keyValue_flatMap [Zero R] {B n d bh i dd : Nat} {f : Nat → List (Extended R)}
    (hf : ∀ bh, (f bh).length = n * d) (hbh : bh < B) (hi : i < n) (hdd : dd < d) :
    keyValue d (bh * (n * d)) ((range B).flatMap f) i dd = finPart (read (f bh) (i * d + dd)) := by
  rw [keyValue, Nat.add_assoc, read_flatMap_range (fun bh _ => hf bh) hbh (cell_lt hi hdd)]

variable {c : Nat → Nat → F} {src : List (Extended F)}

omit [LinearOrder F] [IsStrictOrderedRing F] in
theorem finPart_read_sumRows {i dd : Nat} (hi : i < n) (hdd : dd < d) :
    finPart (read (sumRows n d base c src) (i * d + dd)) =
      ∑ b ∈ Finset.range n, c i b * keyValue d base src b dd := by
  rw [sumRows, read_flatMap_range (fun _ _ => by simp) hi hdd, read_map_range hdd]
  rfl

omit [LinearOrder F] [IsStrictOrderedRing F] in
theorem sumRows_finite : ∀ x ∈ sumRows n d base c src, x.isFinite = true := by
  intro x hx
  obtain ⟨a, _, hx⟩ := mem_flatMap.1 hx
  obtain ⟨dd, _, rfl⟩ := mem_map.1 hx
  rfl

variable {shape : AttentionShape} {dO : List F}

/-- The rows of the reference at dual numbers. -/
def dualRows (exp sqrt : F → F) (shape : AttentionShape) (q q' k k' v v' : List F) :
    List (Extended (DualNumber F)) :=
  (range (shape.batch * shape.heads)).flatMap fun bh =>
    naiveHeadRows (liftExp exp) (dual (1 / sqrt shape.dim) 0) shape .none (duals q q')
      (duals k k') (duals v v') (bh * (shape.seq * shape.dim))

/-- Operands and tangents of the shape's length. -/
structure TangentInputs (shape : AttentionShape) (q q' k k' v v' : List F) : Prop where
  q : q.length = shape.bufferLen
  q' : q'.length = shape.bufferLen
  k : k.length = shape.bufferLen
  k' : k'.length = shape.bufferLen
  v : v.length = shape.bufferLen
  v' : v'.length = shape.bufferLen

omit [LinearOrder F] [IsStrictOrderedRing F] in
theorem headOperand_duals (h : xs.length = shape.bufferLen) (h' : xs'.length = shape.bufferLen)
    {bh : Nat} (hbh : bh < shape.batch * shape.heads) :
    HeadOperand shape.seq shape.dim (bh * (shape.seq * shape.dim)) (duals xs xs') :=
  headOperand ((length_duals (h.trans h'.symm)).trans h) duals_finite hbh

section

variable (hpos : ∀ x, 0 < exp x)

include hpos

section

variable (h : TangentInputs shape q q' k k' v v')

include h

theorem dualRows_row {bh i : Nat} (hbh : bh < shape.batch * shape.heads) (hi : i < shape.seq) :
    ∃ o : Nat → DualNumber F,
      naiveRow (liftExp exp) shape.seq shape.dim shape.dim (bh * (shape.seq * shape.dim))
          (duals v v') (row shape.seq i (naiveScores (dual (1 / sqrt shape.dim) 0) shape.seq
            shape.dim shape.dim (bh * (shape.seq * shape.dim)) .none (duals q q')
              (duals k k'))) =
        (range shape.dim).map (fun dd => .fin (o dd)) ∧
      ∀ dd, (o dd).snd = headTangent exp (1 / sqrt shape.dim) shape.seq shape.dim
        (bh * (shape.seq * shape.dim)) q q' k k' v v' i dd :=
  dualRow hpos (1 / sqrt shape.dim) (h.q.trans h.q'.symm) (h.k.trans h.k'.symm)
    (h.v.trans h.v'.symm) (headOperand_duals h.q h.q' hbh) (headOperand_duals h.k h.k' hbh)
    (headOperand_duals h.v h.v' hbh) hi

theorem dualRows_finite :
    ∀ x ∈ dualRows exp sqrt shape q q' k k' v v', x.isFinite = true := by
  intro x hx
  obtain ⟨bh, hbh, hx⟩ := mem_flatMap.1 hx
  obtain ⟨i, hi, hx⟩ := mem_flatMap.1 hx
  obtain ⟨o, ho, _⟩ := dualRows_row hpos h (mem_range.1 hbh) (mem_range.1 hi)
  rw [ho] at hx
  obtain ⟨dd, _, rfl⟩ := mem_map.1 hx
  rfl

theorem snd_dualRows {bh i dd : Nat} (hbh : bh < shape.batch * shape.heads) (hi : i < shape.seq)
    (hdd : dd < shape.dim) :
    (keyValue shape.dim (bh * (shape.seq * shape.dim)) (dualRows exp sqrt shape q q' k k' v v') i
        dd).snd =
      headTangent exp (1 / sqrt shape.dim) shape.seq shape.dim (bh * (shape.seq * shape.dim)) q q'
        k k' v v' i dd := by
  obtain ⟨o, ho, hsnd⟩ := @dualRows_row F _ exp sqrt q q' k k' v v' _ _ shape hpos h bh i hbh hi
  rw [dualRows, keyValue_flatMap (fun _ => length_naiveHeadRows) hbh hi hdd,
    naiveHeadRows, read_flatMap_range (fun _ _ => length_naiveRow) hi hdd, ho, read_map_range hdd]
  exact hsnd dd

end

theorem naiveForward_duals (hdim : 1 ≤ shape.dim) (h : TangentInputs shape q q' k k' v v')
    {out : List (Extended (DualNumber F))} (hout : out.length = shape.bufferLen) :
    naiveForward (liftExp exp) (liftConst sqrt) shape (duals q q') (duals k k') (duals v v') out =
      .ok (((dualRows exp sqrt shape q q' k k' v v').map finPart).map .fin) := by
  have hchecked : Checked shape (duals q q') (duals k k') (duals v v') out .none :=
    { dim := hdim
      q_length := (length_duals (h.q.trans h.q'.symm)).trans h.q
      k_length := (length_duals (h.k.trans h.k'.symm)).trans h.k
      v_length := (length_duals (h.v.trans h.v'.symm)).trans h.v
      out_length := hout
      mask := rfl
      q_finite := duals_finite
      k_finite := duals_finite
      v_finite := duals_finite }
  rw [naiveForward, naiveForwardMasked_rows hchecked.validate_eq rfl hout, scale_duals,
    map_fin_finPart (dualRows_finite hpos h)]
  rfl

/-! ## Gradients of all heads -/

end

omit [IsStrictOrderedRing F] in
theorem allGradients_finite {q k v dO : List (Extended F)} :
    (∀ x ∈ (allGradients exp sqrt shape q k v dO).dq, x.isFinite = true) ∧
      (∀ x ∈ (allGradients exp sqrt shape q k v dO).dk, x.isFinite = true) ∧
        ∀ x ∈ (allGradients exp sqrt shape q k v dO).dv, x.isFinite = true := by
  refine ⟨?_, ?_, ?_⟩
  all_goals
    intro x hx
    obtain ⟨bh, _, hx⟩ := mem_flatMap.1 hx
    exact sumRows_finite x hx

/-- The kernel leaves `dq`, `dk` and `dv`, whatever the buffers held. -/
def Writes (exp sqrt : F → F) (shape : AttentionShape) (q k v dO dq dk dv : List F) : Prop :=
  ∀ g : Gradients F, g.dq.length = shape.bufferLen → g.dk.length = shape.bufferLen →
    g.dv.length = shape.bufferLen →
      flashBackward exp sqrt shape (q.map .fin) (k.map .fin) (v.map .fin) (dO.map .fin) g =
        .ok { dq := dq.map .fin, dk := dk.map .fin, dv := dv.map .fin }

/-- For all tangents, the `ε`-part of `Σ dO * O` is `Σ dQ * Q' + Σ dK * K' + Σ dV * V'`. -/
def IsAdjoint (exp sqrt : F → F) (shape : AttentionShape) (q k v dO dq dk dv : List F) : Prop :=
  ∀ q' k' v' : List F, q'.length = shape.bufferLen → k'.length = shape.bufferLen →
    v'.length = shape.bufferLen → ∀ out : List (Extended (DualNumber F)),
      out.length = shape.bufferLen → ∃ o : List (DualNumber F),
        naiveForward (liftExp exp) (liftConst sqrt) shape (duals q q') (duals k k')
          (duals v v') out = .ok (o.map .fin) ∧ o.length = shape.bufferLen ∧
        (dot (dO.map inl) o).snd = dot dq q' + dot dk k' + dot dv v'

/-- Block `bh` of the gradients is the same for all operands with the same blocks `bh`. -/
def HeadLocal (exp sqrt : F → F) (shape : AttentionShape) (q k v dO dq dk dv : List F) : Prop :=
  ∀ q₂ k₂ v₂ dO₂ dq₂ dk₂ dv₂ : List F, q₂.length = shape.bufferLen →
    k₂.length = shape.bufferLen → v₂.length = shape.bufferLen → dO₂.length = shape.bufferLen →
      Writes exp sqrt shape q₂ k₂ v₂ dO₂ dq₂ dk₂ dv₂ →
        ∀ bh < shape.batch * shape.heads, let block := row (shape.seq * shape.dim) bh
          block q₂ = block q → block k₂ = block k → block v₂ = block v → block dO₂ = block dO →
            block dq₂ = block dq ∧ block dk₂ = block dk ∧ block dv₂ = block dv

theorem writes_allGradients (hpos : ∀ x, 0 < exp x) (hq : q.length = shape.bufferLen)
    (hk : k.length = shape.bufferLen) (hv : v.length = shape.bufferLen)
    (hdO : dO.length = shape.bufferLen) :
    let g := allGradients exp sqrt shape (q.map .fin) (k.map .fin) (v.map .fin) (dO.map .fin)
    Writes exp sqrt shape q k v dO (g.dq.map finPart) (g.dk.map finPart) (g.dv.map finPart) := by
  intro _ g hdq hdk hdv
  have hfinite : ∀ (xs : List F), ∀ x ∈ xs.map fin, x.isFinite = true := by
    intro xs x hx
    obtain ⟨y, _, rfl⟩ := mem_map.1 hx
    rfl
  have hlen : ∀ {xs : List F}, xs.length = shape.bufferLen →
      (xs.map fin).length = shape.bufferLen := fun h => length_map _ |>.trans h
  rw [map_fin_finPart allGradients_finite.1, map_fin_finPart allGradients_finite.2.1,
    map_fin_finPart allGradients_finite.2.2]
  exact flashBackward_eq hpos
    { q_length := hlen hq
      k_length := hlen hk
      v_length := hlen hv
      dO_length := hlen hdO
      q_finite := hfinite q
      k_finite := hfinite k
      v_finite := hfinite v
      dO_finite := hfinite dO } hdq hdk hdv

theorem snd_dot_inl (hpos : ∀ x, 0 < exp x) (h : TangentInputs shape q q' k k' v v')
    (hdO : dO.length = shape.bufferLen) :
    (dot (dO.map inl) ((dualRows exp sqrt shape q q' k k' v v').map finPart)).snd =
      ∑ bh ∈ Finset.range (shape.batch * shape.heads), ∑ i ∈ Finset.range shape.seq,
        ∑ dd ∈ Finset.range shape.dim,
          keyValue shape.dim (bh * (shape.seq * shape.dim)) (dO.map .fin) i dd *
            headTangent exp (1 / sqrt shape.dim) shape.seq shape.dim
              (bh * (shape.seq * shape.dim)) q q' k k' v v' i dd := by
  have hrows : (dualRows exp sqrt shape q q' k k' v v').length =
      shape.batch * shape.heads * (shape.seq * shape.dim) :=
    length_flatMap_range fun _ _ => length_naiveHeadRows
  have hinl : ∀ base i dd, keyValue shape.dim base ((dO.map inl).map fin) i dd =
      (inl (keyValue shape.dim base (dO.map .fin) i dd) : DualNumber F) := by
    intro base i dd
    rw [keyValue, keyValue, finPart_read_map, finPart_read_map]
    generalize base + i * shape.dim + dd = x
    by_cases hx : x < dO.length
    · simp [hx]
    · simp [hx]
  rw [dot_heads (by rw [length_map, hdO, bufferLen_eq]) (by rw [length_map, hrows]),
    map_fin_finPart (dualRows_finite hpos h), snd_sum]
  apply sum_congr rfl
  intro bh hbh
  rw [snd_sum]
  apply sum_congr rfl
  intro i hi
  rw [snd_sum]
  apply sum_congr rfl
  intro dd hdd
  rw [hinl, snd_inl_mul,
    snd_dualRows hpos h (Finset.mem_range.1 hbh) (Finset.mem_range.1 hi) (Finset.mem_range.1 hdd)]

omit [LinearOrder F] [IsStrictOrderedRing F] in
theorem dot_sumRows {c : Nat → Nat → Nat → F} {ys zs : List F}
    (hy : ys.map .fin = (range (shape.batch * shape.heads)).flatMap fun bh =>
      sumRows shape.seq shape.dim (bh * (shape.seq * shape.dim)) (c bh) src)
    (hz : zs.length = shape.bufferLen) :
    dot ys zs = ∑ bh ∈ Finset.range (shape.batch * shape.heads), ∑ a ∈ Finset.range shape.seq,
      ∑ dd ∈ Finset.range shape.dim,
        (∑ b ∈ Finset.range shape.seq,
          c bh a b * keyValue shape.dim (bh * (shape.seq * shape.dim)) src b dd) *
            keyValue shape.dim (bh * (shape.seq * shape.dim)) (zs.map .fin) a dd := by
  have hlen : ys.length = shape.batch * shape.heads * (shape.seq * shape.dim) := by
    rw [← length_map (f := fin), hy]
    exact length_flatMap_range fun _ _ => length_sumRows
  rw [dot_heads hlen (hz.trans (bufferLen_eq shape)), hy]
  apply sum_congr rfl
  intro bh hbh
  apply sum_congr rfl
  intro a ha
  apply sum_congr rfl
  intro dd hdd
  rw [keyValue_flatMap (fun _ => length_sumRows) (Finset.mem_range.1 hbh) (Finset.mem_range.1 ha)
    (Finset.mem_range.1 hdd), finPart_read_sumRows (Finset.mem_range.1 ha) (Finset.mem_range.1 hdd)]

theorem isAdjoint_allGradients (hpos : ∀ x, 0 < exp x) (hdim : 1 ≤ shape.dim)
    (hq : q.length = shape.bufferLen) (hk : k.length = shape.bufferLen)
    (hv : v.length = shape.bufferLen) (hdO : dO.length = shape.bufferLen) :
    let g := allGradients exp sqrt shape (q.map .fin) (k.map .fin) (v.map .fin) (dO.map .fin)
    IsAdjoint exp sqrt shape q k v dO (g.dq.map finPart) (g.dk.map finPart) (g.dv.map finPart) := by
  intro _ q' k' v' hq' hk' hv' out hout
  have h : TangentInputs shape q q' k k' v v' :=
    { q := hq, q' := hq', k := hk, k' := hk', v := hv, v' := hv' }
  refine ⟨_, naiveForward_duals hpos hdim h hout, ?_, ?_⟩
  · rw [length_map, bufferLen_eq]
    exact length_flatMap_range fun _ _ => length_naiveHeadRows
  · have hfinite := @allGradients_finite F _ exp sqrt _ shape (q.map .fin) (k.map .fin)
      (v.map .fin) (dO.map .fin)
    refine (snd_dot_inl hpos h hdO).trans (Eq.trans ?_ (congrArg₂ (· + ·) (congrArg₂ (· + ·)
      (dot_sumRows (map_fin_finPart hfinite.1) hq')
      (dot_sumRows (map_fin_finPart hfinite.2.1) hk'))
      (dot_sumRows (map_fin_finPart hfinite.2.2) hv')).symm)
    rw [← Finset.sum_add_distrib, ← Finset.sum_add_distrib]
    apply sum_congr rfl
    intro bh _
    exact sum_outputTangent

/-! ## Heads do not mix -/

theorem row_map {α β : Type} (f : α → β) (w r : Nat) (ys : List α) :
    row w r (ys.map f) = (row w r ys).map f := by
  rw [row, row, ← map_drop, ← map_take]

omit [LinearOrder F] [IsStrictOrderedRing F] in
theorem sameHead_of_row {bh : Nat} {ys zs : List F} :
    row (n * d) bh ys = row (n * d) bh zs →
      SameHead n d (bh * (n * d)) (ys.map .fin) (zs.map .fin) := by
  intro hrow i hi dd hdd
  rw [keyValue, keyValue, Nat.add_assoc, ← read_row (cell_lt hi hdd), row_map, hrow, ← row_map,
    read_row (cell_lt hi hdd)]

omit [IsStrictOrderedRing F] in
theorem row_allGradients {q k v dO : List (Extended F)} {bh : Nat}
    (hbh : bh < shape.batch * shape.heads) :
    let g := allGradients exp sqrt shape q k v dO
    let head := headGradients exp (1 / sqrt shape.dim) shape.seq shape.dim q k v dO
      (bh * (shape.seq * shape.dim))
    row (shape.seq * shape.dim) bh (g.dq.map finPart) = head.dq.map finPart ∧
      row (shape.seq * shape.dim) bh (g.dk.map finPart) = head.dk.map finPart ∧
        row (shape.seq * shape.dim) bh (g.dv.map finPart) = head.dv.map finPart := by
  refine ⟨?_, ?_, ?_⟩
  all_goals
    rw [row_map]
    exact congrArg _ (row_flatMap_range (fun _ _ => length_sumRows) bh hbh)

omit [IsStrictOrderedRing F] in
/-- The kernel leaves one result. -/
theorem Writes.unique {dq dk dv dq₂ dk₂ dv₂ : List F} (h : Writes exp sqrt shape q k v dO dq dk dv)
    (h₂ : Writes exp sqrt shape q k v dO dq₂ dk₂ dv₂) : dq = dq₂ ∧ dk = dk₂ ∧ dv = dv₂ := by
  have hlen : (replicate shape.bufferLen (fin (0 : F))).length = shape.bufferLen :=
    length_replicate
  have heq := (h ⟨_, _, _⟩ hlen hlen hlen).symm.trans (h₂ ⟨_, _, _⟩ hlen hlen hlen)
  have hinj : Function.Injective (map (fin : F → Extended F)) :=
    map_injective_iff.2 fun x y hxy => fin.inj hxy
  have hg := Gradients.mk.inj (Except.ok.inj heq)
  exact ⟨hinj hg.1, hinj hg.2.1, hinj hg.2.2⟩

theorem headLocal_allGradients (hpos : ∀ x, 0 < exp x) :
    let g := allGradients exp sqrt shape (q.map .fin) (k.map .fin) (v.map .fin) (dO.map .fin)
    HeadLocal exp sqrt shape q k v dO (g.dq.map finPart) (g.dk.map finPart) (g.dv.map finPart) := by
  intro _ q₂ k₂ v₂ dO₂ dq₂ dk₂ dv₂ hq₂ hk₂ hv₂ hdO₂ hwrites bh hbh block hq hk hv hdO
  obtain ⟨rfl, rfl, rfl⟩ := hwrites.unique (writes_allGradients hpos hq₂ hk₂ hv₂ hdO₂)
  obtain ⟨hdq, hdk, hdv⟩ := @row_allGradients F _ exp sqrt _ shape (q.map .fin) (k.map .fin)
    (v.map .fin) (dO.map .fin) bh hbh
  obtain ⟨hdq₂, hdk₂, hdv₂⟩ := @row_allGradients F _ exp sqrt _ shape (q₂.map .fin) (k₂.map .fin)
    (v₂.map .fin) (dO₂.map .fin) bh hbh
  have hhead := @headGradients_congr F _ _ shape.seq shape.dim (bh * (shape.seq * shape.dim)) exp
    (1 / sqrt shape.dim) _ _ _ _ _ _ _ _ (sameHead_of_row hq) (sameHead_of_row hk)
      (sameHead_of_row hv) (sameHead_of_row hdO)
  rw [hhead] at hdq₂ hdk₂ hdv₂
  exact ⟨hdq₂.trans hdq.symm, hdk₂.trans hdk.symm, hdv₂.trans hdv.symm⟩

/-! ## The adjoint -/

/-- The backward kernel ends with gradients that are the adjoint of the reference and do not mix
heads, whatever the output buffers held. -/
def BackwardAdjoint (exp sqrt : F → F) (shape : AttentionShape) (q k v dO : List F) : Prop :=
  ∃ dq dk dv : List F, Writes exp sqrt shape q k v dO dq dk dv ∧
    IsAdjoint exp sqrt shape q k v dO dq dk dv ∧ HeadLocal exp sqrt shape q k v dO dq dk dv

theorem flashBackward_adjoint (hpos : ∀ x, 0 < exp x) (hdim : 1 ≤ shape.dim)
    (hq : q.length = shape.bufferLen) (hk : k.length = shape.bufferLen)
    (hv : v.length = shape.bufferLen) (hdO : dO.length = shape.bufferLen) :
    BackwardAdjoint exp sqrt shape q k v dO :=
  ⟨_, _, _, writes_allGradients hpos hq hk hv hdO,
    isAdjoint_allGradients hpos hdim hq hk hv hdO, headLocal_allGradients hpos⟩

/-- Two keys of one number each. -/
theorem flashBackward_adjoint_twoKeys :
    BackwardAdjoint (fun _ : ℚ => 1) (fun _ => 1) twoKeys [0, 0] [0, 0] [1, 2] [1, 1] :=
  flashBackward_adjoint (by simp) (by decide) rfl rfl rfl rfl

end Duals

end Attention
end Rustorch
