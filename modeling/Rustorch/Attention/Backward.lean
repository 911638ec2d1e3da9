import Rustorch.Attention.Equivalence
import Rustorch.Lib.SoftmaxAdjoint

/-!
# Attention backward

`flash_backward` recomputes the weights of every head and makes five products of them.  Each of the
three that fill an output adds to it row by row (`accumulateRows`).  A head's block is zero before
its turn, so it ends as a sum over the rows of the head (`backwardHead_eq`).
-/

namespace Rustorch
namespace Attention

open DualNumbers OnlineSoftmax Rows SoftmaxAdjoint List
open Extended (fin fin_mul foldl_add_fin lt)

variable {F : Type}

/-- The three output buffers. -/
structure Gradients (F : Type) where
  dq : List (Extended F)
  dk : List (Extended F)
  dv : List (Extended F)

section Model

variable [Field F] [LinearOrder F] (exp sqrt : F → F)

/-- One row of the recomputed weights. -/
def recomputeRow (scale : F) (n d base : Nat) (q k : List (Extended F)) (i : Nat) :
    List (Extended F) :=
  let scores := (range n).map fun j =>
    (range d).foldl
      (fun s dd => s + read q (base + i * d + dd) * read k (base + j * d + dd)) (.fin 0) *
        .fin scale
  let rowMax := scores.foldl (fun m x => if lt m x then x else m) .negInf
  let weights := scores.map fun x => Extended.exp exp (x - rowMax)
  let rowSum := weights.foldl (· + ·) (.fin 0)
  if lt (.fin 0) rowSum && rowSum.isFinite then
    weights.map (· / rowSum)
  else
    weights

/-- `dst_a += coef(a, b) * src_b`, for every row `a` and every row `b` in turn. -/
def accumulateRows (n d base : Nat) (coef : Nat → Nat → Extended F) (src dst : List (Extended F)) :
    List (Extended F) :=
  (range n).foldl
    (fun dst a => (range n).foldl
      (fun dst b =>
        let off := base + a * d
        writeAt off ((range d).map fun dd =>
          read dst (off + dd) + coef a b * read src (base + b * d + dd)) dst) dst) dst

/-- `dP = dO · Vᵀ`. -/
def weightCotangents (n d base : Nat) (v dO : List (Extended F)) : List (Extended F) :=
  (range n).flatMap fun i => (range n).map fun j =>
    (range d).foldl
      (fun acc dd => acc + read dO (base + i * d + dd) * read v (base + j * d + dd)) (.fin 0)

/-- `dS = P · (dP - Σ P · dP)`, row by row. -/
def scoreCotangents (n : Nat) (p dp : List (Extended F)) : List (Extended F) :=
  (range n).flatMap fun i =>
    let rowDot := (range n).foldl
      (fun acc j => acc + read p (i * n + j) * read dp (i * n + j)) (.fin 0)
    (range n).map fun j => read p (i * n + j) * (read dp (i * n + j) - rowDot)

def backwardHead (scale : F) (n d : Nat) (q k v dO : List (Extended F)) (base : Nat)
    (g : Gradients F) : Gradients F :=
  let p := (range n).flatMap (recomputeRow exp scale n d base q k)
  let dv := accumulateRows n d base (fun j i => read p (i * n + j)) dO g.dv
  let dp := weightCotangents n d base v dO
  let ds := scoreCotangents n p dp
  let dq := accumulateRows n d base (fun i j => .fin scale * read ds (i * n + j)) k g.dq
  let dk := accumulateRows n d base (fun j i => .fin scale * read ds (i * n + j)) q g.dk
  { dq := dq, dk := dk, dv := dv }

/-- The buffers that `flash_backward` leaves. -/
def flashBackward (shape : AttentionShape) (q k v dO : List (Extended F)) (g : Gradients F) :
    Except AttentionError (Gradients F) :=
  let n := shape.seq
  let d := shape.dim
  let expected := shape.bufferLen
  match [("q", q), ("k", k), ("v", v), ("do", dO)].find? fun buf => buf.2.length ≠ expected with
  | some (which, buf) => .error (.bufferShapeMismatch which expected buf.length)
  | none =>
    if g.dq.length ≠ expected ∨ g.dk.length ≠ expected ∨ g.dv.length ≠ expected then
      .error (.outputShapeMismatch expected (max (max g.dq.length g.dk.length) g.dv.length))
    else if n = 0 then
      .ok g
    else
      let scale := 1 / sqrt d
      let zeroed : Gradients F :=
        { dq := g.dq.map fun _ => .fin 0
          dk := g.dk.map fun _ => .fin 0
          dv := g.dv.map fun _ => .fin 0 }
      let sH := n * d
      let sB := shape.heads * sH
      .ok ((range shape.batch).foldl
        (fun g b => (range shape.heads).foldl
          (fun g h => backwardHead exp scale n d q k v dO (b * sB + h * sH) g) g) zeroed)

end Model

/-! ## Cells -/

section Cells

variable {xs ys : List (Extended F)} {off : Nat}

theorem read_writeAt {i : Nat} : off + ys.length ≤ xs.length → i < ys.length →
    read (writeAt off ys xs) (off + i) = read ys i := by
  intro hfit hi
  rw [read, getD_eq_getElem?_getD, getElem?_writeAt hfit, if_pos (by omega),
    Nat.add_sub_cancel_left, ← getD_eq_getElem?_getD]
  rfl

theorem writeAt_read {d : Nat} : off + d ≤ xs.length →
    writeAt off ((range d).map fun i => read xs (off + i)) xs = xs := by
  intro hfit
  apply ext_getElem?
  intro x
  rw [getElem?_writeAt (by simpa using hfit)]
  by_cases hx : off ≤ x ∧ x < off + d
  · rw [if_pos (by simpa using hx)]
    obtain ⟨i, rfl⟩ := Nat.exists_eq_add_of_le hx.1
    have hlt : off + i < xs.length := by omega
    have hi : i < d := by omega
    simp [read, hi, hlt]
  · rw [if_neg (by simpa using hx)]

end Cells

section Sums

variable [Field F] [LinearOrder F] {n d base : Nat} {src dst : List (Extended F)}

/-! ## Accumulated rows -/

/-- Turn after turn, a row of finite cells collects the products. -/
theorem accumulateRow_eq {off m : Nat} {coef : Nat → Extended F} {c z : Nat → F}
    (hsrc : HeadOperand n d base src) (hfit : off + d ≤ dst.length)
    (hz : ∀ dd < d, read dst (off + dd) = .fin (z dd)) : m ≤ n →
    (∀ b < m, coef b = .fin (c b)) →
      (range m).foldl
          (fun dst b => writeAt off ((range d).map fun dd =>
            read dst (off + dd) + coef b * read src (base + b * d + dd)) dst) dst =
        writeAt off ((range d).map fun dd =>
          .fin (z dd + ∑ b ∈ Finset.range m, c b * keyValue d base src b dd)) dst := by
  induction m with
  | zero =>
    intro _ _
    have hrow : (range d).map (fun dd => fin (z dd +
        ∑ b ∈ Finset.range 0, c b * keyValue d base src b dd)) =
          (range d).map fun dd => read dst (off + dd) := by
      apply map_congr_left
      intro dd hdd
      rw [hz dd (mem_range.1 hdd), Finset.sum_range_zero, add_zero]
    rw [hrow, writeAt_read hfit]
    rfl
  | succ m ih =>
    intro hm hcoef
    have hlen : ((range d).map fun dd => fin (z dd +
        ∑ b ∈ Finset.range m, c b * keyValue d base src b dd)).length = d := by
      simp
    have hstep : ∀ dd < d, read (writeAt off ((range d).map fun dd => fin (z dd +
        ∑ b ∈ Finset.range m, c b * keyValue d base src b dd)) dst) (off + dd) +
          coef m * read src (base + m * d + dd) =
            .fin (z dd + ∑ b ∈ Finset.range (m + 1), c b * keyValue d base src b dd) := by
      intro dd hdd
      rw [read_writeAt (by rwa [hlen]) (by rwa [hlen]), read_map_range hdd,
        hcoef m (Nat.lt_succ_self m), hsrc.read_eq hm hdd, fin_mul, Extended.fin_add,
        Finset.sum_range_succ, add_assoc]
      rfl
    rw [range_succ, foldl_append,
      ih (Nat.le_of_succ_le hm) (fun b hb => hcoef b (Nat.lt_succ_of_lt hb)), foldl_cons,
      foldl_nil, map_congr_left fun dd hdd => hstep dd (mem_range.1 hdd)]
    exact writeAt_writeAt_self (by simp) (by rwa [hlen])

/-- The rows `Σ c(a, b) * src_b`. -/
def sumRows (n d base : Nat) (c : Nat → Nat → F) (src : List (Extended F)) : List (Extended F) :=
  (range n).flatMap fun a => (range d).map fun dd =>
    .fin (∑ b ∈ Finset.range n, c a b * keyValue d base src b dd)

variable {c : Nat → Nat → F}

omit [LinearOrder F] in
theorem length_sumRows : (sumRows n d base c src).length = n * d :=
  length_flatMap_range fun _ _ => by simp

omit [Field F] [LinearOrder F] in
theorem read_of_drop_eq {xs ys : List (Extended F)} {off i : Nat} :
    xs.drop off = ys.drop off → read xs (off + i) = read ys (off + i) := by
  intro h
  rw [← read_drop, ← read_drop, h]

theorem accumulateRows_eq {coef : Nat → Nat → Extended F} (hsrc : HeadOperand n d base src)
    (hfit : base + n * d ≤ dst.length) (hzero : ∀ x < n * d, read dst (base + x) = .fin 0)
    (hcoef : ∀ a < n, ∀ b < n, coef a b = .fin (c a b)) :
    accumulateRows n d base coef src dst = writeAt base (sumRows n d base c src) dst := by
  apply foldl_eq_writeAt_fresh (fun _ _ => by simp) dst hfit
  intro a ha buf hlen hfresh
  have hrow : base + a * d + d ≤ buf.length := by
    have hle : (a + 1) * d ≤ n * d := Nat.mul_le_mul_right d ha
    rw [Nat.succ_mul] at hle
    omega
  have hz : ∀ dd < d, read buf (base + a * d + dd) = .fin ((fun _ => (0 : F)) dd) := by
    intro dd hdd
    rw [read_of_drop_eq hfresh, Nat.add_assoc]
    exact hzero _ (cell_lt ha hdd)
  rw [accumulateRow_eq hsrc hrow hz le_rfl (hcoef a ha)]
  simp only [zero_add]

/-! ## One head -/

section Head

variable [IsStrictOrderedRing F] {exp : F → F} {scale : F} {q k v dO : List (Extended F)}

/-- The weights of a query, a softmax of its scores. -/
def headWeight (exp : F → F) (scale : F) (n d base : Nat) (q k : List (Extended F)) (i j : Nat) :
    F :=
  let score := fun j => WithBot.some (scaledDot scale d d base q k i j)
  weight exp ((Finset.range n).sup score) (score j) / denominator exp score (Finset.range n)

/-- The cotangent of a score. -/
def headCotangent (exp : F → F) (scale : F) (n d base : Nat) (q k v dO : List (Extended F)) :
    Nat → Nat → F :=
  scoreCotangent (Finset.range n) (Finset.range d) (headWeight exp scale n d base q k)
    (keyValue d base v) (keyValue d base dO)

theorem recomputeRow_eq (hpos : ∀ x, 0 < exp x) (hq : HeadOperand n d base q)
    (hk : HeadOperand n d base k) {i : Nat} (hi : i < n) :
    recomputeRow exp scale n d base q k i =
      (range n).map fun j => .fin (headWeight exp scale n d base q k i j) := by
  have hkeys : (Finset.range n).Nonempty :=
    Finset.nonempty_range_iff.2 (Nat.zero_lt_of_lt hi).ne'
  have hne := @sup_coe_ne_bot _ F _ (scaledDot scale d d base q k i) _ hkeys
  have hdenom := denominator_pos hpos hne
  have hscores : ((range n).map fun j =>
      (range d).foldl
        (fun s dd => s + read q (base + i * d + dd) * read k (base + j * d + dd)) (.fin 0) *
          .fin scale) =
        scoreRow (fun j => WithBot.some (scaledDot scale d d base q k i j)) n := by
    apply map_congr_left
    intro j hj
    rw [foldl_add_fin 0 (f := fun dd =>
      finPart (read q (base + i * d + dd)) * finPart (read k (base + j * d + dd))), zero_add]
    · rfl
    · intro dd hdd
      rw [hq.read_eq hi hdd, hk.read_eq (mem_range.1 hj) hdd]
      rfl
  rw [recomputeRow, hscores, tileMax_scoreRow]
  simp only [map_exp_scoreRow hne, foldl_add_weights, positive_finite hdenom, if_true]
  rw [map_map]
  apply map_congr_left
  intro j _
  exact Extended.fin_div hdenom.ne'

variable {f : Nat → List (Extended F)}

omit [Field F] [LinearOrder F] [IsStrictOrderedRing F] in
/-- A cell of a buffer that was put together from rows. -/
theorem read_flatMap_range {m w i j : Nat} (hf : ∀ i < m, (f i).length = w) (hi : i < m)
    (hj : j < w) : read ((range m).flatMap f) (i * w + j) = read (f i) j := by
  rw [← read_row hj, row_flatMap_range hf i hi]

omit [IsStrictOrderedRing F] in
theorem read_weightCotangents (hv : HeadOperand n d base v) (hdO : HeadOperand n d base dO)
    {i j : Nat} (hi : i < n) (hj : j < n) :
    read (weightCotangents n d base v dO) (i * n + j) =
      .fin (∑ dd ∈ Finset.range d, keyValue d base dO i dd * keyValue d base v j dd) := by
  rw [weightCotangents, read_flatMap_range (fun _ _ => by simp) hi hj, read_map_range hj,
    foldl_add_fin 0 (f := fun dd => keyValue d base dO i dd * keyValue d base v j dd),
    zero_add]
  intro dd hdd
  rw [hdO.read_eq hi hdd, hv.read_eq hj hdd]
  rfl

omit [IsStrictOrderedRing F] in
theorem read_scoreCotangents {p dp : List (Extended F)} {w c : Nat → Nat → F}
    (hp : ∀ i < n, ∀ j < n, read p (i * n + j) = .fin (w i j))
    (hdp : ∀ i < n, ∀ j < n, read dp (i * n + j) = .fin (c i j)) {i j : Nat} (hi : i < n)
    (hj : j < n) :
    read (scoreCotangents n p dp) (i * n + j) = .fin (jacobian (w i) (Finset.range n) (c i) j) := by
  rw [scoreCotangents, read_flatMap_range (fun _ _ => by simp) hi hj]
  rw [read_map_range hj, foldl_add_fin 0 (f := fun j => w i j * c i j), zero_add,
    hp i hi j hj, hdp i hi j hj]
  · rfl
  · intro j' hj'
    rw [hp i hi j' hj', hdp i hi j' hj']
    rfl

/-- What a head adds to the three outputs. -/
def headGradients (exp : F → F) (scale : F) (n d : Nat) (q k v dO : List (Extended F))
    (base : Nat) : Gradients F :=
  let ds := headCotangent exp scale n d base q k v dO
  { dq := sumRows n d base (fun i j => scale * ds i j) k
    dk := sumRows n d base (fun j i => scale * ds i j) q
    dv := sumRows n d base (fun j i => headWeight exp scale n d base q k i j) dO }

section Congr

variable {q₂ k₂ v₂ dO₂ : List (Extended F)}

/-- The same rows at `base`. -/
def SameHead (n d base : Nat) (xs ys : List (Extended F)) : Prop :=
  ∀ i < n, ∀ dd < d, keyValue d base xs i dd = keyValue d base ys i dd

omit [LinearOrder F] [IsStrictOrderedRing F] in
theorem sumRows_congr {c c₂ : Nat → Nat → F} {src₂ : List (Extended F)}
    (hc : ∀ a < n, ∀ b < n, c a b = c₂ a b) (hsrc : SameHead n d base src src₂) :
    sumRows n d base c src = sumRows n d base c₂ src₂ := by
  apply flatMap_congr
  intro a ha
  apply map_congr_left
  intro dd hdd
  congr 1
  apply Finset.sum_congr rfl
  intro b hb
  rw [hc a (mem_range.1 ha) b (Finset.mem_range.1 hb),
    hsrc b (Finset.mem_range.1 hb) dd (mem_range.1 hdd)]

variable (hq : SameHead n d base q q₂)

include hq

variable (hk : SameHead n d base k k₂)

include hk

omit [IsStrictOrderedRing F] in
theorem headWeight_congr {i : Nat} (hi : i < n) : ∀ j < n,
      headWeight exp scale n d base q k i j = headWeight exp scale n d base q₂ k₂ i j := by
  have hscore : ∀ j < n,
      scaledDot scale d d base q k i j = scaledDot scale d d base q₂ k₂ i j := by
    intro j hj
    apply congrArg (· * scale)
    apply Finset.sum_congr rfl
    intro dd hdd
    have hdd := Finset.mem_range.1 hdd
    exact congrArg₂ (· * ·) (hq i hi dd hdd) (hk j hj dd hdd)
  intro j hj
  have hsup := Finset.sup_congr rfl fun j hj =>
    congrArg WithBot.some (hscore j (Finset.mem_range.1 hj))
  rw [headWeight, headWeight, denominator, denominator, hsup]
  dsimp only
  rw [hscore j hj]
  congr 1
  apply Finset.sum_congr rfl
  intro j hj
  rw [hscore j (Finset.mem_range.1 hj)]

omit [IsStrictOrderedRing F] in
theorem headCotangent_congr (hv : SameHead n d base v v₂) (hdO : SameHead n d base dO dO₂) {i : Nat}
    (hi : i < n) :
    ∀ j < n, headCotangent exp scale n d base q k v dO i j =
      headCotangent exp scale n d base q₂ k₂ v₂ dO₂ i j := by
  have hweight := @headWeight_congr F _ _ n d base exp scale q k q₂ k₂ hq hk i hi
  have hvalue : ∀ j < n,
      ∑ dd ∈ Finset.range d, keyValue d base dO i dd * keyValue d base v j dd =
        ∑ dd ∈ Finset.range d, keyValue d base dO₂ i dd * keyValue d base v₂ j dd := by
    intro j hj
    apply Finset.sum_congr rfl
    intro dd hdd
    rw [hdO i hi dd (Finset.mem_range.1 hdd), hv j hj dd (Finset.mem_range.1 hdd)]
  intro j hj
  rw [headCotangent, headCotangent, scoreCotangent, scoreCotangent, jacobian, jacobian,
    hweight j hj, hvalue j hj]
  congr 2
  apply Finset.sum_congr rfl
  intro j' hj'
  rw [hweight j' (Finset.mem_range.1 hj'), hvalue j' (Finset.mem_range.1 hj')]

omit [IsStrictOrderedRing F] in
theorem headGradients_congr (hv : SameHead n d base v v₂) (hdO : SameHead n d base dO dO₂) :
    headGradients exp scale n d q k v dO base = headGradients exp scale n d q₂ k₂ v₂ dO₂ base := by
  have hds : ∀ i < n, ∀ j < n, headCotangent exp scale n d base q k v dO i j =
      headCotangent exp scale n d base q₂ k₂ v₂ dO₂ i j := fun i hi =>
    headCotangent_congr hq hk hv hdO hi
  rw [headGradients, headGradients]
  congr 1
  · exact sumRows_congr (fun i hi j hj => congrArg (scale * ·) (hds i hi j hj)) hk
  · exact sumRows_congr (fun j hj i hi => congrArg (scale * ·) (hds i hi j hj)) hq
  · exact sumRows_congr (fun j hj i hi => headWeight_congr hq hk hi j hj) hdO

end Congr

/-- The operands of one head. -/
structure HeadOperands (n d base : Nat) (q k v dO : List (Extended F)) : Prop where
  q : HeadOperand n d base q
  k : HeadOperand n d base k
  v : HeadOperand n d base v
  dO : HeadOperand n d base dO

/-- A buffer whose block at `base` is still zero. -/
def ZeroBlock (n d base : Nat) (xs : List (Extended F)) : Prop :=
  base + n * d ≤ xs.length ∧ ∀ x < n * d, read xs (base + x) = .fin 0

variable {g : Gradients F}

theorem backwardHead_eq (hpos : ∀ x, 0 < exp x) (h : HeadOperands n d base q k v dO)
    (hdq : ZeroBlock n d base g.dq) (hdk : ZeroBlock n d base g.dk) (hdv : ZeroBlock n d base g.dv) :
    backwardHead exp scale n d q k v dO base g =
      { dq := writeAt base (headGradients exp scale n d q k v dO base).dq g.dq
        dk := writeAt base (headGradients exp scale n d q k v dO base).dk g.dk
        dv := writeAt base (headGradients exp scale n d q k v dO base).dv g.dv } := by
  have hp : ∀ i < n, ∀ j < n,
      read ((range n).flatMap (recomputeRow exp scale n d base q k)) (i * n + j) =
        .fin (headWeight exp scale n d base q k i j) := by
    intro i hi j hj
    have hrows : ∀ i < n, (recomputeRow exp scale n d base q k i).length = n := by
      intro i hi
      rw [recomputeRow_eq hpos h.q h.k hi]
      simp
    rw [read_flatMap_range hrows hi hj, recomputeRow_eq hpos h.q h.k hi, read_map_range hj]
  have hds : ∀ i < n, ∀ j < n,
      read (scoreCotangents n ((range n).flatMap (recomputeRow exp scale n d base q k))
        (weightCotangents n d base v dO)) (i * n + j) =
          .fin (headCotangent exp scale n d base q k v dO i j) := fun i hi j hj =>
    read_scoreCotangents hp (fun i hi j hj => read_weightCotangents h.v h.dO hi hj) hi hj
  rw [backwardHead]
  congr 1
  · exact accumulateRows_eq h.k hdq.1 hdq.2 fun i hi j hj => by
      rw [hds i hi j hj, fin_mul]
  · exact accumulateRows_eq h.q hdk.1 hdk.2 fun j hj i hi => by
      rw [hds i hi j hj, fin_mul]
  · exact accumulateRows_eq h.dO hdv.1 hdv.2 fun j hj i hi => hp i hi j hj

/-! ## All heads -/

omit [IsStrictOrderedRing F] in
theorem length_headGradients :
    (headGradients exp scale n d q k v dO base).dq.length = n * d ∧
      (headGradients exp scale n d q k v dO base).dk.length = n * d ∧
        (headGradients exp scale n d q k v dO base).dv.length = n * d :=
  ⟨length_sumRows, length_sumRows, length_sumRows⟩

omit [LinearOrder F] [IsStrictOrderedRing F] in
theorem zeroBlock_writeAt {N m : Nat} (hf : ∀ bh, (f bh).length = n * d) {xs : List (Extended F)}
    (hxs : xs.length = N * (n * d)) (hm : m < N) : ZeroBlock n d (m * (n * d))
      (writeAt 0 ((range m).flatMap f) (xs.map fun _ => .fin 0)) := by
  have hlen : ((range m).flatMap f).length = m * (n * d) :=
    length_flatMap_range fun bh _ => hf bh
  have hblock : (m + 1) * (n * d) ≤ N * (n * d) := Nat.mul_le_mul_right _ hm
  rw [Nat.succ_mul] at hblock
  have hfit : 0 + ((range m).flatMap f).length ≤ (xs.map fun _ => fin (0 : F)).length := by
    rw [length_map, hxs, hlen]
    omega
  constructor
  · rw [length_writeAt hfit, length_map, hxs]
    exact hblock
  · intro x hx
    have hdrop := drop_writeAt hfit
    rw [Nat.zero_add, hlen] at hdrop
    rw [read_of_drop_eq hdrop]
    have hlt : m * (n * d) + x < xs.length := by omega
    simp [read, hlt]

theorem foldl_backwardHead (hpos : ∀ x, 0 < exp x) {N : Nat}
    (hin : ∀ bh < N, HeadOperands n d (bh * (n * d)) q k v dO) (hdq : g.dq.length = N * (n * d))
    (hdk : g.dk.length = N * (n * d)) (hdv : g.dv.length = N * (n * d)) (m : Nat) : m ≤ N →
      (range m).foldl
          (fun g bh => backwardHead exp scale n d q k v dO (bh * (n * d)) g)
          { dq := g.dq.map fun _ => .fin 0
            dk := g.dk.map fun _ => .fin 0
            dv := g.dv.map fun _ => .fin 0 } =
        { dq := writeAt 0 ((range m).flatMap fun bh =>
            (headGradients exp scale n d q k v dO (bh * (n * d))).dq) (g.dq.map fun _ => .fin 0)
          dk := writeAt 0 ((range m).flatMap fun bh =>
            (headGradients exp scale n d q k v dO (bh * (n * d))).dk) (g.dk.map fun _ => .fin 0)
          dv := writeAt 0 ((range m).flatMap fun bh =>
            (headGradients exp scale n d q k v dO (bh * (n * d))).dv)
              (g.dv.map fun _ => .fin 0) } := by
  induction m with
  | zero =>
    intro _
    simp [writeAt_nil]
  | succ m ih =>
    intro hm
    have hnext : ∀ {f : Nat → List (Extended F)} {xs : List (Extended F)},
        (∀ bh, (f bh).length = n * d) →
          writeAt (m * (n * d)) (f m) (writeAt 0 ((range m).flatMap f) xs) =
            writeAt 0 ((range (m + 1)).flatMap f) xs := by
      intro f xs hf
      have hlen : ((range m).flatMap f).length = m * (n * d) :=
        length_flatMap_range fun bh _ => hf bh
      have happend := @writeAt_writeAt _ xs 0 ((range m).flatMap f) (f m) (Nat.zero_le _)
      rw [Nat.zero_add, hlen] at happend
      rw [happend, range_succ, flatMap_append, flatMap_singleton]
    conv_lhs =>
      rw [range_succ, foldl_append, ih (Nat.le_of_succ_le hm), foldl_cons,
        foldl_nil, backwardHead_eq hpos (hin m hm)
          (zeroBlock_writeAt (fun _ => length_headGradients.1) hdq hm)
          (zeroBlock_writeAt (fun _ => length_headGradients.2.1) hdk hm)
          (zeroBlock_writeAt (fun _ => length_headGradients.2.2) hdv hm)]
    congr 1
    · exact hnext fun _ => length_headGradients.1
    · exact hnext fun _ => length_headGradients.2.1
    · exact hnext fun _ => length_headGradients.2.2

variable {sqrt : F → F} {shape : AttentionShape}

/-- Finite operands of the shape's length. -/
structure BackwardInputs (shape : AttentionShape) (q k v dO : List (Extended F)) : Prop where
  q_length : q.length = shape.bufferLen
  k_length : k.length = shape.bufferLen
  v_length : v.length = shape.bufferLen
  dO_length : dO.length = shape.bufferLen
  q_finite : ∀ x ∈ q, x.isFinite = true
  k_finite : ∀ x ∈ k, x.isFinite = true
  v_finite : ∀ x ∈ v, x.isFinite = true
  dO_finite : ∀ x ∈ dO, x.isFinite = true

/-- The gradients of all heads, one after the other. -/
def allGradients (exp sqrt : F → F) (shape : AttentionShape) (q k v dO : List (Extended F)) :
    Gradients F :=
  let head := fun bh => headGradients exp (1 / sqrt shape.dim) shape.seq shape.dim q k v dO
    (bh * (shape.seq * shape.dim))
  { dq := (range (shape.batch * shape.heads)).flatMap fun bh => (head bh).dq
    dk := (range (shape.batch * shape.heads)).flatMap fun bh => (head bh).dk
    dv := (range (shape.batch * shape.heads)).flatMap fun bh => (head bh).dv }

theorem flashBackward_eq (hpos : ∀ x, 0 < exp x) (h : BackwardInputs shape q k v dO)
    (hdq : g.dq.length = shape.bufferLen) (hdk : g.dk.length = shape.bufferLen)
    (hdv : g.dv.length = shape.bufferLen) :
    flashBackward exp sqrt shape q k v dO g = .ok (allGradients exp sqrt shape q k v dO) := by
  have hfind : [("q", q), ("k", k), ("v", v), ("do", dO)].find?
      (fun buf => buf.2.length ≠ shape.bufferLen) = none := by
    simp [h.q_length, h.k_length, h.v_length, h.dO_length]
  rw [flashBackward]
  simp only [hfind]
  rw [if_neg (by simp [hdq, hdk, hdv])]
  by_cases hseq : shape.seq = 0
  · have hnil : ∀ xs : List (Extended F), xs.length = shape.bufferLen → xs = [] := by
      intro xs hxs
      exact length_eq_zero_iff.1 (by
        rw [hxs, bufferLen_eq, hseq, Nat.zero_mul, Nat.mul_zero])
    obtain ⟨dq, dk, dv⟩ := g
    rw [if_pos hseq, hnil dq hdq, hnil dk hdk, hnil dv hdv, allGradients, hseq]
    simp [headGradients, sumRows]
  · have hin : ∀ bh < shape.batch * shape.heads,
        HeadOperands shape.seq shape.dim (bh * (shape.seq * shape.dim)) q k v dO := fun bh hbh =>
      { q := headOperand h.q_length h.q_finite hbh
        k := headOperand h.k_length h.k_finite hbh
        v := headOperand h.v_length h.v_finite hbh
        dO := headOperand h.dO_length h.dO_finite hbh }
    have hbase : ∀ b i, b * (shape.heads * (shape.seq * shape.dim)) + i * (shape.seq * shape.dim) =
        (b * shape.heads + i) * (shape.seq * shape.dim) := by
      intro b i
      ring
    rw [if_neg hseq]
    simp only [hbase]
    rw [← foldl_range_mul (fun g bh => backwardHead exp (1 / sqrt shape.dim) shape.seq shape.dim q k
        v dO (bh * (shape.seq * shape.dim)) g),
      foldl_backwardHead hpos hin (hdq.trans (bufferLen_eq shape)) (hdk.trans (bufferLen_eq shape))
        (hdv.trans (bufferLen_eq shape)) _ le_rfl]
    -- all blocks are written, so nothing of the old contents is left
    have hwhole : ∀ {f : Nat → List (Extended F)} {xs : List (Extended F)},
        (∀ bh, (f bh).length = shape.seq * shape.dim) → xs.length = shape.bufferLen →
          writeAt 0 ((range (shape.batch * shape.heads)).flatMap f)
            (xs.map fun _ => fin (0 : F)) = (range (shape.batch * shape.heads)).flatMap f := by
      intro f xs hf hxs
      apply writeAt_zero
      rw [length_flatMap_range fun bh _ => hf bh, length_map, hxs, bufferLen_eq]
    rw [hwhole (fun _ => length_headGradients.1) hdq,
      hwhole (fun _ => length_headGradients.2.1) hdk, hwhole (fun _ => length_headGradients.2.2) hdv]
    rfl

end Head

end Sums

end Attention
end Rustorch
