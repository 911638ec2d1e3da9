import Rustorch.Attention.Forward
import Rustorch.Lib.OnlineSoftmax

/-!
# One row through the key tiles

What the tiled kernel holds for one query row.  The maximum is always the largest score so far.
While the first tile has shown the row a key, denominator and accumulator are the sums of the
online softmax (`RowHolds.sums`).  A first tile that is masked for the whole row makes its weights
`exp(-∞ - (-∞))`, and the denominator stays NaN from then on (`RowHolds.poisoned`).
-/

namespace Rustorch
namespace Attention

open OnlineSoftmax Rows List Extended

section Row

variable {F : Type} [Field F] [LinearOrder F] {exp : F → F}

/-! ## One row against one tile -/

/-- A row of scores as the kernel has it. -/
def scoreRow (f : Nat → WithBot F) (w : Nat) : List (Extended F) :=
  (range w).map fun c => ofScore (f c)

variable {f : Nat → WithBot F} {w dim : Nat} {a b : WithBot F} {l : Extended F}
  {o sRow oRow : List (Extended F)}

omit [LinearOrder F] in
theorem exp_sub_ofScore (x : WithBot F) : b ≠ ⊥ →
    Extended.exp exp (ofScore x - ofScore b) = .fin (weight exp b x) := by
  intro hb
  obtain ⟨m, rfl⟩ := WithBot.ne_bot_iff_exists.1 hb
  cases x using WithBot.recBotCoe with
  | bot => simp
  | coe x => simp

/-- The factor by which the sums so far are rescaled. -/
theorem alpha_eq : b ≠ ⊥ →
    (if ofScore a = .negInf then .fin 0
      else Extended.exp exp (ofScore a - ofScore b)) =
      fin (weight exp b a) := by
  intro hb
  by_cases ha : a = ⊥
  · rw [if_pos (ofScore_eq_negInf.2 ha), ha, weight_bot_right]
  · rw [if_neg (fun h => ha (ofScore_eq_negInf.1 h)), exp_sub_ofScore a hb]

/-- Skipping the product where the factor is `1` changes nothing. -/
theorem rescale_fin (d x : F) :
    (if fin x ≠ .fin 1 then fin d * .fin x else .fin d) = .fin (d * x) := by
  by_cases hx : x = 1
  · simp [hx]
  · simp [hx]

omit [Field F] in
theorem tileMax_scoreRow :
    (scoreRow f w).foldl (fun m x => if lt m x then x else m) .negInf =
      ofScore ((Finset.range w).sup f) := by
  rw [scoreRow, foldl_map, ← ofScore_bot, foldl_ite_ofScore, bot_sup_eq]

omit [Field F] in
theorem newMax_scoreRow :
    (if lt (ofScore a) (ofScore ((Finset.range w).sup f)) then
        ofScore ((Finset.range w).sup f)
      else ofScore a) = ofScore (a ⊔ (Finset.range w).sup f) :=
  ite_lt_ofScore a _

theorem onlineRow_m : (onlineRow exp (scoreRow f w) (ofScore a) l o).m =
    ofScore (a ⊔ (Finset.range w).sup f) := by
  rw [onlineRow, tileMax_scoreRow, newMax_scoreRow]

theorem onlineRow_p : a ⊔ (Finset.range w).sup f ≠ ⊥ →
    (onlineRow exp (scoreRow f w) (ofScore a) l o).p =
      (range w).map fun c => .fin (weight exp (a ⊔ (Finset.range w).sup f) (f c)) := by
  intro hb
  rw [onlineRow, tileMax_scoreRow, newMax_scoreRow, scoreRow, map_map]
  apply map_congr_left
  intro c _
  exact exp_sub_ofScore (f c) hb

theorem onlineRow_l {d : F} : a ⊔ (Finset.range w).sup f ≠ ⊥ →
    (onlineRow exp (scoreRow f w) (ofScore a) (.fin d) o).l =
      .fin (d * weight exp (a ⊔ (Finset.range w).sup f) a +
        ∑ c ∈ Finset.range w, weight exp (a ⊔ (Finset.range w).sup f) (f c)) := by
  intro hb
  have hp : (onlineRow exp (scoreRow f w) (ofScore a) (.fin d) o).p = _ := onlineRow_p hb
  rw [onlineRow, tileMax_scoreRow, newMax_scoreRow] at hp ⊢
  rw [alpha_eq hb, rescale_fin]
  simp only at hp ⊢
  rw [hp, foldl_map, foldl_add_fin 0 (fun _ _ => rfl), zero_add, fin_add]

theorem onlineRow_o {g : Nat → F} : a ⊔ (Finset.range w).sup f ≠ ⊥ →
    (onlineRow exp (scoreRow f w) (ofScore a) l
        ((range dim).map fun d => .fin (g d))).o =
      (range dim).map fun d => .fin (g d * weight exp (a ⊔ (Finset.range w).sup f) a) := by
  intro hb
  rw [onlineRow, tileMax_scoreRow, newMax_scoreRow, alpha_eq hb]
  by_cases hone : weight exp (a ⊔ (Finset.range w).sup f) a = 1
  · simp [hone]
  · simp [hone]

theorem onlineRow_l_nan (m : Extended F) : (onlineRow exp sRow m .nan oRow).l = .nan := by
  rw [onlineRow]
  simp

theorem onlineRow_l_masked : 0 < w → a ⊔ (Finset.range w).sup f = ⊥ →
    (onlineRow exp (scoreRow f w) (ofScore a) l o).l = .nan := by
  intro hw hbot
  rw [onlineRow, tileMax_scoreRow, newMax_scoreRow, hbot]
  have hnan : ((scoreRow f w).map fun x => Extended.exp exp (x - ofScore ⊥)).foldl
      (· + ·) (.fin 0) = nan := by
    rw [scoreRow, map_map, foldl_map]
    exact foldl_add_nan ⟨0, hw, by simp⟩
  rw [hnan, add_nan]

theorem length_onlineRow_p (m : Extended F) :
    (onlineRow exp sRow m l oRow).p.length = sRow.length := by
  simp [onlineRow]

theorem length_onlineRow_o (m : Extended F) :
    (onlineRow exp sRow m l oRow).o.length = oRow.length := by
  simp only [onlineRow]
  split_ifs <;> simp

/-! ## The invariant of a row -/

/-- What the kernel holds for a row after `n` keys, when the first tile has `first` keys. -/
structure RowHolds (exp : F → F) (score : Nat → WithBot F) (value : Nat → Nat → F)
    (dim first n : Nat) (m l : Extended F) (o : List (Extended F)) : Prop where
  top : m = ofScore ((Finset.range n).sup score)
  sums : n = 0 ∨ (Finset.range first).sup score ≠ ⊥ →
    l = .fin (denominator exp score (Finset.range n)) ∧
      o = (range dim).map fun d =>
        .fin (numerator exp score (fun j => value j d) (Finset.range n))
  poisoned : 0 < n → (Finset.range first).sup score = ⊥ → l = .nan

variable {score : Nat → WithBot F} {value : Nat → Nat → F} {first n : Nat} {m : Extended F}

theorem RowHolds.zero : RowHolds exp score value dim first 0 .negInf (.fin 0)
    (replicate dim (.fin 0)) where
  top := by simp
  sums := by
    intro _
    refine ⟨by simp [denominator], ?_⟩
    simp [numerator, map_const']
  poisoned := fun h => absurd h (Nat.lt_irrefl 0)

/-- The accumulator after the value product. -/
def accumulated (p o : List (Extended F)) (value : Nat → Nat → F) (w dim : Nat)
    (o' : List (Extended F)) : Prop :=
  ∀ wt g : Nat → F, p = (range w).map (fun c => .fin (wt c)) →
    o = (range dim).map (fun d => .fin (g d)) →
      o' = (range dim).map fun d => .fin (g d + ∑ c ∈ Finset.range w, wt c * value c d)

theorem RowHolds.step (h : ExpLaws exp) (hrow : RowHolds exp score value dim first n m l o)
    (hw : 0 < w) (hfirst : n = 0 → w = first) (hle : first ≤ n + w) {o' : List (Extended F)} :
    accumulated (onlineRow exp (scoreRow (fun c => score (n + c)) w) m l o).p
        (onlineRow exp (scoreRow (fun c => score (n + c)) w) m l o).o
        (fun c d => value (n + c) d) w dim o' →
      RowHolds exp score value dim first (n + w)
        (onlineRow exp (scoreRow (fun c => score (n + c)) w) m l o).m
        (onlineRow exp (scoreRow (fun c => score (n + c)) w) m l o).l o' := by
  intro hacc
  have htop := sup_range_add score n w
  obtain rfl := hrow.top
  refine ⟨?_, ?_, ?_⟩
  · rw [onlineRow_m, htop]
  · intro hsees
    have hfirst' : (Finset.range first).sup score ≠ ⊥ := by
      rcases hsees with hzero | hsees
      · omega
      · exact hsees
    have hne : (Finset.range n).sup score ⊔ (Finset.range w).sup (fun c => score (n + c)) ≠ ⊥ := by
      rw [← htop]
      intro hbot
      have hmono : (Finset.range first).sup score ≤ (Finset.range (n + w)).sup score :=
        Finset.sup_mono (Finset.range_mono hle)
      rw [hbot, le_bot_iff] at hmono
      exact hfirst' hmono
    obtain ⟨rfl, rfl⟩ := hrow.sums (Or.inr hfirst')
    refine ⟨?_, ?_⟩
    · rw [onlineRow_l hne, denominator_range_add h, htop]
    · rw [hacc _ _ (onlineRow_p hne) (onlineRow_o hne)]
      apply map_congr_left
      intro d _
      rw [numerator_range_add h, htop]
  · intro _ hmasked
    by_cases hn : n = 0
    · obtain rfl := hfirst hn
      subst hn
      apply onlineRow_l_masked hw
      simpa using hmasked
    · rw [hrow.poisoned (Nat.pos_of_ne_zero hn) hmasked, onlineRow_l_nan]

end Row

end Attention
end Rustorch

/-!
# Tiles of keys

The scratch buffers of a query tile.  Each loop over the rows of a tile changes one row a turn, so
a key tile acts on every row of the query tile as `RowHolds.step` says (`keyTile_rows`), and the
loop over the key tiles ends with every row at the last key (`keyLoop_rows`).
-/

namespace Rustorch
namespace Attention

open OnlineSoftmax Rows

section Buffers

variable {F : Type}

/-! ## Cells and rows -/

theorem read_drop (xs : List (Extended F)) (n i : Nat) : read (xs.drop n) i = read xs (n + i) := by
  simp [read]

theorem read_take {xs : List (Extended F)} {n i : Nat} : i < n → read (xs.take n) i = read xs i := by
  intro h
  simp [read, h]

variable {x : Extended F} {f : Nat → Extended F}

theorem read_set {xs : List (Extended F)} {r : Nat} : r < xs.length → ∀ r',
    read (xs.set r x) r' = if r' = r then x else read xs r' := by
  intro h r'
  by_cases heq : r' = r
  · rw [if_pos heq, heq]
    simp [read, h]
  · rw [if_neg heq]
    simp [read, List.getElem?_set_ne (Ne.symm heq)]

theorem read_map_range {n i : Nat} : i < n →
    read ((List.range n).map f) i = f i := by
  intro h
  simp [read, h]

theorem read_row {w r c : Nat} {xs : List (Extended F)} : c < w →
    read (row w r xs) c = read xs (r * w + c) := by
  intro hc
  rw [read, List.getD_eq_getElem?_getD, getElem?_row, if_pos hc, ← List.getD_eq_getElem?_getD]
  rfl

theorem row_eq_map_read {w r : Nat} {xs : List (Extended F)} : (r + 1) * w ≤ xs.length →
    row w r xs = (List.range w).map fun c => read xs (r * w + c) := by
  intro h
  have hlen := length_row h
  apply List.ext_getElem
  · rw [hlen, List.length_map, List.length_range]
  · intro c hc _
    have hcell := @read_row F w r c xs (hlen ▸ hc)
    rw [List.getElem_map, List.getElem_range, ← hcell]
    simp [read, hc]

theorem read_of_row {w r : Nat} {xs : List (Extended F)} :
    row w r xs = (List.range w).map f → ∀ c < w, read xs (r * w + c) = f c := by
  intro hrow c hc
  rw [← read_row hc, hrow, read_map_range hc]

/-! ## Finite operands -/

/-- The field element of a finite value. -/
def finPart [Zero F] : Extended F → F
  | .fin x => x
  | _ => 0

theorem eq_fin_finPart [Zero F] : x.isFinite = true → x = .fin (finPart x) := by
  intro h
  obtain ⟨a, rfl⟩ := Extended.exists_eq_fin h
  rfl

/-- The scaled product of query `i` and key `j`. -/
def scaledDot [Semiring F] (scale : F) (dim sN base : Nat) (q k : List (Extended F))
    (i j : Nat) : F :=
  (∑ d ∈ Finset.range dim,
    finPart (read q (base + i * sN + d)) * finPart (read k (base + j * sN + d))) * scale

/-- The score of key `j` for query `i`, `⊥` where the mask hides the key. -/
def keyScore [Semiring F] (scale : F) (dim sN base : Nat) (mask : Mask) (q k : List (Extended F))
    (i j : Nat) : WithBot F :=
  if mask.isMasked i j then ⊥ else WithBot.some (scaledDot scale dim sN base q k i j)

def keyValue [Zero F] (sN base : Nat) (v : List (Extended F)) (j d : Nat) : F :=
  finPart (read v (base + j * sN + d))

/-- A head's part of a buffer: `seq` rows of `dim` finite cells from `base` on. -/
structure HeadOperand (seq dim base : Nat) (xs : List (Extended F)) : Prop where
  fits : base + seq * dim ≤ xs.length
  finite : ∀ x ∈ xs, x.isFinite = true

variable {seq dim base : Nat} {xs q k v : List (Extended F)}

theorem HeadOperand.read_eq [Zero F] (h : HeadOperand seq dim base xs) {i d : Nat} : i < seq →
    d < dim → read xs (base + i * dim + d) = .fin (finPart (read xs (base + i * dim + d))) := by
  intro hi hd
  apply eq_fin_finPart
  have hlt : base + i * dim + d < xs.length := by
    have hcell := cell_lt hi hd
    have hfits := h.fits
    omega
  have hget : read xs (base + i * dim + d) = xs[base + i * dim + d] := by
    simp [read, hlt]
  rw [hget]
  exact h.finite _ (List.getElem_mem hlt)

end Buffers

section Tiles

variable {F : Type} [Field F] {exp : F → F} {gemm : Gemm F}
  {args : FlashTileArgs F} {mask : Mask} {q k v : List (Extended F)} {base : Nat}

/-! ## The scratch buffers -/

structure Sized (args : FlashTileArgs F) (bufs : FlashBuffers F) : Prop where
  sBuf : bufs.sBuf.length = args.br * args.bc
  pBuf : bufs.pBuf.length = args.br * args.bc
  oBuf : bufs.oBuf.length = args.br * args.dim
  mBuf : bufs.mBuf.length = args.br
  lBuf : bufs.lBuf.length = args.br

theorem sized_new : Sized args (FlashBuffers.new args) := by
  constructor <;> simp [FlashBuffers.new]

omit [Field F] in
theorem row_fits {r n w w' m : Nat} : r < n → n ≤ m → w ≤ w' → (r + 1) * w ≤ m * w' := by
  intro hr hn hw
  exact Nat.mul_le_mul (Nat.le_trans hr hn) hw

/-- What is seen of row `r` of a tile with `w` keys. -/
structure RowView (F : Type) where
  s : List (Extended F)
  m : Extended F
  l : Extended F
  o : List (Extended F)
  p : List (Extended F)

def rowView (dim w : Nat) (r : Nat) (bufs : FlashBuffers F) : RowView F where
  s := row w r bufs.sBuf
  m := read bufs.mBuf r
  l := read bufs.lBuf r
  o := row dim r bufs.oBuf
  p := row w r bufs.pBuf

variable {bufs : FlashBuffers F} {brUsed w kj qi : Nat}

theorem sized_resetRow {r : Nat} (h : Sized args bufs) (hr : r < args.br) :
    Sized args (resetRow args.dim bufs r) := by
  have hfit : r * args.dim + (List.replicate args.dim (Extended.fin (0 : F))).length ≤
      bufs.oBuf.length := by
    rw [List.length_replicate, ← Nat.succ_mul, h.oBuf]
    exact row_fits hr le_rfl le_rfl
  exact
    { sBuf := h.sBuf
      pBuf := h.pBuf
      oBuf := (length_writeAt hfit).trans h.oBuf
      mBuf := List.length_set.trans h.mBuf
      lBuf := List.length_set.trans h.lBuf }

theorem resetRows_rows (h : Sized args bufs) (hbr : brUsed ≤ args.br) :
    Sized args (resetRows args.dim brUsed bufs) ∧ ∀ r < brUsed,
      read (resetRows args.dim brUsed bufs).mBuf r = .negInf ∧
      read (resetRows args.dim brUsed bufs).lBuf r = .fin 0 ∧
      row args.dim r (resetRows args.dim brUsed bufs).oBuf = List.replicate args.dim (.fin 0) := by
  have hlen : (List.replicate args.dim (Extended.fin (0 : F))).length = args.dim :=
    List.length_replicate
  have hrows := foldl_rows (n := brUsed) (resetRow args.dim)
    (fun r (bufs : FlashBuffers F) =>
      (read bufs.mBuf r, read bufs.lBuf r, row args.dim r bufs.oBuf))
    (fun _ _ => (.negInf, .fin 0, List.replicate args.dim (.fin 0))) (Sized args)
    (fun st r hr hst => sized_resetRow hst (Nat.lt_of_lt_of_le hr hbr))
    (by
      intro st r hr hst
      have hr' := Nat.lt_of_lt_of_le hr hbr
      have hfit : (r + 1) * args.dim ≤ st.oBuf.length := hst.oBuf ▸ row_fits hr' le_rfl le_rfl
      simp only [resetRow]
      rw [read_set (hst.mBuf ▸ hr'), read_set (hst.lBuf ▸ hr'), row_writeAt_one hlen hfit,
        if_pos rfl, if_pos rfl, if_pos rfl])
    (by
      intro st r hr r' hne hst
      have hr' := Nat.lt_of_lt_of_le hr hbr
      have hfit : (r + 1) * args.dim ≤ st.oBuf.length := hst.oBuf ▸ row_fits hr' le_rfl le_rfl
      simp only [resetRow]
      rw [read_set (hst.mBuf ▸ hr'), read_set (hst.lBuf ▸ hr'), row_writeAt_one hlen hfit,
        if_neg hne, if_neg hne, if_neg hne])
    brUsed le_rfl bufs h
  refine ⟨hrows.1, ?_⟩
  intro r hr
  have hview := hrows.2 r
  rw [if_pos hr] at hview
  exact ⟨congrArg Prod.fst hview, congrArg (fun x => x.2.1) hview,
    congrArg (fun x => x.2.2) hview⟩

/-! ## The two products -/

section Products

variable {m n d i j : Nat} {alpha : F} {lhs rhs dst : List (Extended F)} {ldl ldr ldd : Nat}

variable (hgemm : ExactGemm gemm)

include hgemm

theorem length_sgemmScoreTile :
    (sgemmScoreTile gemm m n d alpha lhs ldl rhs ldr dst ldd).length = dst.length :=
  hgemm.length_eq ..

theorem length_sgemmValueAccumulate :
    (sgemmValueAccumulate gemm m n d lhs ldl rhs ldr dst ldd).length = dst.length :=
  hgemm.length_eq ..

/-- A score is the scaled product of a query row with a key row. -/
theorem sgemmScoreTile_cell {a b : Nat → F} (hn : n ≤ ldd) (hfit : m * ldd ≤ dst.length)
    (hi : i < m) (hj : j < n) (ha : ∀ x < d, read lhs (i * ldl + x) = .fin (a x))
    (hb : ∀ x < d, read rhs (j * ldr + x) = .fin (b x)) :
    read (sgemmScoreTile gemm m n d alpha lhs ldl rhs ldr dst ldd) (i * ldd + j) =
      .fin (alpha * ∑ x ∈ Finset.range d, a x * b x) := by
  have hcell := @ExactGemm.cell_eq F _ gemm hgemm m n d ⟨dst, 1, ldd⟩ false ⟨lhs, 1, ldl⟩
    ⟨rhs, ldr, 1⟩ 0 alpha i j 0 a b rfl hn hfit hi hj (fun hread => by cases hread)
    (by
      intro x hx
      rw [Strided.cell, Nat.mul_one]
      exact ha x hx)
    (by
      intro x hx
      rw [Strided.cell, Nat.mul_one, Nat.add_comm]
      exact hb x hx)
  rw [sgemmScoreTile, hcell, if_neg Bool.false_ne_true, zero_add]

/-- A row of the accumulator gets the product of a row of weights with a column of values. -/
theorem sgemmValueAccumulate_cell {a b : Nat → F} {old : F} (hn : n ≤ ldd)
    (hfit : m * ldd ≤ dst.length) (hi : i < m) (hj : j < n)
    (hold : read dst (i * ldd + j) = .fin old) (ha : ∀ x < d, read lhs (i * ldl + x) = .fin (a x))
    (hb : ∀ x < d, read rhs (x * ldr + j) = .fin (b x)) :
    read (sgemmValueAccumulate gemm m n d lhs ldl rhs ldr dst ldd) (i * ldd + j) =
      .fin (old + ∑ x ∈ Finset.range d, a x * b x) := by
  have hcell := @ExactGemm.cell_eq F _ gemm hgemm m n d ⟨dst, 1, ldd⟩ true ⟨lhs, 1, ldl⟩
    ⟨rhs, 1, ldr⟩ 1 1 i j old a b rfl hn hfit hi hj
    (by
      intro _
      rw [Strided.cell, Nat.mul_one]
      exact hold)
    (by
      intro x hx
      rw [Strided.cell, Nat.mul_one]
      exact ha x hx)
    (by
      intro x hx
      rw [Strided.cell, Nat.mul_one]
      exact hb x hx)
  rw [sgemmValueAccumulate, hcell, if_pos rfl, one_mul, one_mul]

end Products

/-! ## Scores and mask -/

section Scores

variable (hgemm : ExactGemm gemm) (h : Sized args bufs) (hsN : args.sN = args.dim)
  (hbr : brUsed ≤ args.br) (hbc : w ≤ args.bc)

omit [Field F] in
theorem length_take_tile {xs : List (Extended F)} {n w m w' : Nat} (hn : n ≤ m) (hw : w ≤ w') :
    xs.length = m * w' → (xs.take (n * w)).length = n * w := by
  intro hlen
  rw [List.length_take, hlen]
  exact Nat.min_eq_left (Nat.mul_le_mul hn hw)

include hgemm h hsN hbr hbc

theorem scoreTile_rows (hq : HeadOperand args.seq args.dim base q)
    (hk : HeadOperand args.seq args.dim base k) (hqi : qi + brUsed ≤ args.seq)
    (hkj : kj + w ≤ args.seq) {r : Nat} (hr : r < brUsed) :
    row w r (scoreTile gemm args q k base base qi brUsed kj w bufs).sBuf =
      (List.range w).map fun c =>
        .fin (scaledDot args.scale args.dim args.sN base q k (qi + r) (kj + c)) := by
  have htake := length_take_tile hbr hbc h.sBuf
  have hfit : (0 + brUsed) * w ≤ bufs.sBuf.length := by
    rw [Nat.zero_add, h.sBuf]
    exact Nat.mul_le_mul hbr hbc
  simp only [scoreTile]
  rw [← Nat.zero_mul w, row_writeAt ((length_sgemmScoreTile hgemm).trans htake) hfit,
    if_pos ⟨Nat.zero_le r, by omega⟩, Nat.sub_zero, row_eq_map_read
      (by rw [length_sgemmScoreTile hgemm, htake]; exact Nat.mul_le_mul_right w hr)]
  apply List.map_congr_left
  intro c hc
  have hcw := List.mem_range.1 hc
  -- the routine reads row `r` of the query tile and row `c` of the key tile
  rw [scaledDot, mul_comm _ args.scale]
  apply sgemmScoreTile_cell hgemm le_rfl htake.ge hr hcw
  · intro d hd
    have hidx : base + qi * args.sN + (r * args.sN + d) = base + (qi + r) * args.sN + d := by
      ring
    rw [read_drop, hidx, hsN]
    exact hq.read_eq (by omega) hd
  · intro d hd
    have hidx : base + kj * args.sN + (c * args.sN + d) = base + (kj + c) * args.sN + d := by
      ring
    rw [read_drop, hidx, hsN]
    exact hk.read_eq (by omega) hd

omit hsN in
theorem sized_scoreTile : Sized args (scoreTile gemm args q k base base qi brUsed kj w bufs) := by
  have htake := length_take_tile hbr hbc h.sBuf
  have hfit : brUsed * w ≤ bufs.sBuf.length := h.sBuf ▸ Nat.mul_le_mul hbr hbc
  refine { h with sBuf := (length_writeAt ?_).trans h.sBuf }
  rw [length_sgemmScoreTile hgemm, htake, Nat.zero_add]
  exact hfit

end Scores

omit [Field F] in
@[simp] theorem mBuf_maskTile : (maskTile mask qi brUsed kj w bufs).mBuf = bufs.mBuf := by
  unfold maskTile
  split <;> rfl

omit [Field F] in
@[simp] theorem lBuf_maskTile : (maskTile mask qi brUsed kj w bufs).lBuf = bufs.lBuf := by
  unfold maskTile
  split <;> rfl

omit [Field F] in
@[simp] theorem oBuf_maskTile : (maskTile mask qi brUsed kj w bufs).oBuf = bufs.oBuf := by
  unfold maskTile
  split <;> rfl

omit [Field F] in
theorem maskTile_rows (h : Sized args bufs) (hbr : brUsed ≤ args.br) (hbc : w ≤ args.bc)
    (mask : Mask) (f : Nat → Nat → F) :
    (∀ r < brUsed, row w r bufs.sBuf = (List.range w).map fun c => .fin (f (qi + r) (kj + c))) →
      Sized args (maskTile mask qi brUsed kj w bufs) ∧ ∀ r < brUsed,
        row w r (maskTile mask qi brUsed kj w bufs).sBuf =
          scoreRow (fun c => if mask.isMasked (qi + r) (kj + c) then ⊥
            else WithBot.some (f (qi + r) (kj + c))) w := by
  intro hrows
  by_cases hmask : mask = .none
  · subst hmask
    refine ⟨h, ?_⟩
    intro r hr
    rw [maskTile, if_pos rfl, hrows r hr]
    rfl
  -- the loop over the rows writes each row once, from what it held at the start
  · have hfold := foldl_rows (n := brUsed) (maskRow mask qi kj w) (fun r s => row w r s)
      (fun r cells => cells.mapIdx fun c cell =>
        if mask.isMasked (qi + r) (kj + c) then .negInf else cell)
      (fun s : List (Extended F) => s.length = args.br * args.bc)
      (by
        intro s r hr hs
        have hfit : (r + 1) * w ≤ s.length := hs ▸ row_fits hr hbr hbc
        rw [maskRow, length_writeAt _, hs]
        rw [List.length_mapIdx, length_row hfit, ← Nat.succ_mul]
        exact hfit)
      (by
        intro s r hr hs
        have hfit : (r + 1) * w ≤ s.length := hs ▸ row_fits hr hbr hbc
        rw [maskRow, row_writeAt_one (by rw [List.length_mapIdx, length_row hfit]) hfit, if_pos rfl])
      (by
        intro s r hr r' hne hs
        have hfit : (r + 1) * w ≤ s.length := hs ▸ row_fits hr hbr hbc
        rw [maskRow, row_writeAt_one (by rw [List.length_mapIdx, length_row hfit]) hfit,
          if_neg hne])
      brUsed le_rfl bufs.sBuf h.sBuf
    rw [maskTile, if_neg hmask]
    refine ⟨{ h with sBuf := hfold.1 }, ?_⟩
    intro r hr
    have hrow := hfold.2 r
    rw [if_pos hr, hrows r hr] at hrow
    rw [hrow, scoreRow]
    apply List.ext_getElem?
    intro c
    by_cases hc : c < w
    · by_cases hhidden : mask.isMasked (qi + r) (kj + c) = true
      · simp [hc, hhidden]
      · simp [hc, hhidden]
    · simp [hc]

/-! ## The softmax of a tile -/

variable [LinearOrder F]

theorem onlineSoftmax_rows (h : Sized args bufs) (hbr : brUsed ≤ args.br) (hbc : w ≤ args.bc) :
    Sized args ((List.range brUsed).foldl (onlineSoftmax exp args.dim w) bufs) ∧ ∀ r < brUsed,
      let new := onlineRow exp (row w r bufs.sBuf) (read bufs.mBuf r) (read bufs.lBuf r)
        (row args.dim r bufs.oBuf)
      rowView args.dim w r ((List.range brUsed).foldl (onlineSoftmax exp args.dim w) bufs) =
        ⟨row w r bufs.sBuf, new.m, new.l, new.o, new.p⟩ := by
  have hfit : ∀ st : FlashBuffers F, ∀ r < brUsed, Sized args st →
      (r + 1) * w ≤ st.sBuf.length ∧ (r + 1) * w ≤ st.pBuf.length ∧
        (r + 1) * args.dim ≤ st.oBuf.length ∧ r < st.mBuf.length ∧ r < st.lBuf.length := by
    intro st r hr hst
    rw [hst.sBuf, hst.pBuf, hst.oBuf, hst.mBuf, hst.lBuf]
    exact ⟨row_fits hr hbr hbc, row_fits hr hbr hbc, row_fits hr hbr le_rfl,
      Nat.lt_of_lt_of_le hr hbr, Nat.lt_of_lt_of_le hr hbr⟩
  have hfold := foldl_rows (n := brUsed) (onlineSoftmax exp args.dim w) (rowView args.dim w)
    (fun _ view =>
      let new := onlineRow exp view.s view.m view.l view.o
      ⟨view.s, new.m, new.l, new.o, new.p⟩) (Sized args)
    (by
      intro st r hr hst
      obtain ⟨hs, hp, ho, hm, hl⟩ := hfit st r hr hst
      refine ⟨hst.sBuf, ?_, ?_, ?_, ?_⟩
      · rw [onlineSoftmax, length_writeAt _, hst.pBuf]
        rw [length_onlineRow_p, length_row hs, ← Nat.succ_mul]
        exact hp
      · rw [onlineSoftmax, length_writeAt _, hst.oBuf]
        rw [length_onlineRow_o, length_row ho, ← Nat.succ_mul]
        exact ho
      · rw [onlineSoftmax, List.length_set, hst.mBuf]
      · rw [onlineSoftmax, List.length_set, hst.lBuf])
    (by
      intro st r hr hst
      obtain ⟨hs, hp, ho, hm, hl⟩ := hfit st r hr hst
      simp only [rowView, onlineSoftmax]
      rw [read_set hm, read_set hl, row_writeAt_one ((length_onlineRow_o _).trans (length_row ho)) ho,
        row_writeAt_one ((length_onlineRow_p _).trans (length_row hs)) hp, if_pos rfl, if_pos rfl,
        if_pos rfl, if_pos rfl])
    (by
      intro st r hr r' hne hst
      obtain ⟨hs, hp, ho, hm, hl⟩ := hfit st r hr hst
      simp only [rowView, onlineSoftmax]
      rw [read_set hm, read_set hl, row_writeAt_one ((length_onlineRow_o _).trans (length_row ho)) ho,
        row_writeAt_one ((length_onlineRow_p _).trans (length_row hs)) hp, if_neg hne, if_neg hne,
        if_neg hne, if_neg hne])
    brUsed le_rfl bufs h
  refine ⟨hfold.1, ?_⟩
  intro r hr
  exact (hfold.2 r).trans (if_pos hr)

/-! ## The values of a tile -/

omit [LinearOrder F] in
theorem accumulateTile_rows (hgemm : ExactGemm gemm) (h : Sized args bufs)
    (hsN : args.sN = args.dim) (hbr : brUsed ≤ args.br)
    (hv : HeadOperand args.seq args.dim base v) (hkj : kj + w ≤ args.seq) :
    Sized args (accumulateTile gemm args v base brUsed kj w bufs) ∧ ∀ r < brUsed,
      accumulated (row w r bufs.pBuf) (row args.dim r bufs.oBuf)
        (fun c d => keyValue args.sN base v (kj + c) d) w args.dim
        (row args.dim r (accumulateTile gemm args v base brUsed kj w bufs).oBuf) := by
  have htake := length_take_tile hbr (le_refl args.dim) h.oBuf
  have hfit : (0 + brUsed) * args.dim ≤ bufs.oBuf.length := by
    rw [Nat.zero_add, h.oBuf]
    exact Nat.mul_le_mul_right _ hbr
  refine ⟨{ h with oBuf := (length_writeAt ?_).trans h.oBuf }, ?_⟩
  · rw [length_sgemmValueAccumulate hgemm, htake, Nat.zero_add]
    exact Nat.zero_add brUsed ▸ hfit
  · intro r hr wt g hp ho
    simp only [accumulateTile]
    rw [← Nat.zero_mul args.dim, row_writeAt ((length_sgemmValueAccumulate hgemm).trans htake) hfit,
      if_pos ⟨Nat.zero_le r, by omega⟩, Nat.sub_zero, row_eq_map_read
        (by rw [length_sgemmValueAccumulate hgemm, htake]; exact Nat.mul_le_mul_right _ hr)]
    apply List.map_congr_left
    intro d hd
    have hdim := List.mem_range.1 hd
    apply sgemmValueAccumulate_cell hgemm le_rfl htake.ge hr hdim
    · rw [read_take (cell_lt hr hdim)]
      exact read_of_row ho d hdim
    · intro c hc
      rw [read_take (cell_lt hr hc)]
      exact read_of_row hp c hc
    · intro c hc
      have hidx : base + kj * args.sN + (c * args.sN + d) = base + (kj + c) * args.sN + d := by
        ring
      rw [read_drop, hidx, keyValue, hsN]
      exact hv.read_eq (by omega) hdim

/-! ## The loop over the key tiles -/

/-- Every row of the query tile at `qi` has seen `n` keys. -/
def TileHolds (exp : F → F) (args : FlashTileArgs F) (mask : Mask) (q k v : List (Extended F))
    (base qi brUsed n : Nat) (bufs : FlashBuffers F) : Prop :=
  Sized args bufs ∧ ∀ r < brUsed,
    RowHolds exp (keyScore args.scale args.dim args.sN base mask q k (qi + r))
      (keyValue args.sN base v) args.dim (min args.bc args.seq) n (read bufs.mBuf r)
      (read bufs.lBuf r) (row args.dim r bufs.oBuf)

/-- The operands of one head, laid out without gaps. -/
structure HeadInputs (args : FlashTileArgs F) (q k v : List (Extended F)) (base : Nat) : Prop where
  stride : args.sN = args.dim
  q : HeadOperand args.seq args.dim base q
  k : HeadOperand args.seq args.dim base k
  v : HeadOperand args.seq args.dim base v

theorem keyTile_rows (hexp : ExpLaws exp) (hgemm : ExactGemm gemm)
    (hin : HeadInputs args q k v base) (hbr : brUsed ≤ args.br) (hqi : qi + brUsed ≤ args.seq)
    (hw : 0 < w) (hbc : w ≤ args.bc) (hkj : kj + w ≤ args.seq)
    (hfirst : kj = 0 → w = min args.bc args.seq) (hle : min args.bc args.seq ≤ kj + w)
    (h : TileHolds exp args mask q k v base qi brUsed kj bufs) :
    TileHolds exp args mask q k v base qi brUsed (kj + w)
      (keyTile exp gemm args mask q k v base base base qi brUsed kj w bufs) := by
  obtain ⟨hsized, hholds⟩ := h
  obtain ⟨hmasked, hscores⟩ := maskTile_rows (sized_scoreTile hgemm hsized hbr hbc) hbr hbc mask
    (scaledDot args.scale args.dim args.sN base q k)
    (fun r hr => scoreTile_rows hgemm hsized hin.stride hbr hbc hin.q hin.k hqi hkj hr)
  obtain ⟨hsoft, hviews⟩ := @onlineSoftmax_rows F _ exp args _ _ _ _ hmasked hbr hbc
  obtain ⟨hsized', hacc⟩ := accumulateTile_rows hgemm hsoft hin.stride hbr hin.v hkj
  refine ⟨hsized', ?_⟩
  intro r hr
  let new := onlineRow exp
    (scoreRow (fun c => keyScore args.scale args.dim args.sN base mask q k (qi + r) (kj + c)) w)
    (read bufs.mBuf r) (read bufs.lBuf r) (row args.dim r bufs.oBuf)
  have hview := hviews r hr
  rw [hscores r hr] at hview
  simp only [mBuf_maskTile, lBuf_maskTile, oBuf_maskTile] at hview
  have hm : read (keyTile exp gemm args mask q k v base base base qi brUsed kj w bufs).mBuf r =
      new.m := congrArg RowView.m hview
  have hl : read (keyTile exp gemm args mask q k v base base base qi brUsed kj w bufs).lBuf r =
      new.l := congrArg RowView.l hview
  have haccr := hacc r hr
  rw [show row w r _ = new.p from congrArg RowView.p hview,
    show row args.dim r _ = new.o from congrArg RowView.o hview] at haccr
  rw [hm, hl]
  exact (hholds r hr).step hexp hw hfirst hle haccr

theorem keyLoop_rows (hexp : ExpLaws exp) (hgemm : ExactGemm gemm)
    (hin : HeadInputs args q k v base) (hbr : brUsed ≤ args.br) (hqi : qi + brUsed ≤ args.seq)
    (hbc : 0 < args.bc) (fuel : Nat) :
    ∀ (kj : Nat) (bufs : FlashBuffers F), kj ≤ args.seq → args.seq - kj < fuel →
      (kj = 0 ∨ min args.bc args.seq ≤ kj) →
        TileHolds exp args mask q k v base qi brUsed kj bufs →
          ∃ bufs', keyLoop exp gemm args mask q k v base base base qi brUsed fuel kj bufs =
              some bufs' ∧ TileHolds exp args mask q k v base qi brUsed args.seq bufs' := by
  induction fuel with
  | zero =>
    intro kj bufs _ hfuel
    cases hfuel
  | succ fuel ih =>
    intro kj bufs hkj hfuel hstart hholds
    rw [keyLoop]
    by_cases hlt : kj < args.seq
    · rw [if_pos hlt]
      have hend : kj + (min (kj + args.bc) args.seq - kj) = min (kj + args.bc) args.seq := by
        omega
      have hnext := keyTile_rows hexp hgemm hin hbr hqi (w := min (kj + args.bc) args.seq - kj)
        (by omega) (by omega) (by omega)
        (by
          intro hzero
          subst hzero
          rw [Nat.zero_add, Nat.sub_zero])
        (by omega) hholds
      rw [hend] at hnext
      exact ih _ _ (by omega) (by omega) (by omega) hnext
    · rw [if_neg hlt]
      have heq : kj = args.seq := by omega
      subst heq
      exact ⟨bufs, rfl, hholds⟩

end Tiles

end Attention
end Rustorch
