import Rustorch.Attention.Equivalence

/-!
# Grouped query attention

`gqa_forward_f32`: groups of query heads share a key/value head.  With as many queries as keys the
shared heads are copied out and the tiled kernel runs; otherwise every query head indexes its
key/value head in place.  Both ways a query is given the softmax average of the values of its group
(`gqaForwardF32_attends`).

The parameters are those of the attention kernels.  There is no result where the tiled kernel runs
out of fuel and where the chunk size of the parallel loop is `0`, which panics.
-/

namespace Rustorch
namespace Nn

open Attention OnlineSoftmax Rows List Extended

inductive GQAError
  | headCountMismatch (nHeads nKvHeads : Nat)
  | wrongInputLen (which : String) (expected got : Nat)
  deriving DecidableEq

variable {F : Type}

/-- Positions `off .. off + len` of a buffer. -/
def slice (off len : Nat) (xs : List (Extended F)) : List (Extended F) :=
  (xs.drop off).take len

section Model

variable [Field F] [LinearOrder F] (exp sqrt : F → F) (gemm : Gemm F)

/-! ## One query head -/

def decodeScores (scale : F) (seqKv headDim : Nat) (qRow kBlock : List (Extended F)) :
    List (Extended F) :=
  (range seqKv).map fun kPos =>
    let kRow := row headDim kPos kBlock
    (range headDim).foldl (fun acc d => acc + read qRow d * read kRow d) (.fin 0) * .fin scale

def decodeWeights (scores : List (Extended F)) : List (Extended F) :=
  let maxS := scores.foldl Extended.max .negInf
  let scores := scores.map fun s => Extended.exp exp (s - maxS)
  let sumExp := scores.foldl (· + ·) (.fin 0)
  let invSum := .fin 1 / sumExp
  scores.map (· * invSum)

def decodeOutRow (seqKv headDim : Nat) (scores vBlock : List (Extended F)) : List (Extended F) :=
  (range seqKv).foldl
    (fun outRow kPos =>
      let vRow := row headDim kPos vBlock
      let w := read scores kPos
      outRow.mapIdx fun d o => o + w * read vRow d)
    (replicate headDim (.fin 0))

/-- The block of one batch entry and query head. -/
def decodeAttnRow (bhIdx : Nat) (q k v outBlock : List (Extended F))
    (nHeads nKvHeads seqQ seqKv headDim : Nat) (scale : F) (groupSize : Nat) :
    List (Extended F) :=
  let b := bhIdx / nHeads
  let h := bhIdx % nHeads
  let kvH := h / groupSize
  let qOff := b * nHeads * seqQ * headDim + h * seqQ * headDim
  let kvOff := b * nKvHeads * seqKv * headDim + kvH * seqKv * headDim
  let qBlock := slice qOff (seqQ * headDim) q
  let kBlock := slice kvOff (seqKv * headDim) k
  let vBlock := slice kvOff (seqKv * headDim) v
  (range seqQ).foldl
    (fun outBlock qPos =>
      let scores := decodeScores scale seqKv headDim (row headDim qPos qBlock) kBlock
      writeAt (qPos * headDim) (decodeOutRow seqKv headDim (decodeWeights exp scores) vBlock)
        outBlock) outBlock

/-! ## The operator -/

/-- The key or value heads, copied for every query head. -/
def repeatHeads (batch nHeads nKvHeads groupSize kvHSize : Nat) (kv : List (Extended F)) :
    List (Extended F) :=
  (range batch).foldl
    (fun rep b => (range nHeads).foldl
      (fun rep h =>
        let kvH := h / groupSize
        let srcOff := b * nKvHeads * kvHSize + kvH * kvHSize
        let dstOff := b * nHeads * kvHSize + h * kvHSize
        writeAt dstOff (slice srcOff kvHSize kv) rep) rep)
    (replicate (batch * nHeads * kvHSize) (.fin 0))

/-- The buffer that `gqa_forward_f32` leaves in `out`. -/
def gqaForwardF32 (fuel : Nat) (q k v out : List (Extended F))
    (batch nHeads nKvHeads seqQ seqKv headDim : Nat) :
    Option (Except GQAError (List (Extended F))) :=
  if nKvHeads = 0 ∨ nHeads % nKvHeads ≠ 0 then
    some (.error (.headCountMismatch nHeads nKvHeads))
  else
    let qLen := batch * nHeads * seqQ * headDim
    let kvLen := batch * nKvHeads * seqKv * headDim
    if q.length ≠ qLen then
      some (.error (.wrongInputLen "q" qLen q.length))
    else if k.length ≠ kvLen then
      some (.error (.wrongInputLen "k" kvLen k.length))
    else if v.length ≠ kvLen then
      some (.error (.wrongInputLen "v" kvLen v.length))
    else if out.length ≠ qLen then
      some (.error (.wrongInputLen "out" qLen out.length))
    else
      let groupSize := nHeads / nKvHeads
      if seqQ = seqKv then
        let kvHSize := seqKv * headDim
        let kRep := repeatHeads batch nHeads nKvHeads groupSize kvHSize k
        let vRep := repeatHeads batch nHeads nKvHeads groupSize kvHSize v
        let shape := AttentionShape.new batch nHeads seqQ headDim
        (flashForward exp sqrt gemm fuel shape q kRep vRep out).map fun result =>
          result.mapError fun _ => .wrongInputLen "flash_forward" 0 0
      else
        let scale := 1 / sqrt headDim
        let attnRow := fun bhIdx outBlock =>
          decodeAttnRow exp bhIdx q k v outBlock nHeads nKvHeads seqQ seqKv headDim scale groupSize
        if seqQ = 1 then
          some (.ok ((range (batch * nHeads)).foldl
            (fun out bhIdx =>
              let off := bhIdx * seqQ * headDim
              writeAt off (attnRow bhIdx (slice off (seqQ * headDim) out)) out) out))
        else if seqQ * headDim = 0 then
          none
        else
          some (.ok ((Chunks.chunks (seqQ * headDim) out).zipIdx.map fun (outBlock, bhIdx) =>
            attnRow bhIdx outBlock).flatten)

end Model

section Rows

variable [Field F] [LinearOrder F] {exp sqrt : F → F} {seqQ seqKv headDim : Nat}

/-! ## The softmax average of a group -/

/-- The scaled product of query `i` and key `j`. -/
def groupedScore (sqrt : F → F) (headDim qBase kvBase : Nat) (q k : List (Extended F))
    (i j : Nat) : F :=
  (∑ d ∈ Finset.range headDim, finPart (read q (qBase + i * headDim + d)) *
    finPart (read k (kvBase + j * headDim + d))) / sqrt headDim

/-- The average of the values of a key/value head for query `i`. -/
def groupedRow (exp sqrt : F → F) (seqKv headDim qBase kvBase : Nat) (q k v : List (Extended F))
    (i : Nat) : List (Extended F) :=
  (range headDim).map fun d =>
    .fin (∑ j ∈ Finset.range seqKv,
      softmax exp (groupedScore sqrt headDim qBase kvBase q k i) (Finset.range seqKv) j *
        keyValue headDim kvBase v j d)

variable {q k v : List (Extended F)} {value : Nat → Nat → F} {xs : List (Extended F)}

omit [LinearOrder F] in
theorem length_groupedRow {qBase kvBase i : Nat} :
    (groupedRow exp sqrt seqKv headDim qBase kvBase q k v i).length = headDim := by
  simp [groupedRow]

theorem attentionRow_coe (hexp : ExpLaws exp) {score : Nat → F} {dim first seq : Nat} :
    0 < first → 0 < seq →
      attentionRow exp (fun j => (score j : WithBot F)) value dim first seq =
        (range dim).map fun d => .fin (∑ j ∈ Finset.range seq,
          softmax exp score (Finset.range seq) j * value j d) := by
  intro hfirst hseq
  rw [attentionRow, if_neg (sup_coe_ne_bot (Finset.nonempty_range_iff.2 hfirst.ne'))]
  apply map_congr_left
  intro d _
  rw [numerator_div_denominator hexp (Finset.nonempty_range_iff.2 hseq.ne')]

theorem attentionRow_congr {score score' : Nat → WithBot F} {value' : Nat → Nat → F}
    {dim first seq : Nat} (hle : first ≤ seq) (hscore : ∀ j < seq, score j = score' j)
    (hvalue : ∀ j < seq, ∀ d < dim, value j d = value' j d) :
    attentionRow exp score value dim first seq = attentionRow exp score' value' dim first seq :=
  attentionRow_unseen hle hscore fun j hj _ => hvalue j hj

/-! ## The loops of a query head -/

omit [Field F] [LinearOrder F] in
theorem read_slice {off len i : Nat} : i < len →
    read (slice off len xs) i = read xs (off + i) := by
  intro hi
  rw [slice, read_take hi, read_drop]

theorem decodeScores_eq {qRow kBlock : List (Extended F)} {a : Nat → F} {b : Nat → Nat → F}
    (hq : ∀ d < headDim, read qRow d = .fin (a d))
    (hk : ∀ j < seqKv, ∀ d < headDim, read kBlock (j * headDim + d) = .fin (b j d)) :
    decodeScores (1 / sqrt headDim) seqKv headDim qRow kBlock =
      scoreRow (fun j => (((∑ d ∈ Finset.range headDim, a d * b j d) / sqrt headDim : F) :
        WithBot F)) seqKv := by
  apply map_congr_left
  intro j hj
  dsimp only
  rw [foldl_add_fin 0 (f := fun d => a d * b j d)]
  · rw [fin_mul, zero_add, mul_one_div, ofScore_coe]
  · intro d hd
    rw [hq d hd, read_row hd, hk j (mem_range.1 hj) d hd, fin_mul]

theorem decodeWeights_eq [IsStrictOrderedRing F] (hexp : ExpLaws exp) {score : Nat → WithBot F}
    {n : Nat} (hne : (Finset.range n).sup score ≠ ⊥) :
    decodeWeights exp (scoreRow score n) = (range n).map fun j =>
      .fin (weight exp ((Finset.range n).sup score) (score j) /
        denominator exp score (Finset.range n)) := by
  have hpos := denominator_pos hexp.pos hne
  rw [decodeWeights, foldl_max_scoreRow]
  simp only [map_exp_scoreRow hne, foldl_add_weights]
  rw [fin_div hpos.ne', map_map]
  apply map_congr_left
  intro j _
  rw [Function.comp_apply, fin_mul, mul_one_div]

theorem decodeOutRow_eq {scores vBlock : List (Extended F)} {w : Nat → F}
    (hw : ∀ j < seqKv, read scores j = .fin (w j))
    (hv : ∀ j < seqKv, ∀ d < headDim, read vBlock (j * headDim + d) = .fin (value j d)) :
    decodeOutRow seqKv headDim scores vBlock = (range headDim).map fun d =>
      .fin (∑ j ∈ Finset.range seqKv, w j * value j d) := by
  rw [decodeOutRow]
  induction seqKv with
  | zero =>
    apply ext_getElem
    · simp
    · intro d _ _
      simp
  | succ n ih =>
    rw [range_succ, foldl_append,
      ih (fun j hj => hw j (Nat.lt_succ_of_lt hj)) (fun j hj => hv j (Nat.lt_succ_of_lt hj)),
      foldl_cons, foldl_nil]
    apply ext_getElem
    · simp
    · intro d hd _
      have hd' : d < headDim := by simpa using hd
      simp only [getElem_mapIdx, getElem_map, getElem_range]
      rw [hw n (Nat.lt_succ_self n), read_row hd', hv n (Nat.lt_succ_self n) d hd',
        fin_mul, fin_add, Finset.sum_range_succ]

variable [IsStrictOrderedRing F]

theorem decodeRow_eq (hexp : ExpLaws exp) {qBase kvBase i : Nat} (hseqKv : 0 < seqKv)
    (hi : i < seqQ) (hq : HeadOperand seqQ headDim qBase q)
    (hk : HeadOperand seqKv headDim kvBase k) (hv : HeadOperand seqKv headDim kvBase v) :
    decodeOutRow seqKv headDim
        (decodeWeights exp (decodeScores (1 / sqrt headDim) seqKv headDim
          (row headDim i (slice qBase (seqQ * headDim) q)) (slice kvBase (seqKv * headDim) k)))
        (slice kvBase (seqKv * headDim) v) =
      groupedRow exp sqrt seqKv headDim qBase kvBase q k v i := by
  have hkeys := Finset.nonempty_range_iff.2 hseqKv.ne'
  have hqRow : ∀ d < headDim, read (row headDim i (slice qBase (seqQ * headDim) q)) d =
      .fin (finPart (read q (qBase + i * headDim + d))) := by
    intro d hd
    rw [read_row hd, read_slice (cell_lt hi hd), ← Nat.add_assoc]
    exact hq.read_eq hi hd
  have hblock : ∀ {xs : List (Extended F)}, HeadOperand seqKv headDim kvBase xs →
      ∀ j < seqKv, ∀ d < headDim, read (slice kvBase (seqKv * headDim) xs) (j * headDim + d) =
        .fin (finPart (read xs (kvBase + j * headDim + d))) := by
    intro xs hxs j hj d hd
    rw [read_slice (cell_lt hj hd), ← Nat.add_assoc]
    exact hxs.read_eq hj hd
  rw [decodeScores_eq hqRow (hblock hk), decodeWeights_eq hexp (sup_coe_ne_bot hkeys),
    decodeOutRow_eq (fun j hj => read_map_range hj) (hblock hv), groupedRow]
  apply map_congr_left
  intro d _
  rw [sum_weight_div, numerator_div_denominator hexp hkeys]
  rfl

/-! ## The head of a query head -/

/-- The key/value head, counted over the batch, that a query head reads. -/
def kvHead (nHeads nKvHeads groupSize bhIdx : Nat) : Nat :=
  bhIdx / nHeads * nKvHeads + bhIdx % nHeads / groupSize

theorem kvHead_add {nHeads nKvHeads groupSize b h : Nat} : h < nHeads →
    kvHead nHeads nKvHeads groupSize (b * nHeads + h) = b * nKvHeads + h / groupSize := by
  intro hh
  rw [kvHead, cell_div hh, cell_mod hh]

theorem kvHead_lt {batch groupSize nKvHeads bhIdx : Nat} :
    bhIdx < batch * (groupSize * nKvHeads) →
      kvHead (groupSize * nKvHeads) nKvHeads groupSize bhIdx < batch * nKvHeads := by
  intro hbh
  have hheads : 0 < groupSize * nKvHeads := Nat.pos_of_ne_zero fun h0 => by
    rw [h0, Nat.mul_zero] at hbh
    exact absurd hbh (Nat.not_lt_zero _)
  apply cell_lt
  · exact Nat.div_lt_of_lt_mul (Nat.mul_comm batch _ ▸ hbh)
  · exact Nat.div_lt_of_lt_mul (Nat.mod_lt _ hheads)

/-- The heads of `out`, where query head `bhIdx` attends to its key/value head. -/
def groupedOutput (exp sqrt : F → F) (batch groupSize nKvHeads seqQ seqKv headDim : Nat)
    (q k v : List (Extended F)) : List (Extended F) :=
  (range (batch * (groupSize * nKvHeads))).flatMap fun bhIdx =>
    (range seqQ).flatMap (groupedRow exp sqrt seqKv headDim (bhIdx * (seqQ * headDim))
      (kvHead (groupSize * nKvHeads) nKvHeads groupSize bhIdx * (seqKv * headDim)) q k v)

/-- Finite operands of the right lengths for `groupSize` query heads on every key/value head. -/
structure GroupedInputs (batch groupSize nKvHeads seqQ seqKv headDim : Nat)
    (q k v out : List (Extended F)) : Prop where
  nKvHeads_pos : 0 < nKvHeads
  seqQ_pos : 0 < seqQ
  seqKv_pos : 0 < seqKv
  headDim_pos : 0 < headDim
  q_length : q.length = batch * (groupSize * nKvHeads) * seqQ * headDim
  k_length : k.length = batch * nKvHeads * seqKv * headDim
  v_length : v.length = batch * nKvHeads * seqKv * headDim
  out_length : out.length = batch * (groupSize * nKvHeads) * seqQ * headDim
  q_finite : ∀ x ∈ q, x.isFinite = true
  k_finite : ∀ x ∈ k, x.isFinite = true
  v_finite : ∀ x ∈ v, x.isFinite = true

omit [Field F] [LinearOrder F] [IsStrictOrderedRing F] in
theorem headOperand_block {n seq r : Nat} (hlen : xs.length = n * seq * headDim)
    (hfinite : ∀ x ∈ xs, x.isFinite = true) (hr : r < n) :
    HeadOperand seq headDim (r * (seq * headDim)) xs where
  fits := by
    rw [hlen, Nat.mul_assoc n, ← Nat.succ_mul]
    exact Nat.mul_le_mul_right _ hr
  finite := hfinite

section Inputs

variable {batch groupSize nKvHeads : Nat} {q k v out : List (Extended F)}

/-! ## In place -/

variable {bhIdx w : Nat} {kv : List (Extended F)} {gemm : Gemm F} {fuel : Nat}

theorem decodeAttnRow_eq (hexp : ExpLaws exp)
    (h : GroupedInputs batch groupSize nKvHeads seqQ seqKv headDim q k v out)
    (hbh : bhIdx < batch * (groupSize * nKvHeads)) {outBlock : List (Extended F)}
    (hlen : outBlock.length = seqQ * headDim) :
    decodeAttnRow exp bhIdx q k v outBlock (groupSize * nKvHeads) nKvHeads seqQ seqKv headDim
        (1 / sqrt headDim) groupSize =
      (range seqQ).flatMap (groupedRow exp sqrt seqKv headDim (bhIdx * (seqQ * headDim))
        (kvHead (groupSize * nKvHeads) nKvHeads groupSize bhIdx * (seqKv * headDim)) q k v) := by
  have hqOff : bhIdx / (groupSize * nKvHeads) * (groupSize * nKvHeads) * seqQ * headDim +
      bhIdx % (groupSize * nKvHeads) * seqQ * headDim = bhIdx * (seqQ * headDim) := by
    rw [Nat.mul_assoc _ seqQ, Nat.mul_assoc _ seqQ, ← Nat.add_mul, Nat.mul_comm (_ / _),
      Nat.div_add_mod]
  have hkvOff : bhIdx / (groupSize * nKvHeads) * nKvHeads * seqKv * headDim +
      bhIdx % (groupSize * nKvHeads) / groupSize * seqKv * headDim =
        kvHead (groupSize * nKvHeads) nKvHeads groupSize bhIdx * (seqKv * headDim) := by
    rw [kvHead, Nat.mul_assoc _ seqKv, Nat.mul_assoc _ seqKv, ← Nat.add_mul]
  have hkv := kvHead_lt hbh
  rw [decodeAttnRow]
  simp only [hqOff, hkvOff]
  rw [foldl_eq_writeAt (fun _ _ => length_groupedRow) outBlock (by rw [Nat.zero_add, hlen])]
  · exact writeAt_zero ((length_flatMap_range fun _ _ => length_groupedRow).trans hlen.symm)
  · intro i hi buf _
    rw [Nat.zero_add, decodeRow_eq hexp h.seqKv_pos hi
      (headOperand_block h.q_length h.q_finite hbh) (headOperand_block h.k_length h.k_finite hkv)
      (headOperand_block h.v_length h.v_finite hkv)]

/-! ## Repeated heads -/

section

variable (hlen : kv.length = batch * nKvHeads * w)

include hlen

omit [LinearOrder F] [IsStrictOrderedRing F] in
theorem repeatHeads_eq :
    repeatHeads batch (groupSize * nKvHeads) nKvHeads groupSize w kv =
      (range (batch * (groupSize * nKvHeads))).flatMap fun bhIdx =>
        row w (kvHead (groupSize * nKvHeads) nKvHeads groupSize bhIdx) kv := by
  have hrow : ∀ b < batch, ∀ h < groupSize * nKvHeads,
      (row w (b * nKvHeads + h / groupSize) kv).length = w := by
    intro b hb h hh
    rw [← kvHead_add hh]
    apply length_row
    rw [hlen]
    exact Nat.mul_le_mul_right _ (kvHead_lt (cell_lt hb hh))
  have hentry : ∀ b < batch, ((range (groupSize * nKvHeads)).flatMap fun h =>
      row w (b * nKvHeads + h / groupSize) kv).length = groupSize * nKvHeads * w :=
    fun b hb => length_flatMap_range (hrow b hb)
  have hrep : (replicate (batch * (groupSize * nKvHeads) * w) (fin (0 : F))).length =
      batch * (groupSize * nKvHeads * w) := by
    rw [length_replicate, Nat.mul_assoc]
  rw [repeatHeads, foldl_eq_writeAt hentry _ (by rw [Nat.zero_add, hrep])]
  · rw [writeAt_zero ((length_flatMap_range hentry).trans hrep.symm), flatMap_range_mul]
    apply flatMap_congr
    intro b _
    apply flatMap_congr
    intro h hh
    rw [kvHead_add (mem_range.1 hh)]
  · intro b hb buf hbuf
    rw [Nat.zero_add]
    have hbase : b * (groupSize * nKvHeads) * w = b * (groupSize * nKvHeads * w) :=
      Nat.mul_assoc ..
    simp only [hbase]
    apply foldl_eq_writeAt (hrow b hb)
    · rw [hbuf, hrep, ← Nat.succ_mul]
      exact Nat.mul_le_mul_right _ hb
    · intro h _ buf' _
      rw [← Nat.add_mul]
      rfl

omit [LinearOrder F] [IsStrictOrderedRing F] in
theorem read_repeatHeads {x : Nat} (hbh : bhIdx < batch * (groupSize * nKvHeads)) (hx : x < w) :
    read (repeatHeads batch (groupSize * nKvHeads) nKvHeads groupSize w kv) (bhIdx * w + x) =
      read kv (kvHead (groupSize * nKvHeads) nKvHeads groupSize bhIdx * w + x) := by
  have hrow : ∀ r < batch * (groupSize * nKvHeads),
      (row w (kvHead (groupSize * nKvHeads) nKvHeads groupSize r) kv).length = w := by
    intro r hr
    apply length_row
    rw [hlen]
    exact Nat.mul_le_mul_right _ (kvHead_lt hr)
  rw [← read_row hx, repeatHeads_eq hlen, row_flatMap_range hrow bhIdx hbh, read_row hx]

omit [LinearOrder F] [IsStrictOrderedRing F] in
theorem repeatHeads_finite (hfinite : ∀ x ∈ kv, x.isFinite = true) :
    (repeatHeads batch (groupSize * nKvHeads) nKvHeads groupSize w kv).length =
        batch * (groupSize * nKvHeads) * w ∧
      ∀ x ∈ repeatHeads batch (groupSize * nKvHeads) nKvHeads groupSize w kv,
        x.isFinite = true := by
  rw [repeatHeads_eq hlen]
  constructor
  · apply length_flatMap_range
    intro r hr
    apply length_row
    rw [hlen]
    exact Nat.mul_le_mul_right _ (kvHead_lt hr)
  · intro x hx
    obtain ⟨r, _, hmem⟩ := mem_flatMap.1 hx
    exact hfinite x (mem_of_mem_drop (mem_of_mem_take hmem))

end

omit [IsStrictOrderedRing F] in
/-- The tiled kernel on the copies averages over the shared heads. -/
theorem headRow_repeatHeads (hexp : ExpLaws exp) {seq first i : Nat}
    (h : GroupedInputs batch groupSize nKvHeads seq seq headDim q k v out)
    (hbh : bhIdx < batch * (groupSize * nKvHeads)) (hfirst : 0 < first) (hle : first ≤ seq) :
    headRow exp (1 / sqrt headDim) .none q
        (repeatHeads batch (groupSize * nKvHeads) nKvHeads groupSize (seq * headDim) k)
        (repeatHeads batch (groupSize * nKvHeads) nKvHeads groupSize (seq * headDim) v) headDim seq
        first (bhIdx * (seq * headDim)) i =
      groupedRow exp sqrt seq headDim (bhIdx * (seq * headDim))
        (kvHead (groupSize * nKvHeads) nKvHeads groupSize bhIdx * (seq * headDim)) q k v i := by
  have hread : ∀ {kv : List (Extended F)}, kv.length = batch * nKvHeads * seq * headDim →
      ∀ j < seq, ∀ d < headDim,
        read (repeatHeads batch (groupSize * nKvHeads) nKvHeads groupSize (seq * headDim) kv)
            (bhIdx * (seq * headDim) + j * headDim + d) =
          read kv (kvHead (groupSize * nKvHeads) nKvHeads groupSize bhIdx * (seq * headDim) +
            j * headDim + d) := by
    intro kv hlen j hj d hd
    rw [Nat.add_assoc, Nat.add_assoc,
      read_repeatHeads (hlen.trans (Nat.mul_assoc ..)) hbh (cell_lt hj hd)]
  -- a key is scored as the head it is copied from
  have hscore : ∀ j < seq, keyScore (1 / sqrt headDim) headDim headDim (bhIdx * (seq * headDim))
      .none q (repeatHeads batch (groupSize * nKvHeads) nKvHeads groupSize (seq * headDim) k) i j =
        WithBot.some (groupedScore sqrt headDim (bhIdx * (seq * headDim))
          (kvHead (groupSize * nKvHeads) nKvHeads groupSize bhIdx * (seq * headDim)) q k i j) := by
    intro j hj
    rw [keyScore, Mask.isMasked, if_neg Bool.false_ne_true, scaledDot, groupedScore, mul_one_div]
    congr 2
    apply Finset.sum_congr rfl
    intro d hd
    rw [hread h.k_length j hj d (Finset.mem_range.1 hd)]
  have hvalue : ∀ j < seq, ∀ d < headDim, keyValue headDim (bhIdx * (seq * headDim))
      (repeatHeads batch (groupSize * nKvHeads) nKvHeads groupSize (seq * headDim) v) j d =
        keyValue headDim (kvHead (groupSize * nKvHeads) nKvHeads groupSize bhIdx *
          (seq * headDim)) v j d := by
    intro j hj d hd
    rw [keyValue, keyValue, hread h.v_length j hj d hd]
  rw [headRow, attentionRow_congr hle hscore hvalue, attentionRow_coe hexp hfirst h.seqKv_pos,
    groupedRow]

/-! ## The operator -/

omit [LinearOrder F] [IsStrictOrderedRing F] in
theorem checked_repeatHeads
    (h : GroupedInputs batch groupSize nKvHeads seqQ seqQ headDim q k v out) :
    Checked (AttentionShape.new batch (groupSize * nKvHeads) seqQ headDim) q
      (repeatHeads batch (groupSize * nKvHeads) nKvHeads groupSize (seqQ * headDim) k)
      (repeatHeads batch (groupSize * nKvHeads) nKvHeads groupSize (seqQ * headDim) v) out
      .none := by
  have hkv : ∀ {kv : List (Extended F)}, kv.length = batch * nKvHeads * seqQ * headDim →
      kv.length = batch * nKvHeads * (seqQ * headDim) := fun hlen => hlen.trans (Nat.mul_assoc ..)
  have hlen : ∀ n, n = batch * (groupSize * nKvHeads) * (seqQ * headDim) →
      n = (AttentionShape.new batch (groupSize * nKvHeads) seqQ headDim).bufferLen :=
    fun n hn => hn.trans (Nat.mul_assoc ..).symm
  have hkRep := @repeatHeads_finite F _ batch groupSize nKvHeads (seqQ * headDim) k
    (hkv h.k_length) h.k_finite
  have hvRep := @repeatHeads_finite F _ batch groupSize nKvHeads (seqQ * headDim) v
    (hkv h.v_length) h.v_finite
  exact
    { dim := h.headDim_pos
      q_length := h.q_length
      k_length := hlen _ hkRep.1
      v_length := hlen _ hvRep.1
      out_length := h.out_length
      mask := rfl
      q_finite := h.q_finite
      k_finite := hkRep.2
      v_finite := hvRep.2 }

/-- As many queries as keys: the tiled kernel on the copies. -/
theorem flashForward_repeatHeads (hexp : ExpLaws exp) (hgemm : ExactGemm gemm)
    (h : GroupedInputs batch groupSize nKvHeads seqQ seqQ headDim q k v out) (hfuel : seqQ < fuel) :
    flashForward exp sqrt gemm fuel (AttentionShape.new batch (groupSize * nKvHeads) seqQ headDim) q
        (repeatHeads batch (groupSize * nKvHeads) nKvHeads groupSize (seqQ * headDim) k)
        (repeatHeads batch (groupSize * nKvHeads) nKvHeads groupSize (seqQ * headDim) v) out =
      some (.ok (groupedOutput exp sqrt batch groupSize nKvHeads seqQ seqQ headDim q k v)) := by
  have htile : 0 < 64 := Nat.succ_pos 63
  rw [flashForward, flashForwardMasked_eq hexp hgemm (checked_repeatHeads h) htile htile hfuel]
  apply congrArg fun buf => some (Except.ok buf)
  apply flatMap_congr
  intro bhIdx hbh
  apply flatMap_congr
  intro i _
  exact headRow_repeatHeads hexp h (mem_range.1 hbh) (lt_min htile h.seqQ_pos)
    (Nat.min_le_right ..)

theorem foldl_decodeAttnRow (hexp : ExpLaws exp)
    (h : GroupedInputs batch groupSize nKvHeads seqQ seqKv headDim q k v out) :
    (range (batch * (groupSize * nKvHeads))).foldl
        (fun out bhIdx =>
          writeAt (bhIdx * seqQ * headDim)
            (decodeAttnRow exp bhIdx q k v (slice (bhIdx * seqQ * headDim) (seqQ * headDim) out)
              (groupSize * nKvHeads) nKvHeads seqQ seqKv headDim (1 / sqrt headDim) groupSize)
            out) out =
      groupedOutput exp sqrt batch groupSize nKvHeads seqQ seqKv headDim q k v := by
  have hout : out.length = batch * (groupSize * nKvHeads) * (seqQ * headDim) :=
    h.out_length.trans (Nat.mul_assoc ..)
  have hblocks : ∀ bhIdx < batch * (groupSize * nKvHeads), ((range seqQ).flatMap
      (groupedRow exp sqrt seqKv headDim (bhIdx * (seqQ * headDim))
        (kvHead (groupSize * nKvHeads) nKvHeads groupSize bhIdx * (seqKv * headDim)) q k
          v)).length = seqQ * headDim :=
    fun _ _ => length_flatMap_range fun _ _ => length_groupedRow
  rw [foldl_eq_writeAt hblocks out (by rw [Nat.zero_add, hout])]
  · exact writeAt_zero ((length_flatMap_range hblocks).trans hout.symm)
  · intro bhIdx hbh buf hbuf
    have hslice : (slice (bhIdx * seqQ * headDim) (seqQ * headDim) buf).length =
        seqQ * headDim := by
      rw [Nat.mul_assoc]
      apply length_row
      rw [hbuf, hout]
      exact Nat.mul_le_mul_right _ hbh
    rw [decodeAttnRow_eq hexp h hbh hslice, Nat.zero_add, Nat.mul_assoc]

/-- The buffer of a run on well-formed operands. -/
theorem gqaForwardF32_output (hexp : ExpLaws exp) (hgemm : ExactGemm gemm)
    (h : GroupedInputs batch groupSize nKvHeads seqQ seqKv headDim q k v out) (hfuel : seqQ < fuel) :
    gqaForwardF32 exp sqrt gemm fuel q k v out batch (groupSize * nKvHeads) nKvHeads seqQ seqKv
        headDim =
      some (.ok (groupedOutput exp sqrt batch groupSize nKvHeads seqQ seqKv headDim q k v)) := by
  have hheads : ¬ (nKvHeads = 0 ∨ groupSize * nKvHeads % nKvHeads ≠ 0) := by
    rintro (h0 | hmod)
    · exact h.nKvHeads_pos.ne' h0
    · exact hmod (Nat.mul_mod_left ..)
  rw [gqaForwardF32, if_neg hheads]
  simp only [h.q_length, h.k_length, h.v_length, h.out_length, ne_eq, not_true_eq_false, if_false,
    Nat.mul_div_cancel groupSize h.nKvHeads_pos]
  by_cases hself : seqQ = seqKv
  · subst hself
    rw [if_pos rfl, flashForward_repeatHeads hexp hgemm h hfuel]
    rfl
  · rw [if_neg hself]
    by_cases hone : seqQ = 1
    · rw [if_pos hone, foldl_decodeAttnRow hexp h]
    · have hrow : 0 < seqQ * headDim := Nat.mul_pos h.seqQ_pos h.headDim_pos
      have hout : out.length = batch * (groupSize * nKvHeads) * (seqQ * headDim) :=
        h.out_length.trans (Nat.mul_assoc ..)
      rw [if_neg hone, if_neg hrow.ne', Chunks.flatten_map_zipIdx_chunks hrow hout
        fun _ _ hlen hbh => decodeAttnRow_eq hexp h hbh hlen]
      rfl

/-- Cell `(b, h, i, d)` of a `[_, heads, seq, dim]` buffer. -/
def headCell (heads seq dim : Nat) (xs : List (Extended F)) (b h i d : Nat) : Extended F :=
  read xs (((b * heads + h) * seq + i) * dim + d)

/-- The run ends with `Ok`, and each head of `out` holds the averages over the key/value head of its
group, weighed by the softmax of the scaled products. -/
def AttendsGrouped (exp sqrt : F → F) (gemm : Gemm F) (fuel : Nat) (q k v out : List (Extended F))
    (batch groupSize nKvHeads seqQ seqKv headDim : Nat) : Prop :=
  let nHeads := groupSize * nKvHeads
  ∃ written,
    gqaForwardF32 exp sqrt gemm fuel q k v out batch nHeads nKvHeads seqQ seqKv headDim =
      some (.ok written) ∧ written.length = out.length ∧
    ∀ b < batch, ∀ h < nHeads, ∀ i < seqQ, ∀ d < headDim,
      headCell nHeads seqQ headDim written b h i d =
        .fin (∑ j ∈ Finset.range seqKv,
          softmax exp
            (fun j => (∑ d ∈ Finset.range headDim,
              finPart (headCell nHeads seqQ headDim q b h i d) *
                finPart (headCell nKvHeads seqKv headDim k b (h / groupSize) j d)) / sqrt headDim)
            (Finset.range seqKv) j *
              finPart (headCell nKvHeads seqKv headDim v b (h / groupSize) j d))

omit [Field F] [LinearOrder F] [IsStrictOrderedRing F] in
theorem headCell_eq {heads seq dim b h i d : Nat} {xs : List (Extended F)} :
    headCell heads seq dim xs b h i d = read xs ((b * heads + h) * (seq * dim) + i * dim + d) := by
  rw [headCell, Nat.add_mul _ i, Nat.mul_assoc _ seq]

/-- All three paths attend to the shared heads. -/
theorem gqaForwardF32_attends (hadd : ∀ x y, exp (x + y) = exp x * exp y) (hpos : ∀ x, 0 < exp x)
    {gemm : Gemm F} (hgemm : ExactGemm gemm)
    (h : GroupedInputs batch groupSize nKvHeads seqQ seqKv headDim q k v out) :
    ∀ fuel > seqQ,
      AttendsGrouped exp sqrt gemm fuel q k v out batch groupSize nKvHeads seqQ seqKv headDim := by
  intro fuel hfuel
  have hlen : (groupedOutput exp sqrt batch groupSize nKvHeads seqQ seqKv headDim q k v).length =
      batch * (groupSize * nKvHeads) * (seqQ * headDim) :=
    length_flatMap_range fun _ _ => length_flatMap_range fun _ _ => length_groupedRow
  refine ⟨_, gqaForwardF32_output (expLaws_of_pos hadd hpos) hgemm h hfuel, ?_, ?_⟩
  · rw [hlen, h.out_length, Nat.mul_assoc _ seqQ]
  · intro b hb head hhead i hi d hd
    have hbh := cell_lt hb hhead
    rw [headCell_eq, Nat.add_assoc, ← read_row (cell_lt hi hd), groupedOutput,
      row_flatMap_range (fun _ _ => length_flatMap_range fun _ _ => length_groupedRow) _ hbh,
      ← read_row hd, row_flatMap_range (fun _ _ => length_groupedRow) i hi, groupedRow,
      read_map_range hd, kvHead_add hhead]
    simp only [headCell_eq]
    rfl

end Inputs

end Rows

/-- Two query heads on one key/value head of two keys, which they weigh alike. -/
theorem gqaForwardF32_attends_pair :
    AttendsGrouped (fun _ : ℚ => 1) (fun _ => 1) productGemm 2 [.fin 0, .fin 0] [.fin 0, .fin 0]
      [.fin 1, .fin 2] [.nan, .nan] 1 2 1 1 2 1 :=
  gqaForwardF32_attends (by simp) (by simp) productGemm_exact
    { nKvHeads_pos := by decide
      seqQ_pos := by decide
      seqKv_pos := by decide
      headDim_pos := by decide
      q_length := rfl
      k_length := rfl
      v_length := rfl
      out_length := rfl
      q_finite := by simp
      k_finite := by simp
      v_finite := by simp } 2 (by decide)

end Nn
end Rustorch
