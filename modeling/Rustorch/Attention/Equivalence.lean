import Rustorch.Attention.KeyTiles

/-!
# Tiled against naive

Both kernels fill the output row by row.  A row of the reference is the softmax average of the
values, or NaN if the mask hides every key (`attentionRow` with all keys as the first tile).  A row
of the tiled kernel is NaN already if the mask hides the first tile (`queryLoop_rows`).
-/

namespace Rustorch
namespace Attention

open OnlineSoftmax Rows List Extended Chunks

section Output

variable {F : Type} [Field F] [LinearOrder F] {exp sqrt : F → F} {gemm : Gemm F}
  {score : Nat → WithBot F} {value : Nat → Nat → F} {dim first seq : Nat}

/-! ## Rows of the output -/

/-- The softmax average over the keys, NaN if the first `first` of them are hidden. -/
def attentionRow (exp : F → F) (score : Nat → WithBot F) (value : Nat → Nat → F)
    (dim first seq : Nat) : List (Extended F) :=
  if (Finset.range first).sup score = ⊥ then
    replicate dim .nan
  else
    (range dim).map fun d =>
      .fin (numerator exp score (fun j => value j d) (Finset.range seq) /
        denominator exp score (Finset.range seq))

theorem length_attentionRow :
    (attentionRow exp score value dim first seq).length = dim := by
  rw [attentionRow]
  split_ifs <;> simp

omit [Field F] in
theorem sup_ne_bot_of_le : first ≤ seq → (Finset.range first).sup score ≠ ⊥ →
    (Finset.range seq).sup score ≠ ⊥ := by
  intro hle hne hbot
  apply hne
  rw [← le_bot_iff, ← hbot]
  exact Finset.sup_mono (Finset.range_mono hle)

/-- The test that both kernels make on a denominator. -/
theorem positive_finite {d : F} : 0 < d →
    (lt (.fin 0) (fin d) && (fin d).isFinite) = true := by
  intro hd
  simpa [lt] using hd

theorem outputRow_eq [IsStrictOrderedRing F] (hexp : ExpLaws exp) {args : FlashTileArgs F}
    {bufs : FlashBuffers F} {r : Nat} (hseq : 0 < seq) (hle : first ≤ seq)
    (h : RowHolds exp score value args.dim first seq (read bufs.mBuf r) (read bufs.lBuf r)
      (row args.dim r bufs.oBuf)) :
    outputRow args bufs r = attentionRow exp score value args.dim first seq := by
  rw [outputRow, attentionRow]
  by_cases hbot : (Finset.range first).sup score = ⊥
  · rw [if_pos hbot, h.poisoned hseq hbot]
    simp
  · obtain ⟨hl, ho⟩ := h.sums (Or.inr hbot)
    have hpos := denominator_pos hexp.pos (sup_ne_bot_of_le hle hbot)
    rw [if_neg hbot, hl, ho, fin_div hpos.ne']
    simp only [positive_finite hpos, if_true, map_map]
    apply map_congr_left
    intro d _
    rw [Function.comp_apply, fin_mul, mul_one_div]

/-! ## The softmax of a score row -/

omit [Field F] in
theorem foldl_max_scoreRow :
    (scoreRow score seq).foldl Extended.max .negInf = ofScore ((Finset.range seq).sup score) := by
  rw [scoreRow, foldl_map, ← ofScore_bot, foldl_max_ofScore, bot_sup_eq]

omit [LinearOrder F] in
theorem map_exp_scoreRow {m : WithBot F} (hm : m ≠ ⊥) :
    (scoreRow score seq).map (fun x => Extended.exp exp (x - ofScore m)) =
      (range seq).map fun j => .fin (weight exp m (score j)) := by
  rw [scoreRow, map_map]
  apply map_congr_left
  intro j _
  exact exp_sub_ofScore (score j) hm

theorem foldl_add_weights :
    ((range seq).map fun j =>
        fin (weight exp ((Finset.range seq).sup score) (score j))).foldl (· + ·)
          (.fin 0) = .fin (denominator exp score (Finset.range seq)) := by
  rw [foldl_map, foldl_add_fin 0 (fun _ _ => rfl), zero_add, denominator]

theorem sum_weight_div {value : Nat → F} :
    ∑ j ∈ Finset.range seq, weight exp ((Finset.range seq).sup score) (score j) /
        denominator exp score (Finset.range seq) * value j =
      numerator exp score value (Finset.range seq) / denominator exp score (Finset.range seq) := by
  rw [numerator, Finset.sum_div]
  apply Finset.sum_congr rfl
  intro j _
  ring

variable {base : Nat} {v : List (Extended F)} {scale : F} {mask : Mask} {q k : List (Extended F)}

theorem naiveRow_eq [IsStrictOrderedRing F] (hexp : ExpLaws exp) {sN : Nat} (hsN : sN = dim)
    (hseq : 0 < seq) (hv : HeadOperand seq dim base v) :
    naiveRow exp seq dim sN base v (scoreRow score seq) =
      attentionRow exp score (keyValue sN base v) dim seq seq := by
  rw [naiveRow, attentionRow, foldl_max_scoreRow]
  by_cases hbot : (Finset.range seq).sup score = ⊥
  · have hnan : ((scoreRow score seq).map fun x =>
        Extended.exp exp (x - ofScore ((Finset.range seq).sup score))).foldl (· + ·)
          (.fin 0) = nan := by
      rw [hbot, scoreRow, map_map, foldl_map]
      exact foldl_add_nan ⟨0, hseq, by simp⟩
    simp only [hnan]
    rw [if_pos hbot]
    simp
  · have hpos := denominator_pos hexp.pos hbot
    simp only [map_exp_scoreRow hbot, foldl_add_weights, positive_finite hpos, if_true]
    rw [if_neg hbot]
    apply map_congr_left
    intro d hd
    rw [foldl_add_fin 0 (f := fun j =>
        weight exp ((Finset.range seq).sup score) (score j) /
          denominator exp score (Finset.range seq) * keyValue sN base v j d)]
    · rw [zero_add, sum_weight_div]
    · intro j hj
      rw [map_map, read_map_range hj, Function.comp_apply, fin_div hpos.ne', keyValue,
        hsN, hv.read_eq hj (mem_range.1 hd)]
      rfl

theorem naiveScore_eq {sN i j : Nat} (hsN : sN = dim) (hq : HeadOperand seq dim base q)
    (hk : HeadOperand seq dim base k) (hi : i < seq) (hj : j < seq) :
    naiveScore scale dim sN base mask q k i j =
      ofScore (keyScore scale dim sN base mask q k i j) := by
  rw [naiveScore, keyScore]
  by_cases hmask : mask.isMasked i j = true
  · rw [if_pos hmask, if_pos hmask, ofScore_bot]
  · rw [if_neg hmask, if_neg hmask, foldl_add_fin 0 (f := fun d =>
      finPart (read q (base + i * sN + d)) * finPart (read k (base + j * sN + d))), zero_add]
    · rfl
    · intro d hd
      rw [hsN, hq.read_eq hi hd, hk.read_eq hj hd]
      rfl

theorem row_naiveScores {sN i : Nat} (hsN : sN = dim) (hq : HeadOperand seq dim base q)
    (hk : HeadOperand seq dim base k) (hi : i < seq) :
    row seq i (naiveScores scale seq dim sN base mask q k) =
      scoreRow (keyScore scale dim sN base mask q k i) seq := by
  rw [naiveScores, row_flatMap_range (fun _ _ => by simp) i hi, scoreRow]
  apply map_congr_left
  intro j hj
  exact naiveScore_eq hsN hq hk hi (mem_range.1 hj)

/-! ## One head -/

/-- The rows of one head's output when the first tile has `first` keys. -/
def headRow (exp : F → F) (scale : F) (mask : Mask) (q k v : List (Extended F))
    (dim seq first base i : Nat) : List (Extended F) :=
  attentionRow exp (keyScore scale dim dim base mask q k i) (keyValue dim base v) dim first seq

theorem length_headRow {i : Nat} :
    (headRow exp scale mask q k v dim seq first base i).length = dim :=
  length_attentionRow

def headRows (exp : F → F) (scale : F) (mask : Mask) (q k v : List (Extended F))
    (dim seq first base : Nat) : List (Extended F) :=
  (range seq).flatMap (headRow exp scale mask q k v dim seq first base)

theorem length_headRows : (headRows exp scale mask q k v dim seq first base).length = seq * dim :=
  length_flatMap_range fun _ _ => length_headRow

section Flash

variable [IsStrictOrderedRing F] {args : FlashTileArgs F} {mask : Mask}
  {q k v outSlab : List (Extended F)} {base : Nat}

theorem writeBack_eq (hexp : ExpLaws exp) (hin : HeadInputs args q k v base) {qi brUsed : Nat}
    {bufs : FlashBuffers F} (hqi : qi + brUsed ≤ args.seq) (hseq : 0 < args.seq)
    (hlen : outSlab.length = args.seq * args.dim)
    (h : TileHolds exp args mask q k v base qi brUsed args.seq bufs) :
    writeBack args qi brUsed bufs outSlab =
      writeAt (qi * args.dim) ((range brUsed).flatMap fun r =>
        headRow exp args.scale mask q k v args.dim args.seq (min args.bc args.seq) base (qi + r))
        outSlab := by
  apply foldl_eq_writeAt (fun _ _ => length_headRow)
  · rw [hlen, ← Nat.add_mul]
    exact Nat.mul_le_mul_right _ hqi
  · intro r hr buf _
    rw [outputRow_eq hexp hseq (Nat.min_le_right _ _) (h.2 r hr), hin.stride, Nat.add_mul]
    rfl

theorem queryLoop_rows (hexp : ExpLaws exp) (hgemm : ExactGemm gemm)
    (hin : HeadInputs args q k v base) (hbr : 0 < args.br) (hbc : 0 < args.bc) {keyFuel : Nat}
    (hkeys : args.seq < keyFuel) (fuel : Nat) :
    ∀ (qi : Nat) (bufs : FlashBuffers F) (outSlab : List (Extended F)), qi ≤ args.seq →
      args.seq - qi < fuel → Sized args bufs → outSlab.length = args.seq * args.dim →
        queryLoop exp gemm args mask q k v base base base keyFuel fuel qi bufs outSlab =
          some (writeAt (qi * args.dim) ((range (args.seq - qi)).flatMap fun x =>
            headRow exp args.scale mask q k v args.dim args.seq (min args.bc args.seq) base (qi + x))
            outSlab) := by
  induction fuel with
  | zero =>
    intro qi bufs outSlab _ hfuel
    cases hfuel
  | succ fuel ih =>
    intro qi bufs outSlab hqi hfuel hsized hlen
    rw [queryLoop]
    by_cases hlt : qi < args.seq
    · simp only [if_pos hlt]
      generalize hqiEnd : min (qi + args.br) args.seq = qiEnd
      generalize hbrUsed : qiEnd - qi = brUsed
      have hend : qi + brUsed = qiEnd := by omega
      have hused : brUsed ≤ args.br := by omega
      have hfit : qi + brUsed ≤ args.seq := by omega
      -- the rows of this query tile start afresh and then see every key
      obtain ⟨hreset, hrows⟩ := resetRows_rows hsized hused
      have hstart : TileHolds exp args mask q k v base qi brUsed 0
          (resetRows args.dim brUsed bufs) := by
        refine ⟨hreset, ?_⟩
        intro r hr
        obtain ⟨hm, hl, ho⟩ := hrows r hr
        rw [hm, hl, ho]
        exact RowHolds.zero
      obtain ⟨bufs', hloop, hholds⟩ := keyLoop_rows hexp hgemm hin hused hfit hbc keyFuel 0 _
        (Nat.zero_le _) hkeys (Or.inl rfl) hstart
      have hback := writeBack_eq hexp hin hfit (by omega) hlen hholds
      have hblock : ((range brUsed).flatMap fun r => headRow exp args.scale mask q k v
          args.dim args.seq (min args.bc args.seq) base (qi + r)).length = brUsed * args.dim :=
        length_flatMap_range fun _ _ => length_headRow
      have hwritten : qi * args.dim + brUsed * args.dim ≤ outSlab.length := by
        rw [hlen, ← Nat.add_mul]
        exact Nat.mul_le_mul_right _ hfit
      have hlen' : (writeBack args qi brUsed bufs' outSlab).length = args.seq * args.dim := by
        rw [hback, length_writeAt (by rw [hblock]; exact hwritten), hlen]
      have hrest := ih qiEnd bufs' (writeBack args qi brUsed bufs' outSlab) (by omega) (by omega)
        hholds.1 hlen'
      have hsplit : args.seq - qi = brUsed + (args.seq - qiEnd) := by omega
      have hstartRow : qiEnd * args.dim = qi * args.dim + brUsed * args.dim := by
        rw [← Nat.add_mul, hend]
      rw [hloop]
      simp only [hrest]
      rw [hback, hstartRow, ← hblock, writeAt_writeAt (by omega), hsplit, flatMap_range_add]
      simp only [← hend, Nat.add_assoc]
    · rw [if_neg hlt]
      have heq : args.seq - qi = 0 := by omega
      rw [heq, range_zero, flatMap_nil, writeAt_nil]

theorem flashForwardBhBlas_eq (hexp : ExpLaws exp) (hgemm : ExactGemm gemm)
    (hin : HeadInputs args q k v base) (hbr : 0 < args.br) (hbc : 0 < args.bc) {fuel : Nat}
    (hfuel : args.seq < fuel) (hlen : outSlab.length = args.seq * args.dim) :
    flashForwardBhBlas exp gemm fuel q k v outSlab mask args base base base =
      some (headRows exp args.scale mask q k v args.dim args.seq (min args.bc args.seq) base) := by
  rw [flashForwardBhBlas, queryLoop_rows hexp hgemm hin hbr hbc hfuel fuel 0 _ _ (Nat.zero_le _)
    (by omega) sized_new hlen, Nat.zero_mul, Nat.sub_zero]
  simp only [Nat.zero_add]
  exact congrArg some (writeAt_zero (length_headRows.trans hlen.symm))

end Flash

/-! ## The loops of the reference -/

theorem bufferLen_eq (shape : AttentionShape) :
    shape.bufferLen = shape.batch * shape.heads * (shape.seq * shape.dim) :=
  Nat.mul_assoc ..

section Loops

variable {F : Type} [Zero F] [Add F] [Sub F] [Mul F] [Div F] [LT F] [DecidableLT F]
  [DecidableEq F] {exp sqrt : F → F} {shape : AttentionShape} {mask : Mask}
  {q k v out : List (Extended F)} {scale : F}

variable {base : Nat} {buf : List (Extended F)}

theorem length_naiveRow {seq dim sN : Nat} {scores : List (Extended F)} :
    (naiveRow exp seq dim sN base v scores).length = dim := by
  rw [naiveRow]
  split_ifs <;> simp

/-- The rows of one head, from its score rows. -/
def naiveHeadRows (exp : F → F) (scale : F) (shape : AttentionShape) (mask : Mask)
    (q k v : List (Extended F)) (base : Nat) : List (Extended F) :=
  (range shape.seq).flatMap fun i =>
    naiveRow exp shape.seq shape.dim shape.dim base v
      (row shape.seq i (naiveScores scale shape.seq shape.dim shape.dim base mask q k))

theorem length_naiveHeadRows :
    (naiveHeadRows exp scale shape mask q k v base).length = shape.seq * shape.dim :=
  length_flatMap_range fun _ _ => length_naiveRow

theorem naiveHead_rows (hfit : base + shape.seq * shape.dim ≤ buf.length) :
    naiveHead exp scale shape mask q k v base buf =
      writeAt base (naiveHeadRows exp scale shape mask q k v base) buf :=
  foldl_eq_writeAt (fun _ _ => length_naiveRow) buf hfit fun _ _ _ _ => rfl

theorem naiveHeads_rows {b : Nat} (hb : b < shape.batch) (hlen : buf.length = shape.bufferLen) :
    (range shape.heads).foldl (fun buf i => naiveHead exp scale shape mask q k v
        (b * (shape.heads * (shape.seq * shape.dim)) + i * (shape.seq * shape.dim)) buf) buf =
      writeAt (b * (shape.heads * (shape.seq * shape.dim))) ((range shape.heads).flatMap
        fun i => naiveHeadRows exp scale shape mask q k v
          ((b * shape.heads + i) * (shape.seq * shape.dim))) buf := by
  apply foldl_eq_writeAt (fun _ _ => length_naiveHeadRows)
  · rw [hlen, bufferLen_eq, ← Nat.succ_mul, Nat.mul_assoc]
    exact Nat.mul_le_mul_right _ hb
  · intro i hi buf' hbuf'
    have hbase : b * (shape.heads * (shape.seq * shape.dim)) + i * (shape.seq * shape.dim) =
        (b * shape.heads + i) * (shape.seq * shape.dim) := by
      ring
    rw [hbase]
    apply naiveHead_rows
    rw [hbuf', hlen, bufferLen_eq, ← Nat.succ_mul]
    exact Nat.mul_le_mul_right _ (cell_lt hb hi)

theorem naiveForwardMasked_rows [One F] [NatCast F]
    (hvalidate : validate shape q k v out = .ok ()) (hmask : mask.validate shape.seq = .ok ())
    (hout : out.length = shape.bufferLen) :
    naiveForwardMasked exp sqrt shape q k v mask out =
      .ok ((range (shape.batch * shape.heads)).flatMap fun bh =>
        naiveHeadRows exp (1 / sqrt shape.dim) shape mask q k v
          (bh * (shape.seq * shape.dim))) := by
  rw [naiveForwardMasked, hvalidate]
  simp only [hmask, AttentionShape.strides]
  have hlen : out.length = shape.batch * (shape.heads * (shape.seq * shape.dim)) := by
    rw [hout, bufferLen_eq, Nat.mul_assoc]
  have hblock : ∀ b < shape.batch, ((range shape.heads).flatMap fun i =>
      naiveHeadRows exp (1 / sqrt shape.dim) shape mask q k v
        ((b * shape.heads + i) * (shape.seq * shape.dim))).length =
          shape.heads * (shape.seq * shape.dim) :=
    fun _ _ => length_flatMap_range fun _ _ => length_naiveHeadRows
  rw [foldl_eq_writeAt hblock out (by rw [Nat.zero_add, hlen])]
  · rw [flatMap_range_mul]
    exact congrArg Except.ok (writeAt_zero ((length_flatMap_range hblock).trans hlen.symm))
  · intro b hb buf hbuf
    rw [Nat.zero_add]
    exact naiveHeads_rows hb (hbuf.trans hout)

end Loops

/-! ## The whole output -/

section Heads

variable [IsStrictOrderedRing F] {shape : AttentionShape} {mask : Mask}
  {q k v out : List (Extended F)}

/-- The output of all heads when the first tile has `first` keys. -/
def headsOutput (exp sqrt : F → F) (shape : AttentionShape) (mask : Mask)
    (q k v : List (Extended F)) (first : Nat) : List (Extended F) :=
  (range (shape.batch * shape.heads)).flatMap fun bh =>
    headRows exp (1 / sqrt shape.dim) mask q k v shape.dim shape.seq first
      (bh * (shape.seq * shape.dim))

/-- What both kernels check before they run, and finite operands. -/
structure Checked (shape : AttentionShape) (q k v out : List (Extended F)) (mask : Mask) :
    Prop where
  dim : 0 < shape.dim
  q_length : q.length = shape.bufferLen
  k_length : k.length = shape.bufferLen
  v_length : v.length = shape.bufferLen
  out_length : out.length = shape.bufferLen
  mask : mask.validate shape.seq = .ok ()
  q_finite : ∀ x ∈ q, x.isFinite = true
  k_finite : ∀ x ∈ k, x.isFinite = true
  v_finite : ∀ x ∈ v, x.isFinite = true

omit [Field F] [LinearOrder F] [IsStrictOrderedRing F] in
theorem Checked.validate_eq (h : Checked shape q k v out mask) :
    validate shape q k v out = .ok () := by
  have hdim : shape.dim ≠ 0 := Nat.pos_iff_ne_zero.1 h.dim
  simp [validate, hdim, h.q_length, h.k_length, h.v_length, h.out_length]

omit [Field F] [LinearOrder F] [IsStrictOrderedRing F] in
theorem headOperand {xs : List (Extended F)} {bh : Nat} (hlen : xs.length = shape.bufferLen)
    (hfinite : ∀ x ∈ xs, x.isFinite = true) (hbh : bh < shape.batch * shape.heads) :
    HeadOperand shape.seq shape.dim (bh * (shape.seq * shape.dim)) xs where
  fits := by
    rw [hlen, bufferLen_eq, ← Nat.succ_mul]
    exact Nat.mul_le_mul_right _ hbh
  finite := hfinite

theorem flashForwardMasked_eq (hexp : ExpLaws exp) (hgemm : ExactGemm gemm)
    (h : Checked shape q k v out mask) (hbr : 0 < shape.br) (hbc : 0 < shape.bc) {fuel : Nat}
    (hfuel : shape.seq < fuel) :
    flashForwardMasked exp sqrt gemm fuel shape q k v mask out =
      some (.ok (headsOutput exp sqrt shape mask q k v (min shape.bc shape.seq))) := by
  rw [flashForwardMasked, h.validate_eq]
  simp only [h.mask]
  by_cases hseq : shape.seq = 0
  · have hnil : out = [] := length_eq_zero_iff.1 (by
      rw [h.out_length, bufferLen_eq, hseq, Nat.zero_mul, Nat.mul_zero])
    rw [if_pos hseq, hnil, headsOutput, hseq]
    simp [headRows]
  · have hslab : 0 < shape.seq * shape.dim := Nat.mul_pos (Nat.pos_of_ne_zero hseq) h.dim
    have hlen : out.length = shape.batch * shape.heads * (shape.seq * shape.dim) :=
      h.out_length.trans (bufferLen_eq shape)
    have hcount : (chunks (shape.seq * shape.dim) out).length = shape.batch * shape.heads := by
      rw [length_chunks hslab, hlen, Nat.mul_div_cancel _ hslab, Nat.mul_mod_left]
      rfl
    simp only [if_neg hseq, AttentionShape.strides]
    rw [Traversal.mapM_eq_map (g := fun x => headRows exp (1 / sqrt shape.dim) mask q k v shape.dim
      shape.seq (min shape.bc shape.seq) (x.2 * (shape.seq * shape.dim)))]
    · rw [Option.map_some, headsOutput]
      exact congrArg (fun buf => some (Except.ok buf))
        (flatten_map_zipIdx_chunks hslab hlen fun _ _ _ _ => rfl)
    · intro x hx
      have hbh : x.2 < shape.batch * shape.heads := hcount ▸ snd_lt_of_mem_zipIdx hx
      have hmem : x.1 ∈ chunks (shape.seq * shape.dim) out := fst_mem_of_mem_zipIdx hx
      have hbase : x.2 / shape.heads * (shape.heads * (shape.seq * shape.dim)) +
          x.2 % shape.heads * (shape.seq * shape.dim) = x.2 * (shape.seq * shape.dim) := by
        rw [← Nat.mul_assoc, ← Nat.add_mul, Nat.mul_comm _ shape.heads, Nat.div_add_mod]
      simp only [hbase]
      exact flashForwardBhBlas_eq hexp hgemm
        { stride := rfl
          q := headOperand h.q_length h.q_finite hbh
          k := headOperand h.k_length h.k_finite hbh
          v := headOperand h.v_length h.v_finite hbh } hbr hbc hfuel
        (length_of_mem_chunks hslab hlen hmem)

theorem naiveForwardMasked_eq (hexp : ExpLaws exp) (h : Checked shape q k v out mask) :
    naiveForwardMasked exp sqrt shape q k v mask out =
      .ok (headsOutput exp sqrt shape mask q k v shape.seq) := by
  rw [naiveForwardMasked_rows h.validate_eq h.mask h.out_length, headsOutput]
  congr 1
  apply flatMap_congr
  intro bh hbh
  apply flatMap_congr
  intro i hi
  have hbh := mem_range.1 hbh
  have hi := mem_range.1 hi
  rw [row_naiveScores rfl (headOperand h.q_length h.q_finite hbh)
    (headOperand h.k_length h.k_finite hbh) hi,
    naiveRow_eq hexp rfl (Nat.zero_lt_of_lt hi) (headOperand h.v_length h.v_finite hbh)]
  rfl

/-! ## When the outputs agree -/

omit [IsStrictOrderedRing F] in
theorem sup_keyScore_eq_bot {scale : F} {sN base i n : Nat} :
    (Finset.range n).sup (keyScore scale dim sN base mask q k i) = ⊥ ↔
      ∀ j < n, mask.isMasked i j = true := by
  simp [Finset.sup_eq_bot_iff, keyScore]

omit [IsStrictOrderedRing F] in
/-- A row is the same for both tile sizes exactly if the smaller tile sees a key or no key is
seen at all. -/
theorem attentionRow_eq_iff (hdim : 0 < dim) (hle : first ≤ seq) :
    attentionRow exp score value dim first seq = attentionRow exp score value dim seq seq ↔
      ((Finset.range seq).sup score ≠ ⊥ → (Finset.range first).sup score ≠ ⊥) := by
  rw [attentionRow, attentionRow]
  by_cases hfirst : (Finset.range first).sup score = ⊥
  · by_cases hall : (Finset.range seq).sup score = ⊥
    · simp [hfirst, hall]
    · rw [if_pos hfirst, if_neg hall]
      constructor
      · intro heq
        have hread := congrArg (fun xs => read xs 0) heq
        simp [read, hdim] at hread
      · intro h
        exact absurd hfirst (h hall)
  · rw [if_neg hfirst, if_neg (sup_ne_bot_of_le hle hfirst)]
    simp [hfirst]

omit [IsStrictOrderedRing F] in
theorem headsOutput_eq_iff (hdim : 0 < shape.dim) (hle : first ≤ shape.seq) :
    headsOutput exp sqrt shape mask q k v first = headsOutput exp sqrt shape mask q k v shape.seq ↔
      shape.batch * shape.heads = 0 ∨ ∀ i < shape.seq,
        (∃ j < shape.seq, mask.isMasked i j = false) → ∃ j < first, mask.isMasked i j = false := by
  have hrow : ∀ bh i, headRow exp (1 / sqrt shape.dim) mask q k v shape.dim shape.seq first bh i =
      headRow exp (1 / sqrt shape.dim) mask q k v shape.dim shape.seq shape.seq bh i ↔
        ((∃ j < shape.seq, mask.isMasked i j = false) → ∃ j < first, mask.isMasked i j = false) := by
    intro bh i
    rw [headRow, headRow, attentionRow_eq_iff hdim hle, Ne, Ne, sup_keyScore_eq_bot,
      sup_keyScore_eq_bot]
    simp
  constructor
  · intro heq
    rcases Nat.eq_zero_or_pos (shape.batch * shape.heads) with hzero | hpos
    · exact Or.inl hzero
    · right
      intro i hi
      have hhead := flatMap_range_inj (fun _ _ => length_headRows) (fun _ _ => length_headRows) heq
        0 hpos
      exact (hrow _ i).1 (flatMap_range_inj (fun _ _ => length_headRow)
        (fun _ _ => length_headRow) hhead i hi)
  · rintro (hzero | hsees)
    · rw [headsOutput, headsOutput, hzero]
      rfl
    · apply flatMap_congr
      intro bh _
      apply flatMap_congr
      intro i hi
      exact (hrow _ i).2 (hsees i (mem_range.1 hi))

omit [IsStrictOrderedRing F] in
/-- The reference writes NaN exactly for the queries that see no key. -/
theorem read_headsOutput_eq_nan {bh i d : Nat} (hbh : bh < shape.batch * shape.heads)
    (hi : i < shape.seq) (hd : d < shape.dim) :
    read (headsOutput exp sqrt shape mask q k v shape.seq)
        (bh * (shape.seq * shape.dim) + (i * shape.dim + d)) = .nan ↔
      ∀ j < shape.seq, mask.isMasked i j = true := by
  rw [← read_row (cell_lt hi hd), headsOutput,
    row_flatMap_range (fun _ _ => length_headRows) bh hbh, ← read_row hd, headRows,
    row_flatMap_range (fun _ _ => length_headRow) i hi, headRow, attentionRow]
  by_cases hbot : ∀ j < shape.seq, mask.isMasked i j = true
  · rw [if_pos (sup_keyScore_eq_bot.2 hbot)]
    refine ⟨fun _ => hbot, fun _ => ?_⟩
    simp [read, hd]
  · rw [if_neg (fun h => hbot (sup_keyScore_eq_bot.1 h)), read_map_range hd]
    constructor
    · intro h
      cases h
    · intro h
      exact absurd h hbot

/-- Both kernels leave the same buffer, with NaN exactly in the rows of queries that see no key. -/
def Agree (exp sqrt : F → F) (gemm : Gemm F) (fuel : Nat) (shape : AttentionShape)
    (q k v : List (Extended F)) (mask : Mask) (out : List (Extended F)) : Prop :=
  ∃ written, naiveForwardMasked exp sqrt shape q k v mask out = .ok written ∧
    flashForwardMasked exp sqrt gemm fuel shape q k v mask out = some (.ok written) ∧
      ∀ bh < shape.batch * shape.heads, ∀ i < shape.seq, ∀ d < shape.dim,
        (read written (bh * (shape.seq * shape.dim) + (i * shape.dim + d)) = .nan ↔
          ∀ j < shape.seq, mask.isMasked i j = true)

/-- The tiled kernel ends and agrees with the reference exactly if there is no head or the first
key tile shows a key to every query that sees one at all. -/
theorem flash_agrees_iff (hexp : ExpLaws exp) (hgemm : ExactGemm gemm) (hbr : 1 ≤ shape.br)
    (hbc : 1 ≤ shape.bc) (hchecked : Checked shape q k v out mask) :
    (∀ fuel > shape.seq, Agree exp sqrt gemm fuel shape q k v mask out) ↔
      shape.batch * shape.heads = 0 ∨ ∀ i < shape.seq,
        (∃ j < shape.seq, mask.isMasked i j = false) →
          ∃ j < min shape.bc shape.seq, mask.isMasked i j = false := by
  have hiff := @headsOutput_eq_iff F _ _ exp sqrt (min shape.bc shape.seq) shape mask q k v
    hchecked.dim (Nat.min_le_right shape.bc shape.seq)
  have hnaive := @naiveForwardMasked_eq F _ _ exp sqrt _ shape mask q k v out hexp hchecked
  rw [← hiff]
  constructor
  · intro h
    obtain ⟨written, hwritten, hflash, _⟩ := h (shape.seq + 1) (Nat.lt_succ_self _)
    rw [flashForwardMasked_eq hexp hgemm hchecked hbr hbc (Nat.lt_succ_self _)] at hflash
    rw [hnaive] at hwritten
    exact (Except.ok.inj (Option.some.inj hflash)).trans (Except.ok.inj hwritten).symm
  · intro heq fuel hfuel
    refine ⟨_, hnaive, ?_, ?_⟩
    · rw [flashForwardMasked_eq hexp hgemm hchecked hbr hbc hfuel, heq]
    · intro bh hbh i hi d hd
      exact read_headsOutput_eq_nan hbh hi hd

/-! ## What a query sees -/

omit [IsStrictOrderedRing F] in
/-- A key without a score has no weight, so its value does not count. -/
theorem attentionRow_unseen {score' : Nat → WithBot F} {value' : Nat → Nat → F}
    (hle : first ≤ seq) (hscore : ∀ j < seq, score j = score' j)
    (hvalue : ∀ j < seq, score j ≠ ⊥ → ∀ d < dim, value j d = value' j d) :
    attentionRow exp score value dim first seq = attentionRow exp score' value' dim first seq := by
  have hsup : ∀ n ≤ seq, (Finset.range n).sup score = (Finset.range n).sup score' :=
    fun n hn => Finset.sup_congr rfl fun j hj => hscore j ((Finset.mem_range.1 hj).trans_le hn)
  have hweight : ∀ j ∈ Finset.range seq, weight exp ((Finset.range seq).sup score') (score j) =
      weight exp ((Finset.range seq).sup score') (score' j) :=
    fun j hj => congrArg _ (hscore j (Finset.mem_range.1 hj))
  rw [attentionRow, attentionRow, hsup first hle]
  refine congrArg (ite _ _) (map_congr_left fun d hd => ?_)
  rw [numerator, numerator, denominator, denominator, hsup seq le_rfl, Finset.sum_congr rfl hweight]
  refine congrArg (fun x => fin (x / _)) (Finset.sum_congr rfl fun j hj => ?_)
  by_cases hseen : score j = ⊥
  · simp [← hscore j (Finset.mem_range.1 hj), hseen, weight]
  · rw [hweight j hj, hvalue j (Finset.mem_range.1 hj) hseen d (mem_range.1 hd)]

/-- Two buffers have the same row `i` in a head. -/
def SameRow (shape : AttentionShape) (bh i : Nat) (xs ys : List (Extended F)) : Prop :=
  ∀ d < shape.dim, read xs (bh * (shape.seq * shape.dim) + (i * shape.dim + d)) =
    read ys (bh * (shape.seq * shape.dim) + (i * shape.dim + d))

/-- The tiled kernel leaks nothing: the output of a query depends only on its own row and on the
keys and values that it sees. -/
theorem flash_row_unseen (hexp : ExpLaws exp) (hgemm : ExactGemm gemm) (hbr : 0 < shape.br)
    (hbc : 0 < shape.bc) {fuel : Nat} (hfuel : shape.seq < fuel)
    {q' k' v' out' : List (Extended F)} (h : Checked shape q k v out mask)
    (h' : Checked shape q' k' v' out' mask) {bh i : Nat} (hbh : bh < shape.batch * shape.heads)
    (hi : i < shape.seq) (hq : SameRow shape bh i q q') (hkv : ∀ j < shape.seq,
      mask.isMasked i j = false → SameRow shape bh j k k' ∧ SameRow shape bh j v v') :
    ∃ w w', flashForwardMasked exp sqrt gemm fuel shape q k v mask out = some (.ok w) ∧
      flashForwardMasked exp sqrt gemm fuel shape q' k' v' mask out' = some (.ok w') ∧
        SameRow shape bh i w w' := by
  refine ⟨_, _, flashForwardMasked_eq hexp hgemm h hbr hbc hfuel,
    flashForwardMasked_eq hexp hgemm h' hbr hbc hfuel, fun d hd => ?_⟩
  -- only the rows of this query are read from the two outputs
  rw [← read_row (cell_lt hi hd), ← read_row (cell_lt hi hd), headsOutput, headsOutput,
    row_flatMap_range (fun _ _ => length_headRows) bh hbh,
    row_flatMap_range (fun _ _ => length_headRows) bh hbh, ← read_row hd, ← read_row hd, headRows,
    headRows, row_flatMap_range (fun _ _ => length_headRow) i hi,
    row_flatMap_range (fun _ _ => length_headRow) i hi]
  refine congrArg (read · d) (attentionRow_unseen (Nat.min_le_right _ _) (fun j hj => ?_) ?_)
  · rw [keyScore, keyScore]
    refine ite_congr rfl (fun _ => rfl) fun hmask => congrArg WithBot.some ?_
    refine congrArg (· * _) (Finset.sum_congr rfl fun d hd => ?_)
    have hd := Finset.mem_range.1 hd
    rw [Nat.add_assoc, hq d hd, Nat.add_assoc, (hkv j hj (Bool.not_eq_true _ ▸ hmask)).1 d hd]
  · intro j hj hseen d hd
    rw [keyScore, ite_ne_left_iff] at hseen
    rw [keyValue, keyValue, Nat.add_assoc, (hkv j hj (Bool.not_eq_true _ ▸ hseen.1)).2 d hd]

end Heads

/-! ## Two keys, one tile each -/

section Instances

/-- A routine that computes every cell of the product. -/
def productGemm (m n k : Nat) (dst : Strided F) (readDst : Bool) (lhs rhs : Strided F)
    (alpha beta : F) : List (Extended F) :=
  (range dst.buf.length).map fun x =>
    let i := x / dst.rs
    let j := x % dst.rs
    if i < m ∧ j < n then
      let product := (range k).foldl
        (fun acc kk => acc + lhs.cell i kk * rhs.cell kk j) (.fin 0)
      if readDst then .fin alpha * dst.cell i j + .fin beta * product else .fin beta * product
    else
      read dst.buf x

theorem productGemm_exact : ExactGemm (productGemm : Gemm F) where
  length_eq := by
    intro m n k dst readDst lhs rhs alpha beta
    simp [productGemm]
  cell_eq := by
    intro m n k dst readDst lhs rhs alpha beta i j c a b _ hn hfit hi hj hdst hlhs hrhs
    have hjr : j < dst.rs := Nat.lt_of_lt_of_le hj hn
    have hx : i * dst.rs + j < dst.buf.length := Nat.lt_of_lt_of_le (cell_lt hi hjr) hfit
    have hproduct : (range k).foldl
        (fun acc kk => acc + lhs.cell i kk * rhs.cell kk j) (.fin 0) =
          fin (∑ kk ∈ Finset.range k, a kk * b kk) := by
      rw [foldl_add_fin 0 (f := fun kk => a kk * b kk), zero_add]
      intro kk hkk
      rw [hlhs kk hkk, hrhs kk hkk, fin_mul]
    rw [productGemm, read_map_range hx]
    simp only [cell_div hjr, cell_mod hjr, hproduct]
    rw [if_pos ⟨hi, hj⟩]
    cases hread : readDst with
    | false => simp
    | true => simp [hdst hread]

/-- One head, two keys of one number each, every tile one key. -/
def twoKeys : AttentionShape where
  batch := 1
  heads := 1
  seq := 2
  dim := 1
  br := 1
  bc := 1

def zeros : List (Extended ℚ) := [.fin 0, .fin 0]

def twoValues : List (Extended ℚ) := [.fin 1, .fin 2]

theorem expLaws_one : ExpLaws (fun _ : ℚ => 1) where
  add := by simp
  zero := rfl
  pos := by simp

theorem checked_twoKeys {mask : Mask} (h : mask.validate 2 = .ok ()) :
    Checked twoKeys zeros zeros twoValues zeros mask where
  dim := by decide
  q_length := rfl
  k_length := rfl
  v_length := rfl
  out_length := rfl
  mask := h
  q_finite := by simp [zeros]
  k_finite := by simp [zeros]
  v_finite := by simp [twoValues]

/-- All scores are `0`, where an exponential is `1`; a causal mask shows key `0` to both queries. -/
theorem flash_agrees_causal :
    Agree (fun _ => 1) (fun _ => 1) productGemm 3 twoKeys zeros zeros twoValues .causal zeros :=
  (flash_agrees_iff expLaws_one productGemm_exact (by decide) (by decide)
    (checked_twoKeys rfl)).2 (Or.inr fun _ _ _ => ⟨0, by decide, by simp [Mask.isMasked]⟩) 3
      (by decide)

/-- A causal mask hides key `1` from query `0`, whose output its value cannot change. -/
theorem flash_row_unseen_first : ∃ w w',
    flashForwardMasked (fun _ => 1) (fun _ => 1) productGemm 3 twoKeys zeros zeros twoValues .causal
      zeros = some (.ok w) ∧
    flashForwardMasked (fun _ => 1) (fun _ => 1) productGemm 3 twoKeys zeros zeros
      [.fin 1, .fin 9] .causal zeros = some (.ok w') ∧ SameRow twoKeys 0 0 w w' :=
  flash_row_unseen expLaws_one productGemm_exact (by decide) (by decide) (by decide)
    (checked_twoKeys rfl) ⟨by decide, rfl, rfl, rfl, rfl, rfl, by simp [zeros], by simp [zeros],
      by simp⟩ (by decide) (by decide) (fun _ _ => rfl)
      (by simp +contextual [twoKeys, SameRow, Mask.isMasked, twoValues, read])

/-- Padding on the left hides the first tile: the reference copies the second value, the tiled
kernel writes NaN. -/
theorem flash_left_padding :
    naiveForwardMasked (fun _ => 1) (fun _ => 1) twoKeys zeros zeros twoValues
        (.padding [false, true]) zeros = .ok [.fin 2, .fin 2] ∧
      ∀ fuel > 2, flashForwardMasked (fun _ => 1) (fun _ => 1) productGemm fuel twoKeys zeros zeros
        twoValues (.padding [false, true]) zeros = some (.ok [.nan, .nan]) := by
  constructor
  · decide +kernel
  · intro fuel hfuel
    rw [flashForwardMasked_eq expLaws_one productGemm_exact (checked_twoKeys rfl) (by decide)
      (by decide) hfuel]
    decide +kernel

end Instances

end Output

end Attention
end Rustorch
