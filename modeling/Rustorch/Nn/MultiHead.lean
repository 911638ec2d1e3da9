import Rustorch.Autograd.LinearNodes
import Rustorch.Nn.Gqa
import Rustorch.Nn.HeadLayout

/-!
# Multi-head attention

`MultiHeadAttention::forward` without a mask has three bodies: a shortcut for one position, which
reads neither queries nor keys; the tiled kernel between copies that move the heads; and the
composition of autograd operations.  Each returns the output projection of the softmax averages of
the heads (`forward_attends`), if a head has a feature.
-/

namespace Rustorch
namespace Nn

open Rustorch.Core Cpu AxisSwap Finset Outcome List Extended Rows OnlineSoftmax
open Autograd (BackwardError)
open Attention (AttentionError AttentionShape)

/-! ## The layer -/

/-- A projection is what it returns for a tensor. -/
structure MultiHeadAttention (F : Type) where
  qProj : Tensor F → Outcome BackwardError (Tensor F)
  kProj : Tensor F → Outcome BackwardError (Tensor F)
  vProj : Tensor F → Outcome BackwardError (Tensor F)
  oProj : Tensor F → Outcome BackwardError (Tensor F)
  embedDim : Nat
  numHeads : Nat
  headDim : Nat
  heads_pos : 0 < numHeads
  split : numHeads * headDim = embedDim

namespace MultiHeadAttention

section Layer

variable {F : Type}

/-- Both assertions panic. -/
def new (embedDim numHeads : Nat)
    (qProj kProj vProj oProj : Tensor F → Outcome BackwardError (Tensor F)) :
    Outcome BackwardError (MultiHeadAttention F) :=
  if h : 0 < numHeads ∧ embedDim % numHeads = 0 then
    .ok
      { qProj := qProj
        kProj := kProj
        vProj := vProj
        oProj := oProj
        embedDim := embedDim
        numHeads := numHeads
        headDim := embedDim / numHeads
        heads_pos := h.1
        split := Nat.mul_div_cancel' (Nat.dvd_of_mod_eq_zero h.2) }
  else
    .panic

def checkRank (name : String) (sh : Shape) : Outcome BackwardError Unit :=
  if sh.length ≠ 3 then
    .err (.backend "MultiHeadAttention::forward"
      ("expected rank-3 " ++ name ++ " [B, T, D], got " ++ toString sh))
  else
    .ok ()

def checkSizes (l : MultiHeadAttention F) (q k v : Shape) : Outcome BackwardError Unit :=
  if q.getD 2 0 ≠ l.embedDim ∨ k.getD 2 0 ≠ l.embedDim ∨ v.getD 2 0 ≠ l.embedDim then
    .err (.backend "MultiHeadAttention::forward"
      ("embed dim mismatch: q=" ++ toString (q.getD 2 0) ++ ", k=" ++ toString (k.getD 2 0) ++
        ", v=" ++ toString (v.getD 2 0) ++ ", configured=" ++ toString l.embedDim))
  else if k.getD 0 0 ≠ q.getD 0 0 ∨ v.getD 0 0 ≠ q.getD 0 0 ∨ v.getD 1 0 ≠ k.getD 1 0 then
    .err (.backend "MultiHeadAttention::forward"
      ("k/v batch or seq mismatch: q=" ++ toString q ++ ", k=" ++ toString k ++ ", v=" ++
        toString v))
  else
    .ok ()

/-! ## Finite values -/

/-- The field element of a value; `-∞` and NaN have none. -/
def toField : Extended F → Option F
  | .fin x => some x
  | _ => none

/-- The tensor of field elements. -/
def finiteTensor (t : Tensor (Extended F)) : Outcome BackwardError (Tensor F) := do
  let cells ← expect (t.elements.bind fun xs => xs.mapM toField)
  unwrap (ofExcept (fromVecTyped t.layout.dtype t.shape cells))

/-- The derived `Debug` text. -/
def debugAttentionError : AttentionError → String
  | .bufferShapeMismatch which expected got =>
    "BufferShapeMismatch \x7b which: \"" ++ which ++ "\", expected: " ++ toString expected ++
      ", got: " ++ toString got ++ " \x7d"
  | .outputShapeMismatch expected got =>
    "OutputShapeMismatch \x7b expected: " ++ toString expected ++ ", got: " ++ toString got ++
      " \x7d"
  | .zeroDim => "ZeroDim"
  | .mask (.paddingLengthMismatch expected got) =>
    "Mask(PaddingLengthMismatch \x7b expected: " ++ toString expected ++ ", got: " ++
      toString got ++ " \x7d)"

end Layer

/-! ## The three bodies -/

section Forward

variable {F : Type} [Field F] [LinearOrder F] (exp ln sqrt : F → F) (gemm : Attention.Gemm F)

/-- `mha_flash_forward_f32`.  The tiles have 64 rows, so `seq + 1` turns are enough. -/
def mhaFlashForwardF32 (q k v : Tensor F) (batch seq heads headDim : Nat) :
    Outcome BackwardError (Tensor F) := do
  let zeros := replicate (batch * seq * heads * headDim) 0
  let qIn ← unwrap (q.asSlice .f32)
  let kIn ← unwrap (k.asSlice .f32)
  let vIn ← unwrap (v.asSlice .f32)
  let qBhtd ← expect (transposeBthdToBhtdF32 qIn zeros batch seq heads headDim)
  let kBhtd ← expect (transposeBthdToBhtdF32 kIn zeros batch seq heads headDim)
  let vBhtd ← expect (transposeBthdToBhtdF32 vIn zeros batch seq heads headDim)
  let written ← expect (Attention.flashForward exp sqrt gemm (seq + 1)
    (AttentionShape.new batch heads seq headDim) (qBhtd.map .fin) (kBhtd.map .fin)
    (vBhtd.map .fin) (zeros.map .fin))
  let outBhtd ← mapErr
    (fun e => .backend "MultiHeadAttention::forward(flash)" (debugAttentionError e))
    (ofExcept written)
  let outBhtd ← expect (outBhtd.mapM toField)
  let outBthd ← expect (transposeBhtdToBthdF32 outBhtd zeros batch seq heads headDim)
  mapErr
    (fun e => .backend "MultiHeadAttention::forward(flash)" (Autograd.debugTensorError e))
    (ofExcept (fromVecTyped .f32 [batch, seq, heads * headDim] outBthd))

/-- The value of `ops::softmax`. -/
def softmax (x : Tensor F) (dim : Nat) : Outcome BackwardError (Tensor F) := do
  let out ← mapErr (Autograd.backendErr "softmax") (Cpu.softmax exp ln (x.map .fin) dim)
  finiteTensor out

/-- The value of `ops::bmm`. -/
def bmm (lhs rhs : Tensor F) : Outcome BackwardError (Tensor F) :=
  mapErr (Autograd.backendErr "bmm") (Autograd.bmm lhs rhs)

/-- `[B, T, D]` becomes `[B * H, T, hd]`. -/
def splitHeads (l : MultiHeadAttention F) (x : Tensor F) (batch seq : Nat) :
    Outcome BackwardError (Tensor F) := do
  let x4 ← Autograd.Ops.reshape x [batch, seq, l.numHeads, l.headDim]
  let x4 ← Autograd.transpose x4 1 2
  Autograd.Ops.reshape x4 [batch * l.numHeads, seq, l.headDim]

/-- `[B * H, T, hd]` becomes `[B, T, D]`. -/
def mergeHeads (l : MultiHeadAttention F) (x : Tensor F) (batch seq : Nat) :
    Outcome BackwardError (Tensor F) := do
  let x4 ← Autograd.Ops.reshape x [batch, l.numHeads, seq, l.headDim]
  let x4 ← Autograd.transpose x4 1 2
  Autograd.Ops.reshape x4 [batch, seq, l.embedDim]

/-- The composition, from the projected tensors to the context. -/
def composedContext (l : MultiHeadAttention F) (q k v : Tensor F) (batch tQ tKv : Nat) :
    Outcome BackwardError (Tensor F) := do
  let q ← l.splitHeads q batch tQ
  let k ← l.splitHeads k batch tKv
  let v ← l.splitHeads v batch tKv
  let kT ← Autograd.transpose k 1 2
  let raw ← bmm q kT
  let invScale ← Autograd.Ops.scalar (1 / sqrt l.headDim)
  let scores ← Autograd.Ops.mul raw invScale
  let attn ← softmax exp ln scores 2
  let context ← bmm attn v
  l.mergeHeads context batch tQ

/-- What `forward` tests before it calls the tiled kernel, besides the gradient mode and the
lengths. -/
def sliced (t : Tensor F) : Bool :=
  decide (t.layout.dtype = .f32) && t.layout.isContiguous

/-- `MultiHeadAttention::forward` without a mask. -/
def forward (gradEnabled : Bool) (l : MultiHeadAttention F) (q k v : Tensor F) :
    Outcome BackwardError (Tensor F) := do
  checkRank "q" q.shape
  checkRank "k" k.shape
  checkRank "v" v.shape
  l.checkSizes q.shape k.shape v.shape
  let batch := q.shape.getD 0 0
  let tQ := q.shape.getD 1 0
  let tKv := k.shape.getD 1 0
  if gradEnabled = false ∧ tQ = 1 ∧ tKv = 1 ∧ q.layout.dtype = .f32 then do
    let vProj ← l.vProj v
    l.oProj vProj
  else do
    let q ← l.qProj q
    let k ← l.kProj k
    let v ← l.vProj v
    if gradEnabled = false ∧ tQ = tKv ∧ (sliced q && sliced k && sliced v) = true then do
      let context ← mhaFlashForwardF32 exp sqrt gemm q k v batch tQ l.numHeads l.headDim
      l.oProj context
    else do
      let context ← composedContext exp ln sqrt l q k v batch tQ tKv
      l.oProj context

end Forward

/-! ## The averages of the heads -/

section Averages

variable {F : Type} [Field F]

/-- The score of two rows of one head. -/
def headScore (scale : F) (w tQ tKv : Nat) (x y : Nat → F) (n i j : Nat) : F :=
  (∑ c ∈ Finset.range w, x ((n * tQ + i) * w + c) * y ((n * tKv + j) * w + c)) * scale

/-- The softmax average of the values of head `n`. -/
def headAverage (exp : F → F) (scale : F) (w tQ tKv : Nat) (x y z : Nat → F) (n i d : Nat) : F :=
  ∑ j ∈ Finset.range tKv,
    OnlineSoftmax.softmax exp (headScore scale w tQ tKv x y n i) (Finset.range tKv) j *
      z ((n * tKv + j) * w + d)

/-- `softmax(Q Kᵀ / √hd) V` of every head, side by side in `[B, T_q, H * hd]`. -/
def attended (exp sqrt : F → F) (H w tQ tKv : Nat) (x y z : Nat → F) (l : Nat) : F :=
  let b := l / w / H / tQ
  let t := l / w / H % tQ
  let h := l / w % H
  ∑ j ∈ Finset.range tKv,
    OnlineSoftmax.softmax exp
      (fun j => (∑ c ∈ Finset.range w,
        x (((b * tQ + t) * H + h) * w + c) * y (((b * tKv + j) * H + h) * w + c)) / sqrt w)
      (Finset.range tKv) j * z (((b * tKv + j) * H + h) * w + l % w)

theorem swapHeads_average {exp sqrt : F → F} {B H w tQ tKv : Nat} (x y z : Nat → F) {l : Nat}
    (hl : l < B * tQ * H * w) :
    swapHeads tQ H w (Autograd.byCell tQ w (headAverage exp (1 / sqrt w) w tQ tKv
        (swapHeads H tQ w x) (swapHeads H tKv w y) (swapHeads H tKv w z))) l =
      attended exp sqrt H w tQ tKv x y z l := by
  have hw : 0 < w := Nat.pos_of_ne_zero (by rintro rfl; simp at hl)
  obtain ⟨b, t, h, _, ht, hh, hrow⟩ :=
    exists_row (Nat.div_lt_of_lt_mul (by rwa [Nat.mul_comm]) : l / w < B * tQ * H)
  have hd : l % w < w := Nat.mod_lt _ hw
  have hcell : l = ((b * tQ + t) * H + h) * w + l % w := by
    rw [← hrow, Nat.div_add_mod']
  have hflat : ((b * H + h) * tQ + t) * w + l % w =
      (b * H + h) * (tQ * w) + (t * w + l % w) := by ring
  have hattended : attended exp sqrt H w tQ tKv x y z l = ∑ j ∈ Finset.range tKv,
      OnlineSoftmax.softmax exp
        (fun j => (∑ c ∈ Finset.range w,
          x (((b * tQ + t) * H + h) * w + c) * y (((b * tKv + j) * H + h) * w + c)) / sqrt w)
        (Finset.range tKv) j * z (((b * tKv + j) * H + h) * w + l % w) := by
    simp only [attended, hrow, cell_div hh, cell_mod hh, cell_div ht, cell_mod ht]
  have hscore : ∀ j ∈ Finset.range tKv, headScore (1 / sqrt w) w tQ tKv (swapHeads H tQ w x)
      (swapHeads H tKv w y) (b * H + h) t j = (∑ c ∈ Finset.range w,
        x (((b * tQ + t) * H + h) * w + c) * y (((b * tKv + j) * H + h) * w + c)) / sqrt w := by
    intro j hj
    rw [headScore, mul_one_div]
    congr 1
    refine Finset.sum_congr rfl fun c hc => ?_
    rw [swapHeads_at hh ht (Finset.mem_range.1 hc),
      swapHeads_at hh (Finset.mem_range.1 hj) (Finset.mem_range.1 hc)]
  rw [hattended]
  conv_lhs => rw [hcell]
  rw [swapHeads_at ht hh hd, hflat, Autograd.byCell_at _ ht hd, headAverage]
  refine Finset.sum_congr rfl fun j hj => ?_
  rw [swapHeads_at hh (Finset.mem_range.1 hj) hd, OnlineSoftmax.softmax, OnlineSoftmax.softmax,
    hscore j hj, Finset.sum_congr rfl fun i hi => congrArg exp (hscore i hi)]

/-- One key takes the whole weight. -/
theorem attended_one [LinearOrder F] {exp sqrt : F → F} (hpos : ∀ a, 0 < exp a) {B H w : Nat}
    (x y z : Nat → F) {l : Nat} (hl : l < B * 1 * H * w) :
    attended exp sqrt H w 1 1 x y z l = z l := by
  have hw : 0 < w := Nat.pos_of_ne_zero (by rintro rfl; simp at hl)
  have hcell : ((l / w / H / 1 * 1 + 0) * H + l / w % H) * w + l % w = l := by
    rw [Nat.div_one, Nat.mul_one, Nat.add_zero, Nat.div_add_mod', Nat.div_add_mod']
  simp only [attended, sum_range_one, OnlineSoftmax.softmax, hcell]
  rw [div_self (hpos _).ne', one_mul]

end Averages

/-! ## The tiled kernel -/

section Flash

variable {F : Type} [Field F] [LinearOrder F] {exp ln sqrt : F → F}
  {gemm : Attention.Gemm F} {B H T w : Nat} {x y z : Nat → F} {q k v : Tensor F}

omit [Field F] [LinearOrder F] in
theorem mapM_toField (f : Nat → F) (n : Nat) :
    ((List.range n).map fun c => fin (f c)).mapM toField = some ((List.range n).map f) := by
  rw [mapM_map]
  exact Traversal.mapM_eq_map fun _ _ => rfl

variable (hexp : ExpLaws exp)

include hexp

/-- A row of the kernel's output, from the buffers of the moved heads. -/
theorem headRow_average {N first n i : Nat} {scale : F} (hfirst : 0 < first) (hle : first ≤ T)
    (hn : n < N) (hi : i < T) :
    Attention.headRow exp scale .none ((List.range (N * T * w)).map fun c => .fin (x c))
        ((List.range (N * T * w)).map fun c => .fin (y c))
        ((List.range (N * T * w)).map fun c => .fin (z c)) w T first (n * (T * w)) i =
      (List.range w).map fun d => .fin (headAverage exp scale w T T x y z n i d) := by
  have hread : ∀ (f : Nat → F) {j d : Nat}, j < T → d < w →
      Attention.read ((List.range (N * T * w)).map fun c => fin (f c))
        (n * (T * w) + j * w + d) = .fin (f ((n * T + j) * w + d)) := by
    intro f j d hj hd
    have hcell : n * (T * w) + j * w + d = (n * T + j) * w + d := by ring
    rw [hcell]
    exact Attention.read_map_range (cell_lt (cell_lt hn hj) hd)
  have hscore : ∀ j < T, Attention.keyScore scale w w (n * (T * w)) .none
      ((List.range (N * T * w)).map fun c => .fin (x c))
      ((List.range (N * T * w)).map fun c => .fin (y c)) i j =
        ((headScore scale w T T x y n i j : F) : WithBot F) := by
    intro j hj
    have hdot : Attention.scaledDot scale w w (n * (T * w))
        ((List.range (N * T * w)).map fun c => .fin (x c))
        ((List.range (N * T * w)).map fun c => .fin (y c)) i j =
          headScore scale w T T x y n i j := by
      rw [Attention.scaledDot, headScore]
      congr 1
      refine Finset.sum_congr rfl fun c hc => ?_
      rw [hread x hi (Finset.mem_range.1 hc), hread y hj (Finset.mem_range.1 hc)]
      rfl
    rw [Attention.keyScore, hdot]
    rfl
  have hvalue : ∀ j < T, ∀ d < w, Attention.keyValue w (n * (T * w))
      ((List.range (N * T * w)).map fun c => .fin (z c)) j d = z ((n * T + j) * w + d) := by
    intro j hj d hd
    rw [Attention.keyValue, hread z hj hd]
    rfl
  rw [Attention.headRow, attentionRow_congr hle hscore hvalue,
    attentionRow_coe hexp hfirst (Nat.zero_lt_of_lt hi)]
  rfl

/-- The buffer that the kernel leaves. -/
theorem headsOutput_average (hT : 0 < T) :
    Attention.headsOutput exp sqrt (AttentionShape.new B H T w) .none
        ((List.range (B * H * T * w)).map fun c => .fin (x c))
        ((List.range (B * H * T * w)).map fun c => .fin (y c))
        ((List.range (B * H * T * w)).map fun c => .fin (z c)) (min 64 T) =
      (List.range (B * H * T * w)).map fun c =>
        .fin (Autograd.byCell T w (headAverage exp (1 / sqrt w) w T T x y z) c) := by
  have hrows : ((List.range (B * H * T * w)).map fun c =>
      fin (Autograd.byCell T w (headAverage exp (1 / sqrt w) w T T x y z) c)) =
        (List.range (B * H)).flatMap fun n => (List.range T).flatMap fun i =>
          (List.range w).map fun d => .fin (headAverage exp (1 / sqrt w) w T T x y z n i d) := by
    rw [Nat.mul_assoc (B * H)]
    exact Autograd.map_byCell (B * H) T w fun n i d =>
      fin (headAverage exp (1 / sqrt w) w T T x y z n i d)
  rw [hrows, Attention.headsOutput]
  refine flatMap_congr fun n hn => flatMap_congr fun i hi => ?_
  exact headRow_average hexp (by omega) (Nat.min_le_right ..) (List.mem_range.1 hn)
    (List.mem_range.1 hi)

variable [IsStrictOrderedRing F]

theorem flashForward_moved (hgemm : Attention.ExactGemm gemm) (hw : 0 < w) (hT : 0 < T)
    (x y z : Nat → F) (zeros : List F) (hzeros : zeros.length = B * H * T * w) :
    Attention.flashForward exp sqrt gemm (T + 1) (AttentionShape.new B H T w)
        ((List.range (B * H * T * w)).map fun c => .fin (x c))
        ((List.range (B * H * T * w)).map fun c => .fin (y c))
        ((List.range (B * H * T * w)).map fun c => .fin (z c)) (zeros.map .fin) =
      some (.ok ((List.range (B * H * T * w)).map fun c =>
        .fin (Autograd.byCell T w (headAverage exp (1 / sqrt w) w T T x y z) c))) := by
  rw [← headsOutput_average hexp hT]
  refine Attention.flashForwardMasked_eq hexp hgemm ?_ (Nat.succ_pos 63) (Nat.succ_pos 63)
    (Nat.lt_succ_self T)
  exact {
    dim := hw
    q_length := by simp [AttentionShape.bufferLen, AttentionShape.new]
    k_length := by simp [AttentionShape.bufferLen, AttentionShape.new]
    v_length := by simp [AttentionShape.bufferLen, AttentionShape.new]
    out_length := by simp [AttentionShape.bufferLen, AttentionShape.new, hzeros]
    mask := rfl
    q_finite := by simp [isFinite]
    k_finite := by simp [isFinite]
    v_finite := by simp [isFinite] }

/-- The tiled kernel between the two copies. -/
theorem mhaFlashForwardF32_fresh (hgemm : Attention.ExactGemm gemm) (hw : 0 < w) (hT : 0 < T)
    (hq : Fresh q .f32 [B, T, H * w] x) (hk : Fresh k .f32 [B, T, H * w] y)
    (hv : Fresh v .f32 [B, T, H * w] z) :
    ∃ out, mhaFlashForwardF32 exp sqrt gemm q k v B T H w = .ok out ∧
      Fresh out .f32 [B, T, H * w] (swapHeads T H w (Autograd.byCell T w
        (headAverage exp (1 / sqrt w) w T T (swapHeads H T w x) (swapHeads H T w y)
          (swapHeads H T w z)))) := by
  obtain ⟨out, hout, hfresh⟩ := @fromVecTyped_fresh F .f32 [B, T, H * w]
    (swapHeads T H w (Autograd.byCell T w (headAverage exp (1 / sqrt w) w T T (swapHeads H T w x)
      (swapHeads H T w y) (swapHeads H T w z)))) hq.bytes
  refine ⟨out, ?_, hfresh⟩
  have hprod : [B, T, H * w].prod = B * H * T * w := by
    rw [Autograd.prod_three]
    ring
  have hzeros : (replicate (B * T * H * w) (0 : F)).length = B * H * T * w := by
    rw [length_replicate]
    ring
  have hmap : ∀ f : Nat → F, ((List.range (B * H * T * w)).map f).map fin =
      (List.range (B * H * T * w)).map fun c => .fin (f c) := fun _ => map_map ..
  have hqs := hq.asSlice
  have hks := hk.asSlice
  have hvs := hv.asSlice
  rw [hprod] at hqs hks hvs hout
  simp only [mhaFlashForwardF32, hqs, hks, hvs, unwrap_ok, ok_bind,
    transposeBthdToBhtdF32_eq hzeros, expect_some, hmap,
    flashForward_moved hexp hgemm hw hT _ _ _ _ hzeros, ofExcept_ok, mapErr,
    mapM_toField, transposeBhtdToBthdF32_eq hzeros, hout]

end Flash

/-! ## The composition -/

section Composition

variable {F : Type} [Field F] {l : MultiHeadAttention F} {B T : Nat} {f : Nat → F} {x : Tensor F}

omit [Field F] in
theorem transpose_heads {H w : Nat} (hx : Fresh x .f32 [B, T, H, w] f) (h0 : 0 ∉ [B, T, H, w]) :
    ∃ out, Autograd.transpose x 1 2 = .ok out ∧
      Fresh out .f32 [B, H, T, w] (swapHeads H T w f) := by
  obtain ⟨out, hout, hfresh⟩ := Autograd.transpose_fresh hx.holds h0
    (show 1 < [B, T, H, w].length by simp) (show 2 < [B, T, H, w].length by simp)
  have hshape : AxisSwap.swapAt 1 2 [B, T, H, w] = [B, H, T, w] := rfl
  rw [hshape] at hfresh
  refine ⟨out, hout, hfresh.toDense.of_eq ?_, hfresh.offset⟩
  intro c hc
  have hc' : c < B * H * T * w := by
    simpa [Nat.mul_assoc] using hc
  rw [swapCell_heads hc', swapHeads]

omit [Field F] in
theorem splitHeads_fresh (hx : Fresh x .f32 [B, T, l.numHeads * l.headDim] f) (hB : 0 < B)
    (hT : 0 < T) (hw : 0 < l.headDim) :
    ∃ out, l.splitHeads x B T = .ok out ∧
      Fresh out .f32 [B * l.numHeads, T, l.headDim] (swapHeads l.numHeads T l.headDim f) := by
  have h0 : 0 ∉ [B, T, l.numHeads, l.headDim] := by
    simp [hB.ne, hT.ne, l.heads_pos.ne, hw.ne]
  obtain ⟨x4, hx4, hx4f⟩ := Autograd.Ops.reshape_fresh (A := [B, T, l.numHeads, l.headDim]) hx
    (by simp)
  obtain ⟨t4, ht4, ht4f⟩ := transpose_heads hx4f h0
  obtain ⟨out, hout, hfresh⟩ := Autograd.Ops.reshape_fresh (A := [B * l.numHeads, T, l.headDim])
    ht4f (by simp [Nat.mul_assoc])
  refine ⟨out, ?_, hfresh⟩
  rw [splitHeads, hx4, ok_bind, ht4, ok_bind, hout]

omit [Field F] in
theorem mergeHeads_fresh (hx : Fresh x .f32 [B * l.numHeads, T, l.headDim] f) (hB : 0 < B)
    (hT : 0 < T) (hw : 0 < l.headDim) :
    ∃ out, l.mergeHeads x B T = .ok out ∧
      Fresh out .f32 [B, T, l.embedDim] (swapHeads T l.numHeads l.headDim f) := by
  have h0 : 0 ∉ [B, l.numHeads, T, l.headDim] := by
    simp [hB.ne, hT.ne, l.heads_pos.ne, hw.ne]
  obtain ⟨x4, hx4, hx4f⟩ := Autograd.Ops.reshape_fresh (A := [B, l.numHeads, T, l.headDim]) hx
    (by simp [Nat.mul_assoc])
  obtain ⟨t4, ht4, ht4f⟩ := transpose_heads hx4f h0
  obtain ⟨out, hout, hfresh⟩ := Autograd.Ops.reshape_fresh (A := [B, T, l.embedDim]) ht4f
    (by simp [← l.split])
  refine ⟨out, ?_, hfresh⟩
  rw [mergeHeads, hx4, ok_bind, ht4, ok_bind, hout]

variable [LinearOrder F] [IsStrictOrderedRing F] {exp ln sqrt : F → F}

omit [Field F] [LinearOrder F] [IsStrictOrderedRing F] in
theorem finiteTensor_fresh {t : Tensor (Extended F)} {D : Dtype} {S : Shape}
    (ht : Fresh t D S fun c => .fin (f c)) :
    ∃ out, finiteTensor t = .ok out ∧ Fresh out D S f := by
  obtain ⟨out, hout, hfresh⟩ := @fromVecTyped_fresh F D S f ht.bytes
  refine ⟨out, ?_, hfresh⟩
  rw [finiteTensor, ht.elements, Option.bind_some, mapM_toField, ht.dtype, ht.shape]
  simp only [expect_some, ok_bind, hout, ofExcept_ok, unwrap_ok]

theorem expScalars (hexp : ExpLaws exp) : ExpScalars exp where
  add := hexp.add
  zero := hexp.zero
  mul_one_div := mul_one_div
  sum_pos := fun _ _ hn =>
    sum_pos (fun _ _ => hexp.pos _) (nonempty_range_iff.2 hn.ne')
  ne_zero := fun _ hx => hx.ne'

theorem softmax_fresh (hexp : ExpLaws exp) {N m n : Nat}
    (hx : Fresh x .f32 [N, m, n] f) (hN : 0 < N) (hm : 0 < m) (hn : 0 < n) :
    ∃ out, softmax exp ln x 2 = .ok out ∧ Fresh out .f32 [N, m, n] (Autograd.byCell m n
      fun b i j => OnlineSoftmax.softmax exp (fun j => f ((b * m + i) * n + j))
        (Finset.range n) j) := by
  have h0 : 0 ∉ [N, m, n] := by
    simp [hN.ne, hm.ne, hn.ne]
  obtain ⟨sm, o, hsm, hsmf, ho⟩ := @softmaxDispatch_holds F _ _ _ _ _ exp ln false [N, m, n] 2 .f32
    (x.map fin) f (expScalars hexp) "softmax" h0 (by simp) (Or.inl rfl)
    (hx.map fin).holds
  obtain ⟨out, hout, hfresh⟩ := finiteTensor_fresh hsmf
  refine ⟨out, ?_, hfresh.toDense.of_eq ?_, hfresh.offset⟩
  · rw [softmax, Cpu.softmax, hsm]
    simpa only [mapErr, ok_bind] using hout
  · intro c hc
    obtain ⟨top, htop⟩ := ho c hc
    have hc' : c < N * m * n := by
      rwa [Autograd.prod_three, ← Nat.mul_assoc] at hc
    obtain ⟨b, i, j, hb, hi, hj, rfl⟩ := exists_row hc'
    have hline : b * m + i < ([N, m, n].set 2 1).prod := by
      have hcell := cell_lt hb hi
      simpa using hcell
    have hplace : ∀ k, cellOn [N, m, n] 2 (b * m + i) k = (b * m + i) * n + k := fun k =>
      cellOn_last (by simp) hline h0
    have hflat : (b * m + i) * n + j = b * (m * n) + (i * n + j) := by ring
    have halong := @Autograd.alongLine_cellOn [N, m, n] 2 F h0 (by simp) f (b * m + i) j hline hj
    simp only [hplace] at halong
    rw [htop, againstValue, if_neg Bool.false_ne_true, halong, hflat,
      Autograd.byCell_at _ hi hj, ← hflat, OnlineSoftmax.softmax]
    simp only [sub_eq_add_neg, hexp.add]
    rw [← sum_mul]
    exact mul_div_mul_right _ _ (hexp.pos _).ne'

variable {tQ tKv : Nat} {q k v : Tensor F} {g y z : Nat → F}

theorem averages_fresh (hexp : ExpLaws exp) {N w : Nat}
    (hq : Fresh q .f32 [N, tQ, w] g) (hk : Fresh k .f32 [N, tKv, w] y)
    (hv : Fresh v .f32 [N, tKv, w] z) (hN : 0 < N) (htQ : 0 < tQ) (htKv : 0 < tKv) (hw : 0 < w)
    (hscores : [N, tQ, tKv].prod * Dtype.byteSize .f32 < 2 ^ 63) :
    ∃ kT raw invScale scores attn context, Autograd.transpose k 1 2 = .ok kT ∧
      bmm q kT = .ok raw ∧ Autograd.Ops.scalar (1 / sqrt w) = .ok invScale ∧
      Autograd.Ops.mul raw invScale = .ok scores ∧ softmax exp ln scores 2 = .ok attn ∧
      bmm attn v = .ok context ∧ Fresh context .f32 [N, tQ, w]
        (Autograd.byCell tQ w (headAverage exp (1 / sqrt w) w tQ tKv g y z)) := by
  have h0 : 0 ∉ [N, tKv, w] := by
    simp [hN.ne, htKv.ne, hw.ne]
  obtain ⟨kT, hkT, hkTf⟩ := Autograd.transpose_fresh hk.holds h0
    (show 1 < [N, tKv, w].length by simp) (show 2 < [N, tKv, w].length by simp)
  obtain ⟨raw, hraw, hrawf⟩ := Autograd.bmm_fresh hq hkTf hscores
  obtain ⟨invScale, hinv, hinvf⟩ := Autograd.Ops.scalar_fresh (1 / sqrt (w : F))
  obtain ⟨scores, hmul, hscoresf⟩ :=
    Autograd.Ops.mul_dense hrawf.toDense hinvf.toDense (stretches_nil _)
  obtain ⟨attn, hattn, hattnf⟩ :=
    @softmax_fresh F _ _ scores _ _ exp ln hexp N tQ tKv hscoresf hN htQ htKv
  obtain ⟨context, hcontext, hcontextf⟩ := Autograd.bmm_fresh hattnf hv hq.bytes
  refine ⟨kT, raw, invScale, scores, attn, context, hkT, mapErr_eq_ok.2 hraw, hinv, hmul,
    hattn, mapErr_eq_ok.2 hcontext, hcontextf.toDense.of_eq ?_, hcontextf.offset⟩
  -- the value of every cell, from the inside out
  intro c hc
  have hc' : c < N * tQ * w := by
    rwa [Autograd.prod_three, ← Nat.mul_assoc] at hc
  obtain ⟨n, i, d, hn, hi, hd, rfl⟩ := exists_row hc'
  have hflat : (n * tQ + i) * w + d = n * (tQ * w) + (i * w + d) := by ring
  have hscore : ∀ j < tKv, Autograd.byCell tQ tKv (Autograd.productAt tQ tKv w g fun c =>
      y (swapCell [N, tKv, w] 1 2 c)) ((n * tQ + i) * tKv + j) * (1 / sqrt w) =
        headScore (1 / sqrt w) w tQ tKv g y n i j := by
    intro j hj
    have hcell : (n * tQ + i) * tKv + j = n * (tQ * tKv) + (i * tKv + j) := by ring
    rw [hcell, Autograd.byCell_at _ hi hj, Autograd.productAt, headScore]
    congr 1
    refine sum_congr rfl fun c hc => ?_
    have hleft : n * tQ * w + i * w + c = (n * tQ + i) * w + c := by ring
    have hright : n * w * tKv + c * tKv + j = (n * w + c) * tKv + j := by ring
    rw [hleft, hright, swapCell_keys hn (Finset.mem_range.1 hc) hj]
  rw [hflat, Autograd.byCell_at _ hi hd, Autograd.byCell_at _ hi hd, Autograd.productAt,
    headAverage]
  refine sum_congr rfl fun j hj => ?_
  have hj := Finset.mem_range.1 hj
  have hweight : n * tQ * tKv + i * tKv + j = n * (tQ * tKv) + (i * tKv + j) := by ring
  have hvalue : n * tKv * w + j * w + d = (n * tKv + j) * w + d := by ring
  rw [hweight, hvalue, Autograd.byCell_at _ hi hj, OnlineSoftmax.softmax, OnlineSoftmax.softmax,
    hscore j hj, sum_congr rfl fun k hk => congrArg exp (hscore k (mem_range.1 hk))]

end Composition

/-! ## The three ways -/

section Ways

variable {F : Type} [Field F]

/-- The rows of `D` features, mapped by a matrix and a bias. -/
def affineRows (D : Nat) (W : Nat → Nat → F) (bias f : Nat → F) (l : Nat) : F :=
  (∑ c ∈ Finset.range D, f (l / D * D + c) * W c (l % D)) + bias (l % D)

/-- A projection returns the mapped rows of every `F32` tensor of `D` features. -/
structure IsAffine (proj : Tensor F → Outcome BackwardError (Tensor F)) (D : Nat)
    (W : Nat → Nat → F) (bias : Nat → F) : Prop where
  fresh : ∀ {x : Tensor F} {B T : Nat} {f : Nat → F}, 0 < B → 0 < T → Holds x .f32 [B, T, D] f →
    ∃ out, proj x = .ok out ∧ Fresh out .f32 [B, T, D] (affineRows D W bias f)

variable [LinearOrder F] {exp ln sqrt : F → F} {gemm : Attention.Gemm F}
  {l : MultiHeadAttention F} {B tQ tKv : Nat} {x y z : Nat → F} {q k v : Tensor F}

theorem forward_checked (gradEnabled : Bool) (hq : q.shape = [B, tQ, l.embedDim])
    (hk : k.shape = [B, tKv, l.embedDim]) (hv : v.shape = [B, tKv, l.embedDim]) :
    forward exp ln sqrt gemm gradEnabled l q k v =
      (if gradEnabled = false ∧ tQ = 1 ∧ tKv = 1 ∧ q.layout.dtype = .f32 then do
        let vProj ← l.vProj v
        l.oProj vProj
      else do
        let q ← l.qProj q
        let k ← l.kProj k
        let v ← l.vProj v
        if gradEnabled = false ∧ tQ = tKv ∧ (sliced q && sliced k && sliced v) = true then do
          let context ← mhaFlashForwardF32 exp sqrt gemm q k v B tQ l.numHeads l.headDim
          l.oProj context
        else do
          let context ← composedContext exp ln sqrt l q k v B tQ tKv
          l.oProj context) := by
  have hrank : ∀ (name : String) (T : Nat), checkRank name [B, T, l.embedDim] = .ok () := by
    intro name T
    rfl
  have hsizes : l.checkSizes [B, tQ, l.embedDim] [B, tKv, l.embedDim] [B, tKv, l.embedDim] =
      .ok () := by
    simp [checkSizes]
  rw [forward, hq, hk, hv, hrank, hrank, hrank, hsizes]
  rfl

omit [Field F] [LinearOrder F] in
theorem sliced_fresh {T : Nat} {f : Nat → F} (hx : Fresh q .f32 [B, T, l.embedDim] f) :
    sliced q = true := by
  simp [sliced, hx.dtype, hx.flag]

variable [IsStrictOrderedRing F]

theorem flash_attended (hexp : ExpLaws exp) (hgemm : Attention.ExactGemm gemm)
    (hw : 0 < l.headDim) (ht : 0 < tQ) (hq : Fresh q .f32 [B, tQ, l.embedDim] x)
    (hk : Fresh k .f32 [B, tQ, l.embedDim] y) (hv : Fresh v .f32 [B, tQ, l.embedDim] z) :
    ∃ context, mhaFlashForwardF32 exp sqrt gemm q k v B tQ l.numHeads l.headDim = .ok context ∧
      Fresh context .f32 [B, tQ, l.embedDim]
        (attended exp sqrt l.numHeads l.headDim tQ tQ x y z) := by
  rw [← l.split] at hq hk hv ⊢
  obtain ⟨context, hcontext, hfresh⟩ := mhaFlashForwardF32_fresh hexp hgemm hw ht hq hk hv
  refine ⟨context, hcontext, hfresh.toDense.of_eq ?_, hfresh.offset⟩
  intro c hc
  rw [Autograd.prod_three, ← Nat.mul_assoc, ← Nat.mul_assoc] at hc
  exact swapHeads_average x y z hc

theorem composed_attended (hexp : ExpLaws exp) (hw : 0 < l.headDim) (hB : 0 < B)
    (htQ : 0 < tQ) (htKv : 0 < tKv) (hq : Fresh q .f32 [B, tQ, l.embedDim] x)
    (hk : Fresh k .f32 [B, tKv, l.embedDim] y) (hv : Fresh v .f32 [B, tKv, l.embedDim] z)
    (hscores : [B * l.numHeads, tQ, tKv].prod * Dtype.byteSize .f32 < 2 ^ 63) :
    ∃ context, composedContext exp ln sqrt l q k v B tQ tKv = .ok context ∧
      Fresh context .f32 [B, tQ, l.embedDim]
        (attended exp sqrt l.numHeads l.headDim tQ tKv x y z) := by
  rw [← l.split] at hq hk hv
  obtain ⟨qs, hqs, hqsf⟩ := splitHeads_fresh hq hB htQ hw
  obtain ⟨ks, hks, hksf⟩ := splitHeads_fresh hk hB htKv hw
  obtain ⟨vs, hvs, hvsf⟩ := splitHeads_fresh hv hB htKv hw
  obtain ⟨kT, raw, invScale, scores, attn, average, hkT, hraw, hinv, hmul, hattn, haverage,
      havgf⟩ :=
    @averages_fresh F _ _ _ exp ln sqrt tQ tKv qs ks vs _ _ _ hexp _ _ hqsf hksf hvsf
      (Nat.mul_pos hB l.heads_pos) htQ htKv hw hscores
  obtain ⟨context, hcontext, hfresh⟩ := mergeHeads_fresh havgf hB htQ hw
  refine ⟨context, ?_, hfresh.toDense.of_eq ?_, hfresh.offset⟩
  · simp only [composedContext, hqs, hks, hvs, hkT, hraw, hinv, hmul, hattn, haverage, hcontext,
      ok_bind]
  · intro c hc
    rw [Autograd.prod_three, ← l.split, ← Nat.mul_assoc, ← Nat.mul_assoc] at hc
    exact swapHeads_average x y z hc

/-- If a head has a feature, every way through `forward` returns the output projection of the
softmax averages of the heads; the composition needs room for the scores. -/
theorem forward_attends {Wq Wk Wv Wo : Nat → Nat → F} {bq bk bv bo : Nat → F}
    (hadd : ∀ a b, exp (a + b) = exp a * exp b) (hpos : ∀ a, 0 < exp a)
    (hgemm : Attention.ExactGemm gemm) (hqProj : IsAffine l.qProj l.embedDim Wq bq)
    (hkProj : IsAffine l.kProj l.embedDim Wk bk) (hvProj : IsAffine l.vProj l.embedDim Wv bv)
    (hoProj : IsAffine l.oProj l.embedDim Wo bo) (hembed : 0 < l.embedDim) (hB : 0 < B)
    (htQ : 0 < tQ) (htKv : 0 < tKv) (hq : Holds q .f32 [B, tQ, l.embedDim] x)
    (hk : Holds k .f32 [B, tKv, l.embedDim] y) (hv : Holds v .f32 [B, tKv, l.embedDim] z)
    (gradEnabled : Bool) (hscores : gradEnabled = true ∨ tQ ≠ tKv →
      [B * l.numHeads, tQ, tKv].prod * Dtype.byteSize .f32 < 2 ^ 63) :
    ∃ out, forward exp ln sqrt gemm gradEnabled l q k v = .ok out ∧
      Fresh out .f32 [B, tQ, l.embedDim] (affineRows l.embedDim Wo bo
        (attended exp sqrt l.numHeads l.headDim tQ tKv (affineRows l.embedDim Wq bq x)
          (affineRows l.embedDim Wk bk y) (affineRows l.embedDim Wv bv z))) := by
  have hexp := expLaws_of_pos hadd hpos
  have hw : 0 < l.headDim := by
    have hsplit := l.split
    exact Nat.pos_of_mul_pos_left (hsplit.symm ▸ hembed)
  obtain ⟨qp, hqp, hqpf⟩ := hqProj.fresh hB htQ hq
  obtain ⟨kp, hkp, hkpf⟩ := hkProj.fresh hB htKv hk
  obtain ⟨vp, hvp, hvpf⟩ := hvProj.fresh hB htKv hv
  rw [forward_checked gradEnabled hq.shape hk.shape hv.shape, hqp, hkp, hvp]
  simp only [ok_bind]
  by_cases hone : gradEnabled = false ∧ tQ = 1 ∧ tKv = 1 ∧ q.layout.dtype = .f32
  · -- one key: the average is its value
    rw [if_pos hone]
    obtain ⟨_, rfl, rfl, _⟩ := hone
    apply hoProj.fresh hB htQ
    refine (hvpf.toDense.of_eq ?_).holds
    intro c hc
    rw [Autograd.prod_three, ← l.split, ← Nat.mul_assoc, ← Nat.mul_assoc] at hc
    exact (attended_one hpos _ _ _ hc).symm
  · rw [if_neg hone]
    by_cases hflash : gradEnabled = false ∧ tQ = tKv ∧ (sliced qp && sliced kp && sliced vp) = true
    · rw [if_pos hflash]
      obtain ⟨_, rfl, _⟩ := hflash
      obtain ⟨context, hcontext, hfresh⟩ :=
        @flash_attended F _ _ exp sqrt gemm l B tQ _ _ _ qp kp vp _ hexp hgemm hw htQ hqpf hkpf hvpf
      rw [hcontext, ok_bind]
      exact hoProj.fresh hB htQ hfresh.holds
    · -- the projected tensors are slices, so it is the mode or the lengths
      rw [if_neg hflash]
      have hmode : gradEnabled = true ∨ tQ ≠ tKv := by
        by_contra hmode
        rw [not_or, Bool.not_eq_true, not_not] at hmode
        refine hflash ⟨hmode.1, hmode.2, ?_⟩
        rw [sliced_fresh hqpf, sliced_fresh hkpf, sliced_fresh hvpf]
        rfl
      obtain ⟨context, hcontext, hfresh⟩ := @composed_attended F _ _ exp ln sqrt l B tQ tKv _ _ _
        qp kp vp _ hexp hw hB htQ htKv hqpf hkpf hvpf (hscores hmode)
      rw [hcontext, ok_bind]
      exact hoProj.fresh hB htQ hfresh.holds

end Ways

/-! ## Two heads, and a layer without features -/

section Instances

/-- The projection that copies. -/
def copyProj (t : Tensor ℚ) : Outcome BackwardError (Tensor ℚ) :=
  expect t.contiguous

theorem isAffine_copy (D : Nat) :
    IsAffine copyProj D (fun c d => if c = d then 1 else 0) fun _ => 0 where
  fresh := by
    intro x B T f _ _ hx
    obtain ⟨c, hc, hfresh⟩ := hx.contiguous
    refine ⟨c, by rw [copyProj, hc]; rfl, hfresh.toDense.of_eq ?_, hfresh.offset⟩
    intro i hi
    have hD : 0 < D := Nat.pos_of_ne_zero (by rintro rfl; simp at hi)
    simp [affineRows, Nat.mod_lt i hD, Nat.div_add_mod']

def twoHeads : MultiHeadAttention ℚ where
  qProj := copyProj
  kProj := copyProj
  vProj := copyProj
  oProj := copyProj
  embedDim := 2
  numHeads := 2
  headDim := 1
  heads_pos := Nat.two_pos
  split := rfl

/-- Two positions: the queries and the keys are zero, so both keys weigh alike. -/
theorem forward_attends_two_heads :
    ∃ out, forward (fun _ : ℚ => 1) (fun a => a) (fun a => a) Attention.productGemm true twoHeads
        (Autograd.bufferOf .f32 [1, 2, 2] fun _ => 0) (Autograd.bufferOf .f32 [1, 2, 2] fun _ => 0)
        (Autograd.bufferOf .f32 [1, 2, 2] fun c => (c : ℚ)) = .ok out ∧
      Fresh out .f32 [1, 2, 2] (affineRows 2 (fun c d => if c = d then 1 else 0) (fun _ => 0)
        (attended (fun _ => 1) (fun a => a) 2 1 2 2
          (affineRows 2 (fun c d => if c = d then 1 else 0) (fun _ => 0) fun _ => 0)
          (affineRows 2 (fun c d => if c = d then 1 else 0) (fun _ => 0) fun _ => 0)
          (affineRows 2 (fun c d => if c = d then 1 else 0) (fun _ => 0) fun c => (c : ℚ)))) :=
  forward_attends (l := twoHeads) (by simp) (by simp) Attention.productGemm_exact (isAffine_copy 2)
    (isAffine_copy 2) (isAffine_copy 2) (isAffine_copy 2) Nat.two_pos Nat.one_pos Nat.two_pos
    Nat.two_pos (Autograd.bufferOf_fresh _ (by decide)).holds
    (Autograd.bufferOf_fresh _ (by decide)).holds (Autograd.bufferOf_fresh _ (by decide)).holds true
    fun _ => by decide

theorem returns_of_test {ε α : Type} {r : Outcome ε α} {p : α → Prop} [DecidablePred p] :
    (match r with
      | .ok a => decide (p a)
      | _ => false) = true → ∃ a, r = .ok a ∧ p a := by
  intro h
  cases r with
  | ok a => exact ⟨a, rfl, of_decide_eq_true h⟩
  | err e => cases h
  | panic => cases h

/-- A layer that `new` builds for no features. -/
def noFeatures : MultiHeadAttention ℚ where
  qProj := copyProj
  kProj := copyProj
  vProj := copyProj
  oProj := copyProj
  embedDim := 0
  numHeads := 1
  headDim := 0
  heads_pos := Nat.one_pos
  split := rfl

def emptyInput : Tensor ℚ :=
  Autograd.bufferOf .f32 [1, 2, 0] fun _ => 0

/-- Without features the tiled kernel refuses, where the composition returns the empty tensor. -/
theorem forward_noFeatures :
    new 0 1 copyProj copyProj copyProj copyProj = .ok noFeatures ∧
      IsAffine copyProj 0 (fun c d => if c = d then 1 else 0) (fun _ => 0) ∧
      forward (fun _ => 1) (fun a => a) (fun a => a) Attention.productGemm false noFeatures emptyInput
          emptyInput emptyInput =
        .err (.backend "MultiHeadAttention::forward(flash)" "ZeroDim") ∧
      ∃ out, forward (fun _ => 1) (fun a => a) (fun a => a) Attention.productGemm true noFeatures
          emptyInput emptyInput emptyInput = .ok out ∧ out.shape = [1, 2, 0] :=
  ⟨rfl, isAffine_copy 0, rfl, returns_of_test (by decide +kernel)⟩

end Instances

end MultiHeadAttention

end Nn
end Rustorch
