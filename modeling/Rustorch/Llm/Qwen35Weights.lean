import Rustorch.Lib.LoopNest
import Rustorch.Llm.Qwen35Config

/-!
# Weights of a hybrid model, and the order of their axes

`qwen35_cpu.rs`: the loaders check the shapes and keep the elements in file order, and the forward
functions index the flat lists.  `dequant` gives the elements of a tensor.  Sizes are naturals.

A matrix or a stack of experts is read with its first dimension fastest.  The convolution reads its
`[conv_kernel, conv_dim]` tensor with the second dimension fastest, which is the same only for
taps that agree under both readings (`loadsInOrder_iff`).
-/

namespace Rustorch
namespace Llm

open Gguf List Outcome

inductive Qwen35CpuError
  | gguf (s : String)
  | dequant (s : String)
  | missingTensor (s : String)
  | shapeMismatch (name : String) (expected got : List Nat)

structure DenseWeight (F : Type) where
  data : List F
  shape : List Nat

def DenseWeight.rows {F : Type} (w : DenseWeight F) : Nat := w.shape[0]?.getD 0

def DenseWeight.cols {F : Type} (w : DenseWeight F) : Nat := w.shape[1]?.getD 0

structure AttnLayerWeights (F : Type) where
  attnNorm : List F
  attnPostNorm : List F
  wQ : DenseWeight F
  wK : DenseWeight F
  wV : DenseWeight F
  wO : DenseWeight F
  qNorm : List F
  kNorm : List F

structure SsmLayerWeights (F : Type) where
  attnNorm : List F
  attnPostNorm : List F
  wQkv : DenseWeight F
  wGate : DenseWeight F
  conv1d : List F
  conv1dKernel : Nat
  conv1dChannels : Nat
  ssmAlpha : DenseWeight F
  ssmBeta : DenseWeight F
  dtBias : List F
  ssmA : List F
  ssmNorm : List F
  ssmOut : DenseWeight F

inductive FfnWeights (F : Type)
  | dense (wGate wUp wDown : DenseWeight F)
  | moe (gateInp : DenseWeight F) (gateExps upExps downExps : List (DenseWeight F))
      (gateInpShexp : List F) (gateShexp upShexp downShexp : DenseWeight F)

inductive LayerWeights (F : Type)
  | attn (attn : AttnLayerWeights F) (ffn : FfnWeights F)
  | ssm (ssm : SsmLayerWeights F) (ffn : FfnWeights F)

structure Qwen35Weights (F : Type) where
  cfg : Qwen35Config
  tokEmbd : List F
  outputNorm : List F
  output : List F
  layers : List (LayerWeights F)

def Qwen35Config.keyDim (cfg : Qwen35Config) : Nat := cfg.ssmState * cfg.ssmGroups

def Qwen35Config.valueDim (cfg : Qwen35Config) : Nat := cfg.ssmState * cfg.ssmDtRank

def Qwen35Config.convDim (cfg : Qwen35Config) : Nat := 2 * cfg.keyDim + cfg.valueDim

def blk (li : Nat) (suffix : String) : String := s!"blk.{li}.{suffix}"

def dims (info : TensorInfo) : List Nat := info.shape.map UInt64.toNat

/-! ## Loading -/

section Load

variable {F : Type} (dequant : TensorInfo → Except String (List F)) (file : GgufFile)
  (cfg : Qwen35Config) (li : Nat)

def findTensor (name : String) : Outcome Qwen35CpuError TensorInfo :=
  match file.tensor name with
  | some info => .ok info
  | none => .err (.missingTensor name)

def dequantNamed (name : String) : Outcome Qwen35CpuError (List F) := do
  let info ← findTensor file name
  match dequant info with
  | .ok xs => .ok xs
  | .error e => .err (.dequant s!"{name}: {e}")

def load2d (name : String) (out inDim : Nat) : Outcome Qwen35CpuError (DenseWeight F) := do
  let info ← findTensor file name
  match dims info with
  | [cols, rows] =>
    if cols ≠ inDim ∨ rows ≠ out then
      .err (.shapeMismatch name [out, inDim] [rows, cols])
    else do
      let raw ← dequantNamed dequant file name
      .ok ⟨raw, [rows, cols]⟩
  | got => .err (.shapeMismatch name [out, inDim] got)

/-- The product wraps, as in a release build. -/
def load1d (name : String) (expectLen : Nat) : Outcome Qwen35CpuError (List F) := do
  let info ← findTensor file name
  if (info.shape.foldl (· * ·) 1).toNat ≠ expectLen then
    .err (.shapeMismatch name [expectLen] (dims info))
  else
    dequantNamed dequant file name

/-- The elements of a tensor of exactly the expected dimensions. -/
def loadShaped (name : String) (expect : List Nat) : Outcome Qwen35CpuError (List F) := do
  let info ← findTensor file name
  if dims info ≠ expect then
    .err (.shapeMismatch name expect (dims info))
  else
    dequantNamed dequant file name

def loadExperts (name : String) (nExperts rows cols : Nat) :
    Outcome Qwen35CpuError (List (DenseWeight F)) := do
  let raw ← loadShaped dequant file name [cols, rows, nExperts]
  let stride := rows * cols
  (range nExperts).mapM fun e => do
    let slice ← Machine.slice raw (e * stride) ((e + 1) * stride)
    .ok ⟨slice, [rows, cols]⟩

def loadStackedExperts (name : String) (nExperts ef d : Nat) :
    Outcome Qwen35CpuError (List (DenseWeight F)) :=
  loadExperts dequant file name nExperts ef d

def loadStackedExpertsDown (name : String) (nExperts d ef : Nat) :
    Outcome Qwen35CpuError (List (DenseWeight F)) :=
  loadExperts dequant file name nExperts d ef

def loadAttnLayer : Outcome Qwen35CpuError (AttnLayerWeights F) := do
  let attnNorm ← load1d dequant file (blk li "attn_norm.weight") cfg.d
  let attnPostNorm ← load1d dequant file (blk li "post_attention_norm.weight") cfg.d
  let wQ ← load2d dequant file (blk li "attn_q.weight") (2 * cfg.attnHeadDim * cfg.nQHeads) cfg.d
  let wK ← load2d dequant file (blk li "attn_k.weight") (cfg.attnHeadDim * cfg.nKvHeads) cfg.d
  let wV ← load2d dequant file (blk li "attn_v.weight") (cfg.attnHeadDim * cfg.nKvHeads) cfg.d
  let wO ← load2d dequant file (blk li "attn_output.weight") cfg.d (cfg.attnHeadDim * cfg.nQHeads)
  let qNorm ← load1d dequant file (blk li "attn_q_norm.weight") cfg.attnHeadDim
  let kNorm ← load1d dequant file (blk li "attn_k_norm.weight") cfg.attnHeadDim
  .ok { attnNorm, attnPostNorm, wQ, wK, wV, wO, qNorm, kNorm }

def loadSsmLayer : Outcome Qwen35CpuError (SsmLayerWeights F) := do
  let attnNorm ← load1d dequant file (blk li "attn_norm.weight") cfg.d
  let attnPostNorm ← load1d dequant file (blk li "post_attention_norm.weight") cfg.d
  let wQkv ← load2d dequant file (blk li "attn_qkv.weight") cfg.convDim cfg.d
  let wGate ← load2d dequant file (blk li "attn_gate.weight") cfg.valueDim cfg.d
  let conv1d ← loadShaped dequant file (blk li "ssm_conv1d.weight") [cfg.ssmConvKernel, cfg.convDim]
  let ssmAlpha ← load2d dequant file (blk li "ssm_alpha.weight") cfg.ssmDtRank cfg.d
  let ssmBeta ← load2d dequant file (blk li "ssm_beta.weight") cfg.ssmDtRank cfg.d
  let dtBias ← load1d dequant file (blk li "ssm_dt.bias") cfg.ssmDtRank
  let ssmA ← load1d dequant file (blk li "ssm_a") cfg.ssmDtRank
  let ssmNorm ← load1d dequant file (blk li "ssm_norm.weight") cfg.ssmState
  let ssmOut ← load2d dequant file (blk li "ssm_out.weight") cfg.d cfg.valueDim
  .ok { attnNorm, attnPostNorm, wQkv, wGate, conv1d, conv1dKernel := cfg.ssmConvKernel,
        conv1dChannels := cfg.convDim, ssmAlpha, ssmBeta, dtBias, ssmA, ssmNorm, ssmOut }

def loadFfn : Outcome Qwen35CpuError (FfnWeights F) :=
  match cfg.variant with
  | .qwen3PureTransformer | .dense => do
    let wGate ← load2d dequant file (blk li "ffn_gate.weight") cfg.f cfg.d
    let wUp ← load2d dequant file (blk li "ffn_up.weight") cfg.f cfg.d
    let wDown ← load2d dequant file (blk li "ffn_down.weight") cfg.d cfg.f
    .ok (.dense wGate wUp wDown)
  | .moe => do
    let gateInp ← load2d dequant file (blk li "ffn_gate_inp.weight") cfg.nExperts cfg.d
    let gateInpShexp ← load1d dequant file (blk li "ffn_gate_inp_shexp.weight") cfg.d
    let gateShexp ← load2d dequant file (blk li "ffn_gate_shexp.weight") cfg.expertF cfg.d
    let upShexp ← load2d dequant file (blk li "ffn_up_shexp.weight") cfg.expertF cfg.d
    let downShexp ← load2d dequant file (blk li "ffn_down_shexp.weight") cfg.d cfg.expertF
    let gateExps ← loadStackedExperts dequant file (blk li "ffn_gate_exps.weight")
      cfg.nExperts cfg.expertF cfg.d
    let upExps ← loadStackedExperts dequant file (blk li "ffn_up_exps.weight")
      cfg.nExperts cfg.expertF cfg.d
    let downExps ← loadStackedExpertsDown dequant file (blk li "ffn_down_exps.weight")
      cfg.nExperts cfg.d cfg.expertF
    .ok (.moe gateInp gateExps upExps downExps gateInpShexp gateShexp upShexp downShexp)

def loadLayer : Outcome Qwen35CpuError (LayerWeights F) :=
  match cfg.layerKind li with
  | .attention => do
    let attn ← loadAttnLayer dequant file cfg li
    let ffn ← loadFfn dequant file cfg li
    .ok (.attn attn ffn)
  | .ssm => do
    let ssm ← loadSsmLayer dequant file cfg li
    let ffn ← loadFfn dequant file cfg li
    .ok (.ssm ssm ffn)

def loadWeights : Outcome Qwen35CpuError (Qwen35Weights F) := do
  let tokEmbd ← dequantNamed dequant file "token_embd.weight"
  let outputNorm ← load1d dequant file "output_norm.weight" cfg.d
  let output ← dequantNamed dequant file "output.weight"
  let layers ← (range cfg.nLayers).mapM (loadLayer dequant file cfg)
  .ok { cfg, tokEmbd, outputNorm, output, layers }

end Load

/-! ## What the forward functions read -/

section Forward

variable {F : Type}

/-- The factor of input `j` in row `i` of `gemv`: element `j` of the slice of length `k`. -/
def gemvCoefficient (w : List F) (k i j : Nat) : Option F := ((w.drop (i * k)).take k)[j]?

/-- The factor of window position `t` in channel `c` of the convolution. -/
def tapCoefficient (ssm : SsmLayerWeights F) (t c : Nat) : Option F :=
  ssm.conv1d[t * ssm.conv1dChannels + c]?

variable [Zero F] [Add F] [Mul F]

/-- `gemv`; `none` is an index out of range. -/
def gemv (w x : List F) (n k : Nat) : Option (List F) :=
  (range n).mapM fun i => (range k).foldlM (fun acc j => do
    return acc + (← gemvCoefficient w k i j) * (← x[j]?)) 0

/-- The convolution of one channel over the history rows `cs` and the current projections. -/
def convChannel (ssm : SsmLayerWeights F) (cs qkvMixed : List F) (c : Nat) : Option F := do
  let acc ← (range (ssm.conv1dKernel - 1)).foldlM (fun acc t => do
    return acc + (← cs[t * ssm.conv1dChannels + c]?) * (← tapCoefficient ssm t c)) 0
  return acc + (← qkvMixed[c]?) * (← tapCoefficient ssm (ssm.conv1dKernel - 1) c)

end Forward

/-- A matrix of a layer, under the suffix of its tensor's name, and the sizes of its `gemv`. -/
structure Gemv (F : Type) where
  suffix : String
  w : DenseWeight F
  n : Nat
  k : Nat

/-- The products of `attn_block_forward`. -/
def AttnLayerWeights.gemvs {F : Type} (w : AttnLayerWeights F) (cfg : Qwen35Config) :
    List (Gemv F) :=
  [⟨"attn_q.weight", w.wQ, 2 * (cfg.attnHeadDim * cfg.nQHeads), cfg.d⟩,
    ⟨"attn_k.weight", w.wK, cfg.attnHeadDim * cfg.nKvHeads, cfg.d⟩,
    ⟨"attn_v.weight", w.wV, cfg.attnHeadDim * cfg.nKvHeads, cfg.d⟩,
    ⟨"attn_output.weight", w.wO, cfg.d, cfg.attnHeadDim * cfg.nQHeads⟩]

/-- The products of `ssm_block_forward`. -/
def SsmLayerWeights.gemvs {F : Type} (w : SsmLayerWeights F) (cfg : Qwen35Config) :
    List (Gemv F) :=
  [⟨"attn_qkv.weight", w.wQkv, w.conv1dChannels, cfg.d⟩,
    ⟨"attn_gate.weight", w.wGate, cfg.valueDim, cfg.d⟩,
    ⟨"ssm_beta.weight", w.ssmBeta, cfg.ssmDtRank, cfg.d⟩,
    ⟨"ssm_alpha.weight", w.ssmAlpha, cfg.ssmDtRank, cfg.d⟩,
    ⟨"ssm_out.weight", w.ssmOut, cfg.d, cfg.valueDim⟩]

/-- The products of `ffn_dense_forward`.  `ffn_moe_forward` is a stub: its matrices are listed with
their own sizes. -/
def FfnWeights.gemvs {F : Type} : FfnWeights F → List (Gemv F)
  | .dense wGate wUp wDown =>
    [⟨"ffn_gate.weight", wGate, wGate.rows, wGate.cols⟩,
      ⟨"ffn_up.weight", wUp, wGate.rows, wGate.cols⟩,
      ⟨"ffn_down.weight", wDown, wGate.cols, wGate.rows⟩]
  | .moe gateInp _ _ _ _ gateShexp upShexp downShexp =>
    [⟨"ffn_gate_inp.weight", gateInp, gateInp.rows, gateInp.cols⟩,
      ⟨"ffn_gate_shexp.weight", gateShexp, gateShexp.rows, gateShexp.cols⟩,
      ⟨"ffn_up_shexp.weight", upShexp, upShexp.rows, upShexp.cols⟩,
      ⟨"ffn_down_shexp.weight", downShexp, downShexp.rows, downShexp.cols⟩]

def FfnWeights.experts {F : Type} : FfnWeights F → List (String × List (DenseWeight F))
  | .dense _ _ _ => []
  | .moe _ gateExps upExps downExps _ _ _ _ =>
    [("ffn_gate_exps.weight", gateExps), ("ffn_up_exps.weight", upExps),
      ("ffn_down_exps.weight", downExps)]

def LayerWeights.gemvs {F : Type} (cfg : Qwen35Config) : LayerWeights F → List (Gemv F)
  | .attn w ffn => w.gemvs cfg ++ ffn.gemvs
  | .ssm w ffn => w.gemvs cfg ++ ffn.gemvs

def LayerWeights.ffn {F : Type} : LayerWeights F → FfnWeights F
  | .attn _ ffn => ffn
  | .ssm _ ffn => ffn

/-! ## One order of the axes -/

section Order

variable {F : Type} (dequant : TensorInfo → Except String (List F)) (file : GgufFile)
  (cfg : Qwen35Config)

/-- Element `(i0, i1, i2)` of a tensor, the first dimension fastest. -/
def element (name : String) (i0 i1 i2 : Nat) : Option F := do
  let info ← file.tensor name
  let xs ← (dequant info).toOption
  let n0 ← (dims info)[0]?
  let n1 ← (dims info)[1]?
  xs[i0 + n0 * (i1 + n1 * i2)]?

def Gemv.InOrder (li : Nat) (g : Gemv F) : Prop :=
  ∀ i1 < g.n, ∀ i0 < g.k,
    gemvCoefficient g.w.data g.k i1 i0 = element dequant file (blk li g.suffix) i0 i1 0

/-- Every coefficient of a layer is the element of its tensor at the same indices. -/
structure ReadsInOrder (li : Nat) (layer : LayerWeights F) : Prop where
  gemvs : ∀ g ∈ layer.gemvs cfg, g.InOrder dequant file li
  experts : ∀ p ∈ layer.ffn.experts, ∀ i2 w, p.2[i2]? = some w →
    ∀ i1 < w.rows, ∀ i0 < w.cols, gemvCoefficient w.data w.cols i1 i0 =
      element dequant file (blk li p.1) i0 i1 i2
  conv : ∀ ssm ffn, layer = .ssm ssm ffn → ∀ i0 < ssm.conv1dKernel, ∀ i1 < ssm.conv1dChannels,
    tapCoefficient ssm i0 i1 = element dequant file (blk li "ssm_conv1d.weight") i0 i1 0

def LoadsInOrder : Prop :=
  ∀ weights, loadWeights dequant file cfg = .ok weights → ∀ li < cfg.nLayers, ∀ layer,
    weights.layers[li]? = some layer → ReadsInOrder dequant file cfg li layer

section Sums

variable {dequant file cfg} [Zero F] [Add F] [Mul F] {li : Nat} {x : List F}

/-- A product of a layer that is read in order is one with the elements of its tensor. -/
theorem Gemv.InOrder.gemv_eq {g : Gemv F} (h : g.InOrder dequant file li) :
    gemv g.w.data x g.n g.k = (range g.n).mapM fun i => (range g.k).foldlM (fun acc j => do
      return acc + (← element dequant file (blk li g.suffix) j i 0) * (← x[j]?)) 0 := by
  refine Traversal.mapM_congr fun i hi => LoopNest.foldlM_congr 0 fun j hj acc => ?_
  rw [h i (mem_range.1 hi) j (mem_range.1 hj)]

/-- So is its convolution. -/
theorem ReadsInOrder.convChannel_eq {ssm : SsmLayerWeights F} {ffn : FfnWeights F}
    (h : ReadsInOrder dequant file cfg li (.ssm ssm ffn)) {cs : List F} {c : Nat}
    (hc : c < ssm.conv1dChannels) (hk : 0 < ssm.conv1dKernel) : convChannel ssm cs x c = (do
      let acc ← (range (ssm.conv1dKernel - 1)).foldlM (fun acc t => do
        return acc + (← cs[t * ssm.conv1dChannels + c]?) *
          (← element dequant file (blk li "ssm_conv1d.weight") t c 0)) 0
      return acc + (← x[c]?) * (← element dequant file (blk li "ssm_conv1d.weight")
        (ssm.conv1dKernel - 1) c 0)) := by
  have htap : ∀ t < ssm.conv1dKernel, tapCoefficient ssm t c = _ :=
    fun t ht => h.conv ssm ffn rfl t ht c hc
  rw [convChannel, htap _ (Nat.sub_one_lt_of_lt hk)]
  congr 1
  refine LoopNest.foldlM_congr 0 fun t ht acc => ?_
  have hlt := mem_range.1 ht
  rw [htap t (by omega)]

end Sums

/-- Both readings of a layer's convolution tensor agree. -/
def TapsAgree (li : Nat) : Prop :=
  ∀ xs, dequantNamed dequant file (blk li "ssm_conv1d.weight") = .ok xs →
    ∀ t < cfg.ssmConvKernel, ∀ c < cfg.convDim,
      xs[t * cfg.convDim + c]? = xs[t + cfg.ssmConvKernel * c]?

end Order

section Loaded

variable {F : Type} {dequant : TensorInfo → Except String (List F)} {file : GgufFile}
  {cfg : Qwen35Config} {li out inDim rows cols n : Nat} {name suffix : String} {xs : List F}
  {w : DenseWeight F} {info : TensorInfo}

theorem findTensor_eq_ok : findTensor file name = .ok info ↔ file.tensor name = some info := by
  rw [findTensor]
  cases file.tensor name <;> simp

theorem dequantNamed_eq_ok : dequantNamed dequant file name = .ok xs ↔
    ∃ info, file.tensor name = some info ∧ dequant info = .ok xs := by
  simp only [dequantNamed, bind_eq_ok, findTensor_eq_ok]
  refine exists_congr fun info => and_congr_right fun _ => ?_
  cases dequant info <;> simp

theorem element_eq {n0 n1 : Nat} {rest : List Nat} (hinfo : file.tensor name = some info)
    (hdims : dims info = n0 :: n1 :: rest) (hxs : dequantNamed dequant file name = .ok xs)
    (i0 i1 i2 : Nat) :
    element dequant file name i0 i1 i2 = xs[i0 + n0 * (i1 + n1 * i2)]? := by
  obtain ⟨_, hinfo', hdequant⟩ := dequantNamed_eq_ok.1 hxs
  cases hinfo.symm.trans hinfo'
  simp [element, hinfo, hdims, hdequant, Except.toOption]

theorem gemvCoefficient_eq {i k j : Nat} : j < k → gemvCoefficient xs k i j = xs[i * k + j]? := by
  intro h
  rw [gemvCoefficient, getElem?_take_of_lt h, getElem?_drop]

theorem load2d_shape : load2d dequant file name out inDim = .ok w → w.shape = [out, inDim] := by
  intro h
  obtain ⟨info, -, h⟩ := bind_eq_ok.1 h
  split at h
  · split_ifs at h with hne
    obtain ⟨raw, -, h⟩ := bind_eq_ok.1 h
    cases h
    grind
  · cases h

/-- A matrix is read in order by a product of its own sizes. -/
theorem load2d_inOrder : load2d dequant file (blk li suffix) out inDim = .ok w →
    Gemv.InOrder dequant file li ⟨suffix, w, out, inDim⟩ := by
  intro h i1 _ i0 hi0
  obtain ⟨info, hinfo, h⟩ := bind_eq_ok.1 h
  split at h
  next hdims =>
    split_ifs at h with hne
    obtain ⟨raw, hraw, h⟩ := bind_eq_ok.1 h
    cases h
    obtain ⟨rfl, rfl⟩ : _ = inDim ∧ _ = out := by simpa using hne
    rw [gemvCoefficient_eq hi0, element_eq (findTensor_eq_ok.1 hinfo) hdims hraw]
    congr 1
    ring
  · cases h

theorem loadShaped_eq_ok {expect : List Nat} : loadShaped dequant file name expect = .ok xs →
    (∃ info, file.tensor name = some info ∧ dims info = expect) ∧
      dequantNamed dequant file name = .ok xs := by
  intro h
  obtain ⟨info, hinfo, h⟩ := bind_eq_ok.1 h
  split_ifs at h with hdims
  exact ⟨⟨info, findTensor_eq_ok.1 hinfo, not_not.1 hdims⟩, h⟩

theorem loadExperts_inOrder {ws : List (DenseWeight F)} :
    loadExperts dequant file name n rows cols = .ok ws → ∀ i2 w, ws[i2]? = some w →
      ∀ i1 < w.rows, ∀ i0 < w.cols,
        gemvCoefficient w.data w.cols i1 i0 = element dequant file name i0 i1 i2 := by
  intro h i2 w hw
  obtain ⟨raw, hraw, h⟩ := bind_eq_ok.1 h
  obtain ⟨⟨info, hinfo, hdims⟩, hxs⟩ := loadShaped_eq_ok hraw
  obtain ⟨hlen, hget⟩ := forall₂_iff_get.1 (mapM_eq_ok_iff.1 h)
  obtain ⟨hi2, hw⟩ := List.getElem?_eq_some_iff.1 hw
  obtain ⟨slice, hslice, h⟩ := bind_eq_ok.1 (hget i2 (hlen ▸ hi2) hi2)
  rw [get_eq_getElem, getElem_range, Machine.slice] at hslice
  split_ifs at hslice with hle
  cases hslice
  cases (ok.inj h).trans hw
  intro i1 (hi1 : i1 < rows) i0 (hi0 : i0 < cols)
  have hlt : i1 * cols + i0 < rows * cols := by
    nlinarith
  have hstride : (i2 + 1) * (rows * cols) - i2 * (rows * cols) = rows * cols := by
    rw [← Nat.sub_mul, Nat.add_sub_cancel_left, Nat.one_mul]
  rw [element_eq hinfo hdims hxs]
  refine (gemvCoefficient_eq hi0).trans ?_
  rw [hstride, getElem?_take_of_lt hlt, getElem?_drop]
  congr 1
  ring

theorem attn_inOrder {attn : AttnLayerWeights F} (h : loadAttnLayer dequant file cfg li = .ok attn) :
    ∀ g ∈ attn.gemvs cfg, g.InOrder dequant file li := by
  simp only [loadAttnLayer, bind_eq_ok] at h
  obtain ⟨_, -, _, -, wQ, hQ, wK, hK, wV, hV, wO, hO, _, -, _, -, h⟩ := h
  cases h
  rw [Nat.mul_assoc] at hQ
  simpa [AttnLayerWeights.gemvs] using
    ⟨load2d_inOrder hQ, load2d_inOrder hK, load2d_inOrder hV, load2d_inOrder hO⟩

theorem ssm_inOrder {ssm : SsmLayerWeights F} (h : loadSsmLayer dequant file cfg li = .ok ssm) :
    (∀ g ∈ ssm.gemvs cfg, g.InOrder dequant file li) ∧
      ((∀ i0 < ssm.conv1dKernel, ∀ i1 < ssm.conv1dChannels, tapCoefficient ssm i0 i1 =
          element dequant file (blk li "ssm_conv1d.weight") i0 i1 0) ↔
        TapsAgree dequant file cfg li) := by
  simp only [loadSsmLayer, bind_eq_ok] at h
  obtain ⟨_, -, _, -, wQkv, hQkv, wGate, hGate, conv1d, hconv, ssmAlpha, hAlpha, ssmBeta, hBeta,
    _, -, _, -, _, -, ssmOut, hOut, h⟩ := h
  cases h
  constructor
  · simpa [SsmLayerWeights.gemvs] using ⟨load2d_inOrder hQkv, load2d_inOrder hGate,
      load2d_inOrder hBeta, load2d_inOrder hAlpha, load2d_inOrder hOut⟩
  · obtain ⟨⟨info, hinfo, hdims⟩, hxs⟩ := loadShaped_eq_ok hconv
    simp only [TapsAgree, hxs, ok.injEq, forall_eq', element_eq hinfo hdims hxs,
      tapCoefficient, Nat.mul_zero, Nat.add_zero]

theorem ffn_inOrder {ffn : FfnWeights F} (h : loadFfn dequant file cfg li = .ok ffn) :
    (∀ g ∈ ffn.gemvs, g.InOrder dequant file li) ∧
      ∀ p ∈ ffn.experts, ∀ i2 w, p.2[i2]? = some w → ∀ i1 < w.rows, ∀ i0 < w.cols,
        gemvCoefficient w.data w.cols i1 i0 = element dequant file (blk li p.1) i0 i1 i2 := by
  have hsizes : ∀ {s : String} {w : DenseWeight F} {out inDim : Nat},
      load2d dequant file (blk li s) out inDim = .ok w → w.rows = out ∧ w.cols = inDim := by
    intro s w out inDim h
    simp [DenseWeight.rows, DenseWeight.cols, load2d_shape h]
  unfold loadFfn at h
  split at h <;> simp only [bind_eq_ok] at h
  case h_3 =>
    obtain ⟨gateInp, hInp, _, -, gateShexp, hGate, upShexp, hUp, downShexp, hDown, gateExps, hG,
      upExps, hU, downExps, hD, h⟩ := h
    cases h
    constructor
    · simpa [FfnWeights.gemvs, hsizes hInp, hsizes hGate, hsizes hUp, hsizes hDown] using
        ⟨load2d_inOrder hInp, load2d_inOrder hGate, load2d_inOrder hUp, load2d_inOrder hDown⟩
    · simpa [FfnWeights.experts] using
        ⟨loadExperts_inOrder hG, loadExperts_inOrder hU, loadExperts_inOrder hD⟩
  all_goals
    obtain ⟨wGate, hGate, wUp, hUp, wDown, hDown, h⟩ := h
    cases h
    refine ⟨?_, by simp [FfnWeights.experts]⟩
    simpa [FfnWeights.gemvs, hsizes hGate] using
      ⟨load2d_inOrder hGate, load2d_inOrder hUp, load2d_inOrder hDown⟩

/-- A loaded layer is read in order except for the convolution tensor of an SSM layer. -/
theorem readsInOrder_of_loadLayer {layer : LayerWeights F}
    (h : loadLayer dequant file cfg li = .ok layer) :
    ReadsInOrder dequant file cfg li layer ↔
      (cfg.layerKind li = .ssm → TapsAgree dequant file cfg li) := by
  unfold loadLayer at h
  split at h <;> rename_i hkind <;> simp only [bind_eq_ok] at h
  · obtain ⟨attn, hattn, ffn, hffn, h⟩ := h
    cases h
    obtain ⟨hgemvs, hexperts⟩ := ffn_inOrder hffn
    have hall : ReadsInOrder dequant file cfg li (.attn attn ffn) :=
      ⟨forall_mem_append.2 ⟨attn_inOrder hattn, hgemvs⟩, hexperts, fun _ _ heq => nomatch heq⟩
    simp [hkind, hall]
  · obtain ⟨ssm, hssm, ffn, hffn, h⟩ := h
    cases h
    obtain ⟨hgemvs, hexperts⟩ := ffn_inOrder hffn
    obtain ⟨hssmGemvs, htaps⟩ := ssm_inOrder hssm
    simp only [hkind, true_imp_iff, ← htaps]
    constructor
    · intro hall
      exact hall.conv ssm ffn rfl
    · intro hconv
      refine ⟨forall_mem_append.2 ⟨hssmGemvs, hgemvs⟩, hexperts, ?_⟩
      rintro _ _ ⟨⟩
      exact hconv

theorem layer_of_loadWeights {weights : Qwen35Weights F}
    (h : loadWeights dequant file cfg = .ok weights) (hli : li < cfg.nLayers) :
    ∃ layer, weights.layers[li]? = some layer ∧ loadLayer dequant file cfg li = .ok layer := by
  simp only [loadWeights, bind_eq_ok] at h
  obtain ⟨_, -, _, -, _, -, layers, hmap, h⟩ := h
  cases h
  obtain ⟨hlen, hget⟩ := forall₂_iff_get.1 (mapM_eq_ok_iff.1 hmap)
  have hlt : li < layers.length := by simpa [← hlen] using hli
  have hlayer := hget li (hlen ▸ hlt) hlt
  rw [get_eq_getElem, getElem_range] at hlayer
  exact ⟨_, getElem?_eq_getElem hlt, hlayer⟩

end Loaded

/-- Files whose weights load are read in order exactly if the taps of the SSM layers agree. -/
theorem loadsInOrder_iff {F : Type} (dequant : TensorInfo → Except String (List F))
    (file : GgufFile) (cfg : Qwen35Config) :
    LoadsInOrder dequant file cfg ↔ ((∃ weights, loadWeights dequant file cfg = .ok weights) →
      ∀ li < cfg.nLayers, cfg.layerKind li = .ssm → TapsAgree dequant file cfg li) := by
  constructor
  · rintro h ⟨weights, hload⟩ li hli
    obtain ⟨layer, hlayer, hrun⟩ := layer_of_loadWeights hload hli
    exact (readsInOrder_of_loadLayer hrun).1 (h weights hload li hli layer hlayer)
  · intro h weights hload li hli layer hlayer
    obtain ⟨layer', hlayer', hrun⟩ := layer_of_loadWeights hload hli
    cases hlayer.symm.trans hlayer'
    exact (readsInOrder_of_loadLayer hrun).2 (h ⟨weights, hload⟩ li hli)

/-- One SSM layer with a kernel of two taps and three channels. -/
def twoTapCfg : Qwen35Config :=
  ⟨.dense, 1, 1, 1, 1, 1, 1, 1, 1, 0, 0, 1, 1, 1, 1, 2, 0, 0, 0, 0, [], [0]⟩

def twoTapFile : GgufFile :=
  { headlessFile with tensors :=
      [("token_embd.weight", [1, 1]), ("output_norm.weight", [1]), ("output.weight", [1, 1]),
        ("blk.0.attn_norm.weight", [1]), ("blk.0.post_attention_norm.weight", [1]),
        ("blk.0.attn_qkv.weight", [1, 3]), ("blk.0.attn_gate.weight", [1, 1]),
        ("blk.0.ssm_conv1d.weight", [2, 3]), ("blk.0.ssm_alpha.weight", [1, 1]),
        ("blk.0.ssm_beta.weight", [1, 1]), ("blk.0.ssm_dt.bias", [1]), ("blk.0.ssm_a", [1]),
        ("blk.0.ssm_norm.weight", [1]), ("blk.0.ssm_out.weight", [1, 1]),
        ("blk.0.ffn_gate.weight", [1, 1]), ("blk.0.ffn_up.weight", [1, 1]),
        ("blk.0.ffn_down.weight", [1, 1])].map fun p => ⟨p.1, p.2, .f32, 0⟩ }

/-- The elements of a tensor are numbered in file order. -/
def numbered (info : TensorInfo) : Except String (List Int) :=
  .ok ((range (dims info).prod).map Int.ofNat)

/-- Tap 0 of channel 1 is read from element 1, which is tap 1 of channel 0. -/
theorem twoTap_not_loadsInOrder : ¬ LoadsInOrder numbered twoTapFile twoTapCfg := by
  intro h
  have hload : loadWeights numbered twoTapFile twoTapCfg = .ok _ := rfl
  have hconv := (h _ hload 0 Nat.one_pos _ rfl).conv _ _ rfl 0 (by decide) 1 (by decide)
  exact absurd hconv (by decide)

end Llm
end Rustorch
