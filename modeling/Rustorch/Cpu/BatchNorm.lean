import Rustorch.Cpu.ConvAdjoint
import Rustorch.Lib.Standardize
import Rustorch.Sweep.Gp

/-!
# Batch normalisation

`batch_norm2d_forward` takes the mean and the variance of every channel over the batch and the
plane.  `batch_norm2d_backward` sums the upstream gradient over the channel and corrects every cell
by the two sums.
-/

namespace Rustorch
namespace Cpu

open Rustorch.Core List Finset Option Outcome
open LoopNest (indices)
open Accumulate (addAt)
open Standardize

section Model

variable {α : Type} [CommRing α] [Div α]

/-! ## The forward kernel -/

/-- `mean[ci] += in_data[idx]`, and the division by the number of cells. -/
def channelMeans (inData : List α) (n c h w : Nat) (m : α) (mean : List α) : Option (List α) := do
  let mean ← LoopNest.run [n, c, h, w] (fun I mean =>
    match I with
    | [ni, ci, hi, wi] => do
      let v ← inData[index4 ni ci hi wi c h w]?
      addAt [(ci, v)] mean
    | _ => some mean) mean
  some (mean.map (· / m))

/-- `var[ci] += d * d`, and the division by the number of cells. -/
def channelVars (inData mean : List α) (n c h w : Nat) (m : α) (var : List α) :
    Option (List α) := do
  let var ← LoopNest.run [n, c, h, w] (fun I var =>
    match I with
    | [ni, ci, hi, wi] => do
      let v ← inData[index4 ni ci hi wi c h w]?
      let mu ← mean[ci]?
      let d := v - mu
      addAt [(ci, d * d)] var
    | _ => some var) var
  some (var.map (· / m))

/-- The third pass. -/
def normalize (sqrt : α → α) (inData mean var gData bData : List α) (n c h w : Nat) (eps : α)
    (out : List α) : Option (List α) :=
  LoopNest.run [n, c] (fun K out =>
    match K with
    | [ni, ci] => do
      let v ← var[ci]?
      let invStd := 1 / sqrt (v + eps)
      LoopNest.run [h, w] (fun J out =>
        match J with
        | [hi, wi] => do
          let idx := index4 ni ci hi wi c h w
          let x ← inData[idx]?
          let mu ← mean[ci]?
          let xHat := (x - mu) * invStd
          let g ← gData[ci]?
          let b ← bData[ci]?
          LoopNest.put out idx (xHat * g + b)
        | _ => some out) out
    | _ => some out) out

/-- The output and the saved mean and variance. -/
def batchNorm2dForward (sqrt : α → α) (input gamma beta : Tensor α) (eps : α) :
    Outcome BackendError (Tensor α × Tensor α × Tensor α) :=
  if input.layout.dtype ≠ .f32 then
    .err (.dtypeMismatch "batch_norm2d" input.layout.dtype .f32)
  else if input.shape.length ≠ 4 then
    .err (.shapeMismatch "batch_norm2d" input.shape (replicate 4 0))
  else do
    let n ← axisSize input.shape 0
    let c ← axisSize input.shape 1
    let h ← axisSize input.shape 2
    let w ← axisSize input.shape 3
    let m : α := (numel [n, h, w] : Nat)
    let inData ← sliceExpect input
    let gData ← sliceExpect gamma
    let bData ← sliceExpect beta
    let mean ← filled .f32 (0 : α) c
    let var ← filled .f32 (0 : α) c
    let mean ← expect (channelMeans inData n c h w m mean)
    let var ← expect (channelVars inData mean n c h w m var)
    let out ← filled .f32 (0 : α) (numel [n, c, h, w])
    let out ← expect (normalize sqrt inData mean var gData bData n c h w eps out)
    let outT ← fromVecOrOom .f32 [n, c, h, w] out (numel [n, c, h, w])
    let meanT ← fromVecOrOom .f32 [c] mean c
    let varT ← fromVecOrOom .f32 [c] var c
    .ok (outT, meanT, varT)

/-! ## The backward kernel -/

/-- `d_gamma`, `d_beta`, `sum_dy` and `sum_dy_xhat`. -/
abbrev ChannelSums (α : Type) : Type :=
  List α × List α × List α × List α

/-- The sums over every channel. -/
def channelSums (sqrt : α → α) (g inData mean var : List α) (n c h w : Nat) (eps : α)
    (sums : ChannelSums α) : Option (ChannelSums α) :=
  LoopNest.run [n, c] (fun K sums =>
    match K with
    | [ni, ci] => do
      let v ← var[ci]?
      let invStd := 1 / sqrt (v + eps)
      LoopNest.run [h, w] (fun J (dGamma, dBeta, sumDy, sumDyXhat) =>
        match J with
        | [hi, wi] => do
          let idx := index4 ni ci hi wi c h w
          let x ← inData[idx]?
          let mu ← mean[ci]?
          let xHat := (x - mu) * invStd
          let dy ← g[idx]?
          let dGamma ← addAt [(ci, dy * xHat)] dGamma
          let dBeta ← addAt [(ci, dy)] dBeta
          let sumDy ← addAt [(ci, dy)] sumDy
          let sumDyXhat ← addAt [(ci, dy * xHat)] sumDyXhat
          some (dGamma, dBeta, sumDy, sumDyXhat)
        | _ => some (dGamma, dBeta, sumDy, sumDyXhat)) sums
    | _ => some sums) sums

/-- The gradient of the input. -/
def inputGrad (sqrt : α → α) (g inData gammaData mean var sumDy sumDyXhat : List α)
    (n c h w : Nat) (m eps : α) (dIn : List α) : Option (List α) :=
  LoopNest.run [n, c] (fun K dIn =>
    match K with
    | [ni, ci] => do
      let v ← var[ci]?
      let invStd := 1 / sqrt (v + eps)
      let ga ← gammaData[ci]?
      let coef := ga * invStd / m
      LoopNest.run [h, w] (fun J dIn =>
        match J with
        | [hi, wi] => do
          let idx := index4 ni ci hi wi c h w
          let x ← inData[idx]?
          let mu ← mean[ci]?
          let xHat := (x - mu) * invStd
          let dy ← g[idx]?
          let s ← sumDy[ci]?
          let sx ← sumDyXhat[ci]?
          LoopNest.put dIn idx (coef * (m * dy - s - xHat * sx))
        | _ => some dIn) dIn
    | _ => some dIn) dIn

/-- The gradients of the input, of gamma and of beta. -/
def batchNorm2dBackward (sqrt : α → α) (gradOutput input gamma savedMean savedVar : Tensor α)
    (eps : α) : Outcome BackendError (Tensor α × Tensor α × Tensor α) := do
  let n ← axisSize input.shape 0
  let c ← axisSize input.shape 1
  let h ← axisSize input.shape 2
  let w ← axisSize input.shape 3
  let m : α := (numel [n, h, w] : Nat)
  let g ← sliceExpect gradOutput
  let inData ← sliceExpect input
  let gammaData ← sliceExpect gamma
  let mean ← sliceExpect savedMean
  let var ← sliceExpect savedVar
  let dGamma ← filled .f32 (0 : α) c
  let dBeta ← filled .f32 (0 : α) c
  let sumDy ← filled .f32 (0 : α) c
  let sumDyXhat ← filled .f32 (0 : α) c
  let (dGamma, dBeta, sumDy, sumDyXhat) ← expect
    (channelSums sqrt g inData mean var n c h w eps (dGamma, dBeta, sumDy, sumDyXhat))
  let dIn ← filled .f32 (0 : α) (numel [n, c, h, w])
  let dIn ← expect
    (inputGrad sqrt g inData gammaData mean var sumDy sumDyXhat n c h w m eps dIn)
  let dInT ← fromVecOrOom .f32 [n, c, h, w] dIn (numel [n, c, h, w])
  let dGT ← fromVecOrOom .f32 [c] dGamma c
  let dBT ← fromVecOrOom .f32 [c] dBeta c
  .ok (dInT, dGT, dBT)

end Model

/-! ## Values of the kernels -/

/-- The positions of one channel. -/
def channelCells (n h w : Nat) : Finset (Nat × Nat × Nat) :=
  Finset.range n ×ˢ Finset.range h ×ˢ Finset.range w

/-- A tensor's values on a channel. -/
def onChannel {α : Type} (n c h w : Nat) (f : Nat → α) (k : Nat) (p : Nat × Nat × Nat) : α :=
  f (linearOf [n, c, h, w] [p.1, k, p.2.1, p.2.2])

theorem card_channelCells (n h w : Nat) : (channelCells n h w).card = n * (h * w) := by
  rw [channelCells, card_product, card_product, card_range, card_range, card_range]

section Sums

variable {M : Type} [AddCommMonoid M] {n c h w : Nat}

theorem sum_channelCells (t : Nat × Nat × Nat → M) :
    ∑ p ∈ channelCells n h w, t p =
      ∑ ni ∈ Finset.range n, ∑ hi ∈ Finset.range h, ∑ wi ∈ Finset.range w, t (ni, hi, wi) := by
  rw [channelCells, sum_product]
  refine sum_congr rfl fun ni _ => ?_
  rw [sum_product]

theorem sum_channels (t : List Nat → M) :
    ((indices [n, c, h, w]).map t).sum =
      ∑ k ∈ Finset.range c, ∑ p ∈ channelCells n h w, t [p.1, k, p.2.1, p.2.2] := by
  simp only [LoopNest.sum_indices_cons, LoopNest.sum_indices_nil, sum_channelCells]
  exact sum_comm

theorem sum_one_channel {k : Nat} (hk : k < c) (t : List Nat → M) :
    ((indices [n, c, h, w]).map fun I => if I.getD 1 0 = k then t I else 0).sum =
      ∑ p ∈ channelCells n h w, t [p.1, k, p.2.1, p.2.2] := by
  rw [sum_channels, sum_eq_single k]
  · exact sum_congr rfl fun p _ => if_pos rfl
  · intro j _ hjk
    exact sum_eq_zero fun p _ => if_neg hjk
  · intro hnot
    exact absurd (Finset.mem_range.2 hk) hnot

end Sums

section Values

variable {α : Type} [CommRing α] {n c h w : Nat} {f : Nat → α} {sqrt : α → α} {eps : α}

theorem cells_eq (hc : 0 < c) (hfit : [n, c, h, w].prod < u64Size) :
    numel [n, h, w] = (channelCells n h w).card := by
  have hprod : [n, h, w].prod = n * (h * w) := by simp
  have hle : [n, h, w].prod ≤ [n, c, h, w].prod := by
    simp only [List.prod_cons, prod_nil, mul_one]
    exact Nat.mul_le_mul_left n (Nat.le_mul_of_pos_left _ hc)
  rw [numel_of_fits (lt_of_le_of_lt hle hfit), hprod, card_channelCells]

theorem getElem?_channels {β : Type} (v : Nat → β) {k : Nat} (hk : k < c) :
    ((List.range c).map v)[k]? = some (v k) := by
  rw [getElem?_map, getElem?_range hk]
  rfl

theorem run_channels {body : List Nat → List α → Option (List α)} {v : List Nat → α}
    (hbody : ∀ I, InBounds [n, c, h, w] I → ∀ out, body I out = addAt [(I.getD 1 0, v I)] out) :
    LoopNest.run [n, c, h, w] body (replicate c 0) = some ((List.range c).map fun k =>
      ∑ p ∈ channelCells n h w, v [p.1, k, p.2.1, p.2.2]) := by
  have hcell : ∀ I, InBounds [n, c, h, w] I → I.getD 1 0 < c := by
    rintro I (_ | ⟨_, _ | ⟨hci, _⟩⟩)
    exact hci
  rw [LoopNest.run_addAt hcell hbody]
  exact congrArg some (map_congr_left fun k hk => sum_one_channel (List.mem_range.1 hk) v)

variable [Div α]

/-- The mean of channel `k`. -/
abbrev channelMean (n c h w : Nat) (f : Nat → α) (k : Nat) : α :=
  mean (channelCells n h w) (onChannel n c h w f k)

abbrev channelVariance (n c h w : Nat) (f : Nat → α) (k : Nat) : α :=
  variance (channelCells n h w) (onChannel n c h w f k)

/-- The upstream gradient over channel `k`. -/
abbrev channelSum (n c h w : Nat) (u : Nat → α) (k : Nat) : α :=
  ∑ p ∈ channelCells n h w, onChannel n c h w u k p

/-- The upstream gradient against the standardised values. -/
abbrev channelProduct (sqrt : α → α) (eps : α) (n c h w : Nat) (f u : Nat → α) (k : Nat) : α :=
  ∑ p ∈ channelCells n h w, onChannel n c h w u k p *
    standardized sqrt eps (channelCells n h w) (onChannel n c h w f k) p

section

variable (hfit : [n, c, h, w].prod < u64Size)

include hfit

theorem channelMeans_eq :
    channelMeans ((List.range [n, c, h, w].prod).map f) n c h w ((channelCells n h w).card : α)
        (replicate c 0) =
      some ((List.range c).map (channelMean n c h w f)) := by
  have hrun := @run_channels α _ n c h w (fun I out =>
    match I with
    | [ni, ci, hi, wi] => do
      let v ← ((List.range [n, c, h, w].prod).map f)[index4 ni ci hi wi c h w]?
      addAt [(ci, v)] out
    | _ => some out) (fun I => f (linearOf [n, c, h, w] I)) (by
      rintro I (_ | ⟨hni, _ | ⟨hci, _ | ⟨hhi, _ | ⟨hwi, _ | _⟩⟩⟩⟩) out
      simp only [read_index4 hni hci hhi hwi hfit]
      rfl)
  rw [channelMeans, hrun]
  simp only [Option.bind_eq_bind, Option.bind_some, List.map_map]
  rfl

theorem channelVars_eq :
    channelVars ((List.range [n, c, h, w].prod).map f)
        ((List.range c).map (channelMean n c h w f)) n c h w
        ((channelCells n h w).card : α) (replicate c 0) =
      some ((List.range c).map (channelVariance n c h w f)) := by
  have hrun := @run_channels α _ n c h w (fun I out =>
    match I with
    | [ni, ci, hi, wi] => do
      let v ← ((List.range [n, c, h, w].prod).map f)[index4 ni ci hi wi c h w]?
      let mu ← ((List.range c).map (channelMean n c h w f))[ci]?
      let d := v - mu
      addAt [(ci, d * d)] out
    | _ => some out) (fun I =>
      (f (linearOf [n, c, h, w] I) - channelMean n c h w f (I.getD 1 0)) *
        (f (linearOf [n, c, h, w] I) - channelMean n c h w f (I.getD 1 0))) (by
      rintro I (_ | ⟨hni, _ | ⟨hci, _ | ⟨hhi, _ | ⟨hwi, _ | _⟩⟩⟩⟩) out
      simp only [read_index4 hni hci hhi hwi hfit, getElem?_channels _ hci]
      rfl)
  rw [channelVars, hrun]
  simp only [Option.bind_eq_bind, Option.bind_some, List.map_map]
  rfl

/-- The value of an output cell. -/
def normalizedValue (sqrt : α → α) (eps : α) (n c h w : Nat) (f ga be : Nat → α) :
    List Nat → α
  | [ni, ci, hi, wi] =>
    standardized sqrt eps (channelCells n h w) (onChannel n c h w f ci) (ni, hi, wi) * ga ci +
      be ci
  | _ => 0

theorem normalize_eq {ga be : Nat → α} :
    normalize sqrt ((List.range [n, c, h, w].prod).map f)
        ((List.range c).map (channelMean n c h w f))
        ((List.range c).map (channelVariance n c h w f))
        ((List.range c).map ga) ((List.range c).map be) n c h w eps
        (replicate [n, c, h, w].prod 0) =
      some ((indices [n, c, h, w]).map (normalizedValue sqrt eps n c h w f ga be)) := by
  rw [normalize, @LoopNest.run_nested _ [n, c] [h, w] _ (fun I out =>
    LoopNest.put out (linearOf [n, c, h, w] I) (normalizedValue sqrt eps n c h w f ga be I))]
  · exact LoopNest.run_write length_replicate fun _ _ _ => rfl
  · rintro K (_ | ⟨hni, _ | ⟨hci, _ | _⟩⟩) s
    simp only [getElem?_channels _ hci, bind_eq_bind, bind_some]
    refine LoopNest.run_congr s ?_
    rintro J (_ | ⟨hhi, _ | ⟨hwi, _ | _⟩⟩) out
    simp only [read_index4 hni hci hhi hwi hfit, bind_some]
    rw [index4_eq (inBounds_four hni hci hhi hwi) hfit]
    rfl

theorem channelSums_eq {u : Nat → α} :
    channelSums sqrt ((List.range [n, c, h, w].prod).map u) ((List.range [n, c, h, w].prod).map f)
        ((List.range c).map (channelMean n c h w f))
        ((List.range c).map (channelVariance n c h w f)) n c h w
        eps (replicate c 0, replicate c 0, replicate c 0, replicate c 0) =
      some
        ((List.range c).map (channelProduct sqrt eps n c h w f u),
          (List.range c).map (channelSum n c h w u),
          (List.range c).map (channelSum n c h w u),
          (List.range c).map (channelProduct sqrt eps n c h w f u)) := by
  let dy : List Nat → α := fun I => u (linearOf [n, c, h, w] I)
  let xHat : List Nat → α := fun I => match I with
    | [ni, ci, hi, wi] =>
      standardized sqrt eps (channelCells n h w) (onChannel n c h w f ci) (ni, hi, wi)
    | _ => 0
  let addDy : List Nat → List α → Option (List α) := fun I out => addAt [(I.getD 1 0, dy I)] out
  let addProd : List Nat → List α → Option (List α) :=
    fun I out => addAt [(I.getD 1 0, dy I * xHat I)] out
  have hdy := @run_channels α _ n c h w addDy dy fun _ _ _ => rfl
  have hprod := @run_channels α _ n c h w addProd (fun I => dy I * xHat I) fun _ _ _ => rfl
  -- the four buffers are filled side by side
  rw [channelSums, @LoopNest.run_nested _ [n, c] [h, w] _
    (LoopNest.both addProd (LoopNest.both addDy (LoopNest.both addDy addProd)))]
  · exact LoopNest.run_both hprod (LoopNest.run_both hdy (LoopNest.run_both hdy hprod))
  · rintro K (_ | ⟨hni, _ | ⟨hci, _ | _⟩⟩) s
    simp only [getElem?_channels _ hci, bind_eq_bind, bind_some]
    refine LoopNest.run_congr s ?_
    rintro J (_ | ⟨hhi, _ | ⟨hwi, _ | _⟩⟩) ⟨dGamma, dBeta, sumDy, sumDyXhat⟩
    simp only [read_index4 hni hci hhi hwi hfit, bind_some, LoopNest.both, bind_eq_bind, bind_assoc]
    rfl

/-- The gradient of an input cell. -/
def inputGradValue (sqrt : α → α) (eps : α) (n c h w : Nat) (f ga u : Nat → α) : List Nat → α
  | [ni, ci, hi, wi] =>
    let cells := channelCells n h w
    ga ci * invStd sqrt eps cells (onChannel n c h w f ci) / (cells.card : α) *
      ((cells.card : α) * onChannel n c h w u ci (ni, hi, wi) -
        (∑ p ∈ cells, onChannel n c h w u ci p) -
        standardized sqrt eps cells (onChannel n c h w f ci) (ni, hi, wi) *
          ∑ p ∈ cells, onChannel n c h w u ci p *
            standardized sqrt eps cells (onChannel n c h w f ci) p)
  | _ => 0

theorem inputGrad_eq {ga u : Nat → α} :
    inputGrad sqrt ((List.range [n, c, h, w].prod).map u) ((List.range [n, c, h, w].prod).map f)
        ((List.range c).map ga)
        ((List.range c).map (channelMean n c h w f))
        ((List.range c).map (channelVariance n c h w f))
        ((List.range c).map (channelSum n c h w u))
        ((List.range c).map (channelProduct sqrt eps n c h w f u)) n c h w
        ((channelCells n h w).card : α) eps (replicate [n, c, h, w].prod 0) =
      some ((indices [n, c, h, w]).map (inputGradValue sqrt eps n c h w f ga u)) := by
  rw [inputGrad, @LoopNest.run_nested _ [n, c] [h, w] _ (fun I out =>
    LoopNest.put out (linearOf [n, c, h, w] I) (inputGradValue sqrt eps n c h w f ga u I))]
  · exact LoopNest.run_write length_replicate fun _ _ _ => rfl
  · rintro K (_ | ⟨hni, _ | ⟨hci, _ | _⟩⟩) s
    simp only [getElem?_channels _ hci, bind_eq_bind, bind_some]
    refine LoopNest.run_congr s ?_
    rintro J (_ | ⟨hhi, _ | ⟨hwi, _ | _⟩⟩) out
    simp only [read_index4 hni hci hhi hwi hfit, bind_some]
    rw [index4_eq (inBounds_four hni hci hhi hwi) hfit]
    rfl

/-! ## The two kernels on tensors in front of their buffers -/

end

theorem channel_bytes {T : Dtype} (h0 : 0 ∉ [n, c, h, w])
    (hbytes : [n, c, h, w].prod * T.byteSize < 2 ^ 63) : [c].prod * T.byteSize < 2 ^ 63 := by
  have hdvd : c ∣ [n, c, h, w].prod := dvd_prod (by simp)
  have hle : c ≤ [n, c, h, w].prod := Nat.le_of_dvd (prod_pos (by
    intro d hd
    exact Nat.pos_of_ne_zero fun h => h0 (h ▸ hd))) hdvd
  rw [List.prod_singleton]
  exact lt_of_le_of_lt (Nat.mul_le_mul_right _ hle) hbytes

variable {x gamma beta g : Tensor α} {ga be u : Nat → α}

theorem batchNorm2dForward_fresh (h0 : 0 ∉ [n, c, h, w]) (hx : Fresh x .f32 [n, c, h, w] f)
    (hga : Fresh gamma .f32 [c] ga) (hbe : Fresh beta .f32 [c] be) :
    ∃ y mu var, batchNorm2dForward sqrt x gamma beta eps = .ok (y, mu, var) ∧
      Fresh y .f32 [n, c, h, w]
        (fun l => normalizedValue sqrt eps n c h w f ga be (coordsOf [n, c, h, w] l)) ∧
      Fresh mu .f32 [c] (channelMean n c h w f) ∧
      Fresh var .f32 [c] (channelVariance n c h w f) := by
  have hfit := prod_lt_of_bytes hx.bytes
  have hc : 0 < c := Nat.pos_of_ne_zero fun hc => h0 (by simp [hc])
  have hcbytes := channel_bytes h0 hx.bytes
  have hcprod : [c].prod = c := prod_singleton
  obtain ⟨y, hy, hyfresh⟩ := @fromVecOrOom_fresh α .f32 [n, c, h, w]
    (fun l => normalizedValue sqrt eps n c h w f ga be (coordsOf [n, c, h, w] l))
    (numel [n, c, h, w]) hx.bytes
  obtain ⟨mu, hmu, hmufresh⟩ := @fromVecOrOom_fresh α .f32 [c]
    (channelMean n c h w f) c hcbytes
  obtain ⟨var, hvar, hvarfresh⟩ := @fromVecOrOom_fresh α .f32 [c]
    (channelVariance n c h w f) c hcbytes
  rw [hcprod] at hcbytes hmu hvar
  have hgaSlice := hga.asSlice
  have hbeSlice := hbe.asSlice
  rw [hcprod] at hgaSlice hbeSlice
  refine ⟨y, mu, var, ?_, hyfresh, hmufresh, hvarfresh⟩
  rw [batchNorm2dForward, if_neg (by simp [hx.dtype]), if_neg (by simp [hx.shape])]
  simp only [hx.shape, axisSize, getElem?_cons_zero, getElem?_cons_succ,
    expect_some, ok_bind, sliceExpect, hx.asSlice, hgaSlice, hbeSlice,
    unwrap_ok, filled_ok hcbytes, cells_eq hc hfit, channelMeans_eq hfit,
    channelVars_eq hfit]
  rw [numel_of_bytes hx.bytes, filled_ok hx.bytes, ok_bind, normalize_eq hfit,
    expect_some, ok_bind, map_indices, ← numel_of_bytes hx.bytes]
  rw [numel_of_bytes hx.bytes] at hy ⊢
  rw [hy, ok_bind, hmu, ok_bind, hvar, ok_bind]

theorem batchNorm2dBackward_fresh {mu var : Tensor α} (h0 : 0 ∉ [n, c, h, w])
    (hg : Fresh g .f32 [n, c, h, w] u) (hx : Fresh x .f32 [n, c, h, w] f)
    (hga : Fresh gamma .f32 [c] ga)
    (hmu : Fresh mu .f32 [c] (channelMean n c h w f))
    (hvar : Fresh var .f32 [c] (channelVariance n c h w f)) :
    ∃ dx dga dbe, batchNorm2dBackward sqrt g x gamma mu var eps = .ok (dx, dga, dbe) ∧
      Fresh dx .f32 [n, c, h, w]
        (fun l => inputGradValue sqrt eps n c h w f ga u (coordsOf [n, c, h, w] l)) ∧
      Fresh dga .f32 [c] (channelProduct sqrt eps n c h w f u) ∧
      Fresh dbe .f32 [c] (channelSum n c h w u) := by
  have hfit := prod_lt_of_bytes hx.bytes
  have hc : 0 < c := Nat.pos_of_ne_zero fun hc => h0 (by simp [hc])
  have hcbytes := channel_bytes h0 hx.bytes
  have hcprod : [c].prod = c := prod_singleton
  obtain ⟨dx, hdx, hdxfresh⟩ := @fromVecOrOom_fresh α .f32 [n, c, h, w]
    (fun l => inputGradValue sqrt eps n c h w f ga u (coordsOf [n, c, h, w] l))
    (numel [n, c, h, w]) hx.bytes
  obtain ⟨dga, hdga, hdgafresh⟩ := @fromVecOrOom_fresh α .f32 [c]
    (channelProduct sqrt eps n c h w f u) c hcbytes
  obtain ⟨dbe, hdbe, hdbefresh⟩ := @fromVecOrOom_fresh α .f32 [c]
    (channelSum n c h w u) c hcbytes
  rw [hcprod] at hcbytes hdga hdbe
  have hgaSlice := hga.asSlice
  have hmuSlice := hmu.asSlice
  have hvarSlice := hvar.asSlice
  rw [hcprod] at hgaSlice hmuSlice hvarSlice
  refine ⟨dx, dga, dbe, ?_, hdxfresh, hdgafresh, hdbefresh⟩
  rw [batchNorm2dBackward]
  simp only [hx.shape, axisSize, getElem?_cons_zero, getElem?_cons_succ,
    expect_some, ok_bind, sliceExpect, hx.asSlice, hg.asSlice, hgaSlice, hmuSlice,
    hvarSlice, unwrap_ok, filled_ok hcbytes, cells_eq hc hfit, channelSums_eq hfit]
  rw [numel_of_bytes hx.bytes, filled_ok hx.bytes, ok_bind, inputGrad_eq hfit,
    expect_some, ok_bind, map_indices]
  rw [numel_of_bytes hx.bytes] at hdx
  rw [hdx, ok_bind, hdga, ok_bind, hdbe, ok_bind]

end Values

/-! ## Tangents against gradients -/

section Vjp

open DualNumbers TrivSqZeroExt Sweep

variable {F : Type} [Field F] {sqrt : F → F} {eps : F}

theorem inputGradValue_eq {n c h w k : Nat} {f ga u : Nat → F} (p : Nat × Nat × Nat) :
    inputGradValue sqrt eps n c h w f ga u [p.1, k, p.2.1, p.2.2] =
      ga k * movement (invStd sqrt eps (channelCells n h w) (onChannel n c h w f k))
        (standardized sqrt eps (channelCells n h w) (onChannel n c h w f k)) (channelCells n h w)
        (onChannel n c h w u k) p := by
  obtain ⟨ni, hi, wi⟩ := p
  rw [inputGradValue, movement]
  ring

theorem family_vjp [CharZero F] {ι : Type} {s : Finset ι} {x : ι → DualNumber F} {g : ι → F}
    (ga be : DualNumber F) (hcard : (s.card : F) ≠ 0)
    (hsqrt : sqrt ((variance s fun i => (x i).fst) + eps) ≠ 0) :
    (∑ i ∈ s, inl (g i) * (standardized (liftSqrt sqrt) (inl eps) s x i * ga + be)).snd =
      ∑ i ∈ s, ga.fst * movement (invStd sqrt eps s fun i => (x i).fst)
          (standardized sqrt eps s fun i => (x i).fst) s g i * (x i).snd +
        (∑ i ∈ s, g i * standardized sqrt eps s (fun i => (x i).fst) i) * ga.snd +
        (∑ i ∈ s, g i) * be.snd := by
  set r := invStd sqrt eps s fun i => (x i).fst with hr
  set z := standardized sqrt eps s fun i => (x i).fst with hz
  have hterm : ∀ i, (inl (g i) * (standardized (liftSqrt sqrt) (inl eps) s x i * ga + be)).snd =
      ga.fst * (g i * movement r z s (fun i => (x i).snd) i) + g i * z i * ga.snd +
        g i * be.snd := by
    intro i
    rw [snd_inl_mul, snd_add, DualNumber.snd_mul, fst_standardized, snd_standardized hcard hsqrt,
      ← hr, ← hz]
    ring
  have hadjoint : ∑ i ∈ s, ga.fst * (g i * movement r z s (fun i => (x i).snd) i) =
      ∑ i ∈ s, ga.fst * movement r z s g i * (x i).snd := by
    rw [← mul_sum, sum_movement_mul, mul_sum]
    exact sum_congr rfl fun i _ => (mul_assoc _ _ _).symm
  rw [snd_sum, sum_congr rfl fun i _ => hterm i, sum_add_distrib,
    sum_add_distrib, hadjoint, sum_mul, sum_mul]

/-- The kernels run, and the output's movement against the upstream gradient is that of the three
operands against their gradients. -/
def BatchNormVjp (sqrt : F → F) (eps : F) (x gamma beta : Tensor (DualNumber F)) (g : Tensor F) :
    Prop :=
  ∃ y mu var yDual muDual varDual dx dga dbe total a b d,
    batchNorm2dForward sqrt (realPart x) (realPart gamma) (realPart beta) eps =
        .ok (y, mu, var) ∧
      batchNorm2dForward (liftSqrt sqrt) x gamma beta (inl eps) = .ok (yDual, muDual, varDual) ∧
      batchNorm2dBackward sqrt g (realPart x) (realPart gamma) mu var eps = .ok (dx, dga, dbe) ∧
      innerProduct (constant g) yDual = some total ∧
      innerProduct dx (tangentPart x) = some a ∧ innerProduct dga (tangentPart gamma) = some b ∧
      innerProduct dbe (tangentPart beta) = some d ∧ total.snd = a + b + d

variable {n c h w : Nat} {x gamma beta : Tensor (DualNumber F)} {g : Tensor F}
  {f ga be : Nat → DualNumber F} {u : Nat → F}

theorem batchNormVjp_fresh [CharZero F] (h0 : 0 ∉ [n, c, h, w]) (hx : Fresh x .f32 [n, c, h, w] f)
    (hga : Fresh gamma .f32 [c] ga) (hbe : Fresh beta .f32 [c] be)
    (hg : Fresh g .f32 [n, c, h, w] u)
    (hsqrt : ∀ k < c, sqrt (variance (channelCells n h w)
      (fun p => (onChannel n c h w f k p).fst) + eps) ≠ 0) :
    BatchNormVjp sqrt eps x gamma beta g := by
  obtain ⟨y, mu, var, hrun, _, hmu, hvar⟩ := @batchNorm2dForward_fresh F _ n c h w _ sqrt eps _ _ _
    _ _ _ h0 (hx.map fst) (hga.map fst) (hbe.map fst)
  obtain ⟨yDual, muDual, varDual, hrunDual, hyDual, _, _⟩ :=
    @batchNorm2dForward_fresh (DualNumber F) _ n c h w _ (liftSqrt sqrt) (inl eps) _ _ _ _ _ _ h0
      hx hga hbe
  obtain ⟨dx, dga, dbe, hback, hdx, hdga, hdbe⟩ := @batchNorm2dBackward_fresh F _ n c h w _ sqrt
    eps _ _ _ _ _ _ _ _ h0 hg (hx.map fst) (hga.map fst) hmu hvar
  refine ⟨y, mu, var, yDual, muDual, varDual, dx, dga, dbe, _, _, _, _, hrun, hrunDual, hback,
    innerProduct_right (hg.map inl).holds hyDual.holds,
    innerProduct_left hdx.holds (hx.map snd).holds,
    innerProduct_holds hdga.holds (hga.map snd).holds,
    innerProduct_holds hdbe.holds (hbe.map snd).holds, ?_⟩
  have hcard : ((channelCells n h w).card : F) ≠ 0 := by
    rw [card_channelCells, Nat.cast_ne_zero]
    simp only [List.mem_cons, not_mem_nil, or_false, not_or] at h0
    exact Nat.mul_ne_zero (Ne.symm h0.1) (Nat.mul_ne_zero (Ne.symm h0.2.2.1) (Ne.symm h0.2.2.2))
  rw [sum_channels, sum_channels, snd_sum, List.prod_singleton, ← Finset.sum_add_distrib,
    ← Finset.sum_add_distrib]
  refine Finset.sum_congr rfl fun k hk => ?_
  have hfamily := @family_vjp F _ sqrt eps _ _ (channelCells n h w) (onChannel n c h w f k)
    (onChannel n c h w u k) (ga k) (be k) hcard (hsqrt k (Finset.mem_range.1 hk))
  refine hfamily.trans ?_
  congr 2
  refine Finset.sum_congr rfl fun p _ => ?_
  rw [inputGradValue_eq]
  rfl

/-- The kernels take their operands as slices. -/
theorem sliced_of_vjp (hshape : x.shape = [n, c, h, w])
    (hvjp : BatchNormVjp sqrt eps x gamma beta g) :
    Sliced x ∧ Sliced gamma ∧ Sliced beta ∧ Sliced g := by
  obtain ⟨y, mu, var, yDual, muDual, varDual, dx, dga, dbe, _, _, _, _, _, hrun, hback, _⟩ := hvjp
  have hshape' : (realPart x).shape = [n, c, h, w] := hshape
  unfold batchNorm2dForward at hrun
  split_ifs at hrun
  simp only [hshape, axisSize, getElem?_cons_zero, getElem?_cons_succ, expect_some, ok_bind] at hrun
  obtain ⟨xs, hxs, hrun⟩ := bind_eq_ok.1 hrun
  obtain ⟨gas, hgas, hrun⟩ := bind_eq_ok.1 hrun
  obtain ⟨bes, hbes, _⟩ := bind_eq_ok.1 hrun
  simp only [batchNorm2dBackward, hshape', axisSize, getElem?_cons_zero,
    getElem?_cons_succ, expect_some, ok_bind] at hback
  obtain ⟨gs, hgs, _⟩ := bind_eq_ok.1 hback
  exact ⟨sliced_of_sliceExpect hxs, sliced_of_sliceExpect hgas, sliced_of_sliceExpect hbes,
    sliced_of_sliceExpect hgs⟩

/-- The gradients are the vector-Jacobian products exactly on contiguous `f32` tensors that start
at their buffers: elsewhere the kernels panic, or refuse another dtype. -/
theorem batchNorm2d_vjp_iff [LinearOrder F] [IsStrictOrderedRing F] {Tx Tga Tbe Tg : Dtype}
    (hsqrt : SquareRoots sqrt) (h0 : 0 ∉ [n, c, h, w]) (hx : Holds x Tx [n, c, h, w] f)
    (hga : Holds gamma Tga [c] ga) (hbe : Holds beta Tbe [c] be) (hg : Holds g Tg [n, c, h, w] u)
    (hvar : ∀ k < c, 0 < variance (channelCells n h w)
      (fun p => (onChannel n c h w f k p).fst) + eps) :
    BatchNormVjp sqrt eps x gamma beta g ↔ Sliced x ∧ Sliced gamma ∧ Sliced beta ∧ Sliced g := by
  constructor
  · exact sliced_of_vjp hx.shape
  · rintro ⟨hxs, hgas, hbes, hgs⟩
    refine batchNormVjp_fresh h0 (hxs.fresh hx) (hgas.fresh hga) (hbes.fresh hbe) (hgs.fresh hg) ?_
    intro k hk hzero
    have hsq := (hsqrt _ (hvar k hk).le).2
    rw [hzero, mul_zero] at hsq
    exact (hvar k hk).ne hsq

end Vjp

/-! ## Images -/

section Images

open DualNumbers TrivSqZeroExt Sweep

/-- The second of two images of one cell. -/
noncomputable def secondImage : Tensor (DualNumber ℝ) where
  storage := [0, dual 1 1]
  layout := Layout.ofAxes [⟨1, 1⟩, ⟨1, 1⟩, ⟨1, 1⟩, ⟨1, 1⟩] 1 one_lt_u64Size .f32

/-- Two images with two channels of one row of two different values, all of them moving. -/
theorem batchNorm2d_vjp_images :
    BatchNormVjp Real.sqrt (1 / 100000) (tabulated [2, 2, 1, 2] .f32 fun i => dual (i * i) (i + 1))
      (tabulated [2] .f32 fun i => dual (i + 2) 1) (tabulated [2] .f32 fun i => dual i 3)
      (tabulated [2, 2, 1, 2] .f32 fun i => 3 - i) := by
  refine (batchNorm2d_vjp_iff squareRoots_real (by decide) (fresh_contiguous (by decide)).holds
    (fresh_contiguous (by decide)).holds (fresh_contiguous (by decide)).holds
    (fresh_contiguous (by decide)).holds ?_).2
    ⟨⟨rfl, rfl, rfl⟩, ⟨rfl, rfl, rfl⟩, ⟨rfl, rfl, rfl⟩, ⟨rfl, rfl, rfl⟩⟩
  intro k _
  exact add_pos_of_nonneg_of_pos (variance_nonneg _ _) (by norm_num)

/-- The kernel panics on the contiguous second image. -/
theorem batchNorm2d_second_fails :
    Reachable secondImage ∧ secondImage.shape = [1, 1, 1, 1] ∧
      secondImage.layout.isContiguous = true ∧
      ¬ BatchNormVjp Real.sqrt 1 secondImage (tabulated [1] .f32 fun _ => dual 2 1)
        (tabulated [1] .f32 fun _ => dual 0 1) (tabulated [1, 1, 1, 1] .f32 fun _ => 3) := by
  refine ⟨?_, rfl, rfl, ?_⟩
  · exact @Reachable.view _ _ secondImage (.narrow 0 1 1)
      (@Reachable.fromVecTyped _ .f32 [2, 1, 1, 1] [0, dual 1 1] _ (by decide) (by decide) rfl)
      trivial rfl
  · intro hvjp
    have hoff : secondImage.layout.storageOffset = 0 :=
      (@sliced_of_vjp ℝ _ _ _ 1 1 1 1 _ _ _ _ rfl hvjp).1.2.2
    exact absurd hoff (by decide)

end Images

end Cpu
end Rustorch
