import Rustorch.Fusion.MatmulBiasAct
import Rustorch.Nn.Modes

/-!
# The linear layer

`Linear::forward` multiplies the rows of its input by the weight and adds the bias.  Without
gradients it calls the fused kernel on the slices of its operands; with gradients it composes
`matmul` and `add_bias`, between two reshapes where the input has more than two axes.
-/

namespace Rustorch
namespace Nn

open Rustorch.Core Cpu List Outcome
open Autograd (BackwardError debugTensorError)
open Fusion (Activation Elementary biasAt fusedMatmulBiasActivation)

structure Linear (F : Type) where
  weight : Tensor F
  bias : Option (Tensor F)
  inFeatures : Nat
  outFeatures : Nat

namespace Linear

section Model

variable {F : Type} [Field F] [LinearOrder F]

/-- What `try_fused_linear_act` checks before it takes the slices. -/
def fusable (l : Linear F) (input : Tensor F) : Bool :=
  decide (2 ≤ input.shape.length) && decide (input.layout.dtype = .f32) &&
    decide (l.weight.layout.dtype = .f32) && input.layout.isContiguous &&
      l.weight.layout.isContiguous &&
        l.bias.all fun b => decide (b.layout.dtype = .f32) && b.layout.isContiguous

/-- The slice of the bias, if there is one. -/
def biasRef (l : Linear F) : Outcome BackwardError (Option (List F)) :=
  match l.bias with
  | none => .ok none
  | some b => do
    let slice ← unwrap (b.asSlice .f32)
    pure (some slice)

/-- `try_fused_linear_act`; `none` is the fallback to the composition. -/
def tryFusedLinearAct (gemm : Gemm F) (el : Elementary F) (l : Linear F) (input : Tensor F)
    (activation : Activation) : Outcome BackwardError (Option (Tensor F)) :=
  if l.fusable input then do
    let m := numel input.shape.dropLast
    let k := l.inFeatures
    let n := l.outFeatures
    let xSlice ← unwrap (input.asSlice .f32)
    let wSlice ← unwrap (l.weight.asSlice .f32)
    let biasRef ← l.biasRef
    unwrap (withCapacity .f32 (m * n))
    let y ← mapErr (fun e => .backend "Linear::forward_with_activation(fused)" e.debug)
      (fusedMatmulBiasActivation gemm el xSlice wSlice biasRef (m * n) m k n activation)
    let t ← mapErr
      (fun e => .backend "Linear::forward_with_activation(fused)" (debugTensorError e))
      (ofExcept (fromVecTyped .f32 (input.shape.dropLast ++ [n]) y))
    pure (some t)
  else
    .ok none

/-- The product and the bias of a rank-2 input. -/
def affine (gemm : Gemm F) (l : Linear F) (input : Tensor F) : Outcome BackwardError (Tensor F) := do
  let xw ← Autograd.Ops.matmul gemm input l.weight
  match l.bias with
  | some b => Autograd.Ops.addBias xw b
  | none => pure xw

/-- The composition of autograd operations. -/
def composed (gemm : Gemm F) (l : Linear F) (input : Tensor F) :
    Outcome BackwardError (Tensor F) :=
  if input.shape.length < 2 then
    .err (.backend "Linear::forward" ("input rank must be >= 2, got shape " ++ toString input.shape))
  else do
    let last ← expect input.shape.getLast?
    if last ≠ l.inFeatures then
      .err (.backend "Linear::forward" ("last dim " ++ toString last ++ " != in_features " ++
        toString l.inFeatures))
    else if input.shape.length = 2 then
      l.affine gemm input
    else do
      let leading := numel input.shape.dropLast
      let xFlat ← Autograd.Ops.reshape input [leading, l.inFeatures]
      let yFlat ← l.affine gemm xFlat
      Autograd.Ops.reshape yFlat (input.shape.dropLast ++ [l.outFeatures])

/-- `Linear::forward`. -/
def forward (gemm : Gemm F) (el : Elementary F) (gradEnabled : Bool) (l : Linear F)
    (input : Tensor F) : Outcome BackwardError (Tensor F) := do
  let fused ← if gradEnabled then pure none else l.tryFusedLinearAct gemm el input .none
  match fused with
  | some out => pure out
  | none => l.composed gemm input

end Model

/-! ## The rank-2 product -/

section Affine

variable {F : Type} [Field F] {gemm : Gemm F} {l : Linear F} {x : Tensor F}
  {m k n : Nat} {f g : Nat → F} {h : Option (Nat → F)}

theorem matmul_fresh (hgemm : ExactGemm gemm) (hx : Dense x .f32 [m, k] f)
    (hw : Dense l.weight .f32 [k, n] g) (hbytes : m * n * Dtype.byteSize .f32 < 2 ^ 63) :
    ∃ y, Autograd.Ops.matmul gemm x l.weight = .ok y ∧ Fresh y .f32 [m, n] (product k n f g) := by
  have hbytes' : [m, n].prod * Dtype.byteSize .f32 < 2 ^ 63 := by
    rwa [prod_pair]
  have hrun : Cpu.matmul gemm x l.weight = matmulDispatchF32 gemm x l.weight m k n := by
    rw [Cpu.matmul, if_neg (not_not.2 (hx.dtype.trans hw.dtype.symm)), hx.shape, hw.shape]
    exact if_neg (not_not.2 rfl)
  obtain ⟨y, hy, hfresh⟩ := matmulDispatchF32_dense hgemm hx hw hbytes'
  refine ⟨y, ?_, hfresh⟩
  rw [Autograd.Ops.matmul, hrun, hy]
  rfl

theorem affine_fresh (hgemm : ExactGemm gemm) (hx : Dense x .f32 [m, k] f)
    (hw : Dense l.weight .f32 [k, n] g) (hn : 0 < n)
    (hb : Option.Rel (fun b h => Fresh b .f32 [n] h) l.bias h)
    (hbytes : m * n * Dtype.byteSize .f32 < 2 ^ 63) :
    ∃ y, l.affine gemm x = .ok y ∧
      Fresh y .f32 [m, n] (fun c => product k n f g c + biasAt h (c % n)) := by
  obtain ⟨xw, hxw, hxwf⟩ := matmul_fresh hgemm hx hw hbytes
  rw [affine, hxw, ok_bind]
  generalize l.bias = bias at hb
  cases hb with
  | none =>
    refine ⟨xw, rfl, hxwf.toDense.of_eq ?_, hxwf.offset⟩
    intro c _
    simp [biasAt]
  | some hbias =>
    obtain ⟨y, hy, hfresh⟩ := addBias_fresh hxwf hbias hn
    refine ⟨y, ?_, hfresh⟩
    simp only [Autograd.Ops.addBias, hxwf.shape, hbias.shape, ne_eq, not_true_eq_false, if_false, hy]
    rfl

/-- Too large an output is not returned. -/
theorem affine_bytes (hx : Dense x .f32 [m, k] f) (hw : Dense l.weight .f32 [k, n] g) {y : Tensor F} :
    l.affine gemm x = .ok y → m * n * Dtype.byteSize .f32 < 2 ^ 63 := by
  intro hy
  by_contra hbytes
  obtain ⟨xw, hxw, _⟩ := bind_eq_ok.1 hy
  have hrun : Cpu.matmul gemm x l.weight = matmulDispatchF32 gemm x l.weight m k n := by
    rw [Cpu.matmul, if_neg (not_not.2 (hx.dtype.trans hw.dtype.symm)), hx.shape, hw.shape]
    exact if_neg (not_not.2 rfl)
  rw [Autograd.Ops.matmul, hrun, matmulDispatchF32_panic hx hw hbytes] at hxw
  cases hxw

theorem affine_bias {y b : Tensor F} (hb : l.bias = some b) :
    l.affine gemm x = .ok y → b.layout.storageOffset = 0 := by
  intro hy
  obtain ⟨xw, _, hy⟩ := bind_eq_ok.1 hy
  rw [hb] at hy
  simp only [Autograd.Ops.addBias] at hy
  split at hy
  · split at hy
    · cases hy
    · exact addBias_offset (mapErr_eq_ok.1 hy)
  · cases hy

end Affine

/-! ## The two forwards -/

section Forwards

variable {F : Type} [Field F] {gemm : Gemm F} {l : Linear F} {x : Tensor F} {L : Shape}
  {f g : Nat → F} {h : Option (Nat → F)}

variable {k : Nat} {y : Tensor F}

omit [Field F] in
theorem numel_leading (hx : Dense x .f32 (L ++ [k]) f) (hk : 0 < k) : numel L = L.prod := by
  refine numel_of_fits (lt_of_le_of_lt ?_ (prod_lt_of_bytes hx.bytes))
  rw [prod_concat]
  exact Nat.le_mul_of_pos_right _ hk

/-- The composition returns the product and the bias, if the output fits and an input with more than
two axes starts at offset 0. -/
theorem composed_fresh (hgemm : ExactGemm gemm) (hx : Dense x .f32 (L ++ [l.inFeatures]) f)
    (hL : L ≠ []) (hk : 0 < l.inFeatures)
    (hw : Dense l.weight .f32 [l.inFeatures, l.outFeatures] g) (hn : 0 < l.outFeatures)
    (hb : Option.Rel (fun b h => Fresh b .f32 [l.outFeatures] h) l.bias h)
    (hbytes : L.prod * l.outFeatures * Dtype.byteSize .f32 < 2 ^ 63)
    (hflat : x.shape.length = 2 ∨ x.layout.storageOffset = 0) :
    ∃ y, l.composed gemm x = .ok y ∧ Fresh y .f32 (L ++ [l.outFeatures]) (fun c =>
      product l.inFeatures l.outFeatures f g c + biasAt h (c % l.outFeatures)) := by
  have hrank : x.shape.length = L.length + 1 := by
    rw [hx.shape, length_append, length_singleton]
  have hlong : ¬ x.shape.length < 2 := by
    have hpos := length_pos_iff.2 hL
    omega
  have hlast : x.shape.getLast? = some l.inFeatures := by
    rw [hx.shape, getLast?_concat]
  have hfront : x.shape.dropLast = L := by
    rw [hx.shape, dropLast_concat]
  rw [composed, if_neg hlong, hlast]
  simp only [expect_some, ok_bind, ne_eq, not_true_eq_false, if_false, hfront, numel_leading hx hk]
  split
  · next htwo =>
      obtain ⟨m, rfl⟩ := length_eq_one_iff.1 (by omega : L.length = 1)
      rw [prod_singleton] at hbytes
      exact affine_fresh hgemm hx hw hn hb hbytes
  · next htwo =>
      have hoff := hflat.resolve_left htwo
      have hprod : [L.prod, l.inFeatures].prod = (L ++ [l.inFeatures]).prod := by
        rw [prod_pair, prod_concat]
      obtain ⟨xFlat, hxFlat, hxf⟩ := Autograd.Ops.reshape_fresh ⟨hx, hoff⟩ hprod
      obtain ⟨yFlat, hyFlat, hyf⟩ := affine_fresh hgemm hxf.toDense hw hn hb hbytes
      have hback : (L ++ [l.outFeatures]).prod = [L.prod, l.outFeatures].prod := by
        rw [prod_pair, prod_concat]
      obtain ⟨y, hy, hfresh⟩ := Autograd.Ops.reshape_fresh hyf hback
      refine ⟨y, ?_, hfresh⟩
      rw [hxFlat, ok_bind, hyFlat, ok_bind, hy]

theorem composed_ok (hx : Dense x .f32 (L ++ [k]) f) (hk : 0 < k)
    (hw : Dense l.weight .f32 [l.inFeatures, l.outFeatures] g) :
    l.composed gemm x = .ok y → k = l.inFeatures ∧
      L.prod * l.outFeatures * Dtype.byteSize .f32 < 2 ^ 63 ∧
        (∀ b, l.bias = some b → b.layout.storageOffset = 0) ∧
          (x.shape.length = 2 ∨ x.layout.storageOffset = 0) := by
  intro hy
  have hlast : x.shape.getLast? = some k := by
    rw [hx.shape, getLast?_concat]
  have hfront : x.shape.dropLast = L := by
    rw [hx.shape, dropLast_concat]
  by_cases hshort : x.shape.length < 2
  · rw [composed, if_pos hshort] at hy
    cases hy
  rw [composed, if_neg hshort, hlast] at hy
  simp only [expect_some, ok_bind, hfront, numel_leading hx hk] at hy
  split_ifs at hy with hsame htwo
  · have hsame := not_not.1 hsame
    subst hsame
    have hlen : L.length = 1 := by
      rw [hx.shape, length_append, length_singleton] at htwo
      omega
    obtain ⟨m, rfl⟩ := length_eq_one_iff.1 hlen
    refine ⟨rfl, ?_, fun b hb => affine_bias hb hy, Or.inl htwo⟩
    rw [prod_singleton]
    exact affine_bytes hx hw hy
  · have hsame := not_not.1 hsame
    subst hsame
    obtain ⟨xFlat, hxFlat, hy⟩ := bind_eq_ok.1 hy
    obtain ⟨yFlat, hyFlat, _⟩ := bind_eq_ok.1 hy
    have hoff : x.layout.storageOffset = 0 := by
      by_contra hne
      exact Autograd.Ops.reshape_offset hne xFlat hxFlat
    have hprod : [L.prod, l.inFeatures].prod = (L ++ [l.inFeatures]).prod := by
      rw [prod_pair, prod_concat]
    obtain ⟨z, hz, hzf⟩ := Autograd.Ops.reshape_fresh ⟨hx, hoff⟩ hprod
    rw [hz] at hxFlat
    cases hxFlat
    exact ⟨rfl, affine_bytes hzf.toDense hw hyFlat, fun b hb => affine_bias hb hyFlat, Or.inr hoff⟩

variable [LinearOrder F] {el : Elementary F}

/-- The fused kernel returns the product and the bias, if its operands start at offset 0 and the
output fits. -/
theorem fused_fresh (hgemm : ExactGemm gemm) (hx : Fresh x .f32 (L ++ [l.inFeatures]) f)
    (hk : 0 < l.inFeatures) (hfusable : l.fusable x = true)
    (hw : Fresh l.weight .f32 [l.inFeatures, l.outFeatures] g) (hn : 0 < l.outFeatures)
    (hb : Option.Rel (fun b h => Fresh b .f32 [l.outFeatures] h) l.bias h)
    (hbytes : L.prod * l.outFeatures * Dtype.byteSize .f32 < 2 ^ 63) :
    ∃ y, l.forward gemm el false x = .ok y ∧ Fresh y .f32 (L ++ [l.outFeatures]) (fun c =>
      product l.inFeatures l.outFeatures f g c + biasAt h (c % l.outFeatures)) := by
  have hout : (L ++ [l.outFeatures]).prod * Dtype.byteSize .f32 < 2 ^ 63 := by
    rwa [prod_concat]
  obtain ⟨y, hy, hfresh⟩ := @fromVecTyped_fresh F .f32 (L ++ [l.outFeatures])
    (fun c => product l.inFeatures l.outFeatures f g c + biasAt h (c % l.outFeatures)) hout
  refine ⟨y, ?_, hfresh⟩
  have hfront : x.shape.dropLast = L := by
    rw [hx.shape, dropLast_concat]
  have hxs := hx.asSlice
  have hws := hw.asSlice
  rw [prod_concat] at hxs hy
  rw [prod_pair] at hws
  have hbs : l.biasRef = .ok (h.map fun h => (range l.outFeatures).map h) := by
    rw [biasRef]
    generalize l.bias = bias at hb
    cases hb with
    | none => rfl
    | some hbias =>
      have hslice := hbias.asSlice
      rw [prod_singleton] at hslice
      simp only [hslice]
      rfl
  have hcap : (unwrap (withCapacity .f32 (L.prod * l.outFeatures)) :
      Outcome BackwardError Unit) = .ok () := by
    rw [withCapacity_ok hbytes]
    rfl
  have hkernel := @Fusion.fusedMatmulBiasActivation_eq F _ _ L.prod l.inFeatures l.outFeatures f g h
    el .none gemm hgemm hn
  have hfused : l.tryFusedLinearAct gemm el x .none = .ok (some y) := by
    rw [tryFusedLinearAct, if_pos hfusable]
    simp only [hfront, numel_leading hx.toDense hk, hxs, hws, hbs, hcap, hkernel, unwrap_ok,
      ok_bind, mapErr, Activation.apply, hy, ofExcept_ok]
    rfl
  rw [forward, if_neg Bool.false_ne_true, hfused]
  rfl

theorem fused_ok (hx : Dense x .f32 (L ++ [k]) f) (h0 : 0 ∉ L ++ [k])
    (hfusable : l.fusable x = true) : l.forward gemm el false x = .ok y → k = l.inFeatures ∧
      L.prod * l.outFeatures * Dtype.byteSize .f32 < 2 ^ 63 ∧ x.layout.storageOffset = 0 ∧
        l.weight.layout.storageOffset = 0 ∧ ∀ b, l.bias = some b → b.layout.storageOffset = 0 := by
  intro hy
  rw [mem_append, mem_singleton, not_or] at h0
  have hk : 0 < k := Nat.pos_of_ne_zero fun hz => h0.2 hz.symm
  have hL : 0 < L.prod := prod_pos fun d hd => Nat.pos_of_ne_zero fun hz => h0.1 (hz ▸ hd)
  have hfront : x.shape.dropLast = L := by
    rw [hx.shape, dropLast_concat]
  obtain ⟨fused, hfused, _⟩ := bind_eq_ok.1 hy
  rw [tryFusedLinearAct, if_pos hfusable] at hfused
  simp only [hfront, numel_leading hx hk] at hfused
  obtain ⟨xs, hxs, hfused⟩ := bind_eq_ok.1 hfused
  obtain ⟨ws, hws, hfused⟩ := bind_eq_ok.1 hfused
  obtain ⟨bs, hbs, hfused⟩ := bind_eq_ok.1 hfused
  obtain ⟨_, hcap, hfused⟩ := bind_eq_ok.1 hfused
  obtain ⟨out, hkernel, _⟩ := bind_eq_ok.1 hfused
  have hoff := offset_of_slice hxs
  refine ⟨?_, ?_, hoff, offset_of_slice hws, ?_⟩
  · -- The kernel compares the length of the slice with the size for `in_features`.
    have hlen := Fusion.length_of_fused (mapErr_eq_ok.1 hkernel)
    rw [(Fresh.mk hx hoff).asSlice] at hxs
    cases hxs
    rw [length_map, length_range, prod_concat] at hlen
    exact Nat.eq_of_mul_eq_mul_left hL hlen
  · by_contra hbytes
    rw [withCapacity, if_neg hbytes] at hcap
    cases hcap
  · intro b hb
    rw [biasRef, hb] at hbs
    obtain ⟨slice, hslice, _⟩ := bind_eq_ok.1 hbs
    exact offset_of_slice hslice

end Forwards

/-! ## The two modes -/

section Modes

variable {F : Type} [Field F] {gemm : Gemm F} {el : Elementary F} {l : Linear F}
  {x : Tensor F}

structure Operands (l : Linear F) (x : Tensor F) : Prop where
  input : Contiguous x .f32
  rank : 2 ≤ x.shape.length
  nonempty : 0 ∉ x.shape
  weight : Contiguous l.weight .f32
  weightShape : l.weight.shape = [l.inFeatures, l.outFeatures]
  bias : ∀ b, l.bias = some b → ChannelParam b l.outFeatures
  positive : 0 < l.outFeatures

/-- The composition returns: the input has the features of the layer, the output fits into a vector,
the bias starts at offset 0, and so does an input that is reshaped. -/
def Composes (l : Linear F) (x : Tensor F) : Prop :=
  x.shape.getLast? = some l.inFeatures ∧
    x.shape.dropLast.prod * l.outFeatures * Dtype.byteSize .f32 < 2 ^ 63 ∧
      (∀ b, l.bias = some b → b.layout.storageOffset = 0) ∧
        (x.shape.length = 2 ∨ x.layout.storageOffset = 0)

/-- Where the composition returns, the input and the weight start at offset 0. -/
def Condition (l : Linear F) (x : Tensor F) : Prop :=
  l.Composes x → x.layout.storageOffset = 0 ∧ l.weight.layout.storageOffset = 0

omit [Field F] in
theorem Operands.fusable (h : l.Operands x) : l.fusable x = true := by
  have hbias : (l.bias.all fun b => decide (b.layout.dtype = .f32) && b.layout.isContiguous) =
      true := by
    rw [Option.all_eq_true]
    intro b hb
    simp [(h.bias b hb).dtype, (h.bias b hb).flag]
  simp [Linear.fusable, h.rank, h.input.dtype, h.input.flag, h.weight.dtype, h.weight.flag, hbias]

theorem Operands.biasFresh (h : l.Operands x)
    (hoff : ∀ b, l.bias = some b → b.layout.storageOffset = 0) :
    ∃ v, Option.Rel (fun b v => Fresh b .f32 [l.outFeatures] v) l.bias v := by
  let _ : Inhabited F := ⟨0⟩
  cases hb : l.bias with
  | none => exact ⟨none, .none⟩
  | some b =>
    obtain ⟨v, hv⟩ := (h.bias b hb).dense
    exact ⟨some v, .some ⟨hv, hoff b hb⟩⟩

variable [LinearOrder F]

/-- The modes of the layer agree exactly if the fused kernel gets its slices wherever the
composition returns. -/
theorem agrees_iff (hgemm : ExactGemm gemm) (h : l.Operands x) :
    Agrees (l.forward gemm el false x) (l.forward gemm el true x) ↔ l.Condition x := by
  let _ : Inhabited F := ⟨0⟩
  have htrain : l.forward gemm el true x = l.composed gemm x := rfl
  have hne : x.shape ≠ [] := ne_nil_of_length_pos (lt_of_lt_of_le Nat.zero_lt_two h.rank)
  obtain ⟨L, f, hf, hk, hL⟩ :=
    dense_of_last h.input h.nonempty (getLast?_eq_some_getLast hne)
  generalize x.shape.getLast hne = k at hf hk
  obtain ⟨g, hg⟩ := h.weight.dense
  rw [h.weightShape] at hg
  have h0 : 0 ∉ L ++ [k] := hf.shape ▸ h.nonempty
  rw [htrain, Condition, Composes, hf.shape, getLast?_concat, dropLast_concat]
  by_cases hcomposes : some k = some l.inFeatures ∧
      L.prod * l.outFeatures * Dtype.byteSize .f32 < 2 ^ 63 ∧
        (∀ b, l.bias = some b → b.layout.storageOffset = 0) ∧
          ((L ++ [k]).length = 2 ∨ x.layout.storageOffset = 0)
  · rw [imp_iff_right hcomposes]
    obtain ⟨hin, hbytes, hbias, hflat⟩ := hcomposes
    cases hin
    obtain ⟨v, hv⟩ := h.biasFresh hbias
    have hLne : L ≠ [] := by
      rintro rfl
      have hrank := h.rank
      rw [hf.shape] at hrank
      simp at hrank
    have hcomposed := composed_fresh hgemm hf hLne hk hg h.positive hv hbytes (by rwa [hf.shape])
    refine Agrees.iff_of_fresh hcomposed ?_ ?_
    · rintro ⟨hoff, hwoff⟩
      exact fused_fresh hgemm ⟨hf, hoff⟩ hk h.fusable ⟨hg, hwoff⟩ h.positive hv hbytes
    · intro y hy
      obtain ⟨_, _, hoff, hwoff, _⟩ := fused_ok hf h0 h.fusable hy
      exact ⟨hoff, hwoff⟩
  · -- Neither mode returns.
    refine ⟨fun _ hc => absurd hc hcomposes, fun _ => Agrees.of_not_ok ?_ ?_⟩
    · intro y hy
      obtain ⟨hin, hbytes, hoff, _, hbias⟩ := fused_ok hf h0 h.fusable hy
      exact hcomposes ⟨congrArg some hin, hbytes, hbias, Or.inr hoff⟩
    · intro y hy
      obtain ⟨hin, hbytes, hbias, hflat⟩ := composed_ok hf hk hg hy
      rw [hf.shape] at hflat
      exact hcomposes ⟨congrArg some hin, hbytes, hbias, hflat⟩

end Modes

end Linear

end Nn
end Rustorch
