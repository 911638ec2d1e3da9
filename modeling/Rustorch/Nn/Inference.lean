import Rustorch.Nn.Embedding
import Rustorch.Nn.Linear
import Rustorch.Nn.Norm

/-!
# Inference and training modes

The layers with a fused path compute without gradients what they compute with gradients, as long as
the fused path gets its slices.  It checks that its operands are contiguous, and then expects their
slices; a contiguous view that does not start at offset 0 has none (`modes_agree_iff`).
-/

namespace Rustorch
namespace Nn

open Rustorch.Core Cpu List Layout
open Fusion (Elementary)

/-- Each layer computes the same in both modes exactly under its condition. -/
theorem modes_agree_iff {F : Type} [Field F] [LinearOrder F] [IsStrictOrderedRing F]
    {gemm : Gemm F} (hgemm : ExactGemm gemm) (el : Elementary F) (sqrtF : F → F) (arch : Arch) :
    (∀ (l : Linear F) (x : Tensor F), l.Operands x →
      (Agrees (l.forward gemm el false x) (l.forward gemm el true x) ↔ l.Condition x)) ∧
    (∀ (l : LayerNorm F) (x : Tensor F), l.Operands x →
      (Agrees (l.forward arch sqrtF false x) (l.forward arch sqrtF true x) ↔ l.Condition x)) ∧
    (∀ (l : RMSNorm F) (x : Tensor F), l.Operands x →
      (Agrees (l.forward arch sqrtF false x) (l.forward arch sqrtF true x) ↔ l.Condition x)) ∧
    ∀ (l : Embedding F) (idx : Tensor Int), l.Operands idx →
      (Agrees (l.forwardIndices false idx) (l.forwardIndices true idx) ↔ l.Condition idx) := by
  let _ : Inhabited F := ⟨0⟩
  refine ⟨?_, ?_, ?_, ?_⟩
  · intro l x h
    exact Linear.agrees_iff hgemm h
  · intro l x h
    exact LayerNorm.agrees_iff h
  · intro l x h
    exact RMSNorm.agrees_iff h
  · intro l idx h
    exact Embedding.agrees_iff h

/-! ## Rows -/

/-- The second of two rows. -/
def secondRow : Tensor ℚ where
  storage := [5, 7]
  layout := ofAxes [⟨1, 1⟩, ⟨1, 1⟩] 1 one_lt_u64Size .f32

/-- A layer of one channel. -/
def oneChannel : LayerNorm ℚ where
  gamma := { storage := [2], layout := contiguous [1] .f32 }
  beta := { storage := [3], layout := contiguous [1] .f32 }
  eps := 1
  normalizedSize := 1

theorem secondRow_contiguous : Contiguous secondRow .f32 :=
  ⟨@Reachable.view ℚ _ secondRow (.narrow 0 1 1)
    (@Reachable.fromVecTyped ℚ .f32 [2, 1] [5, 7] _ (by decide) (by decide) rfl) trivial rfl,
    rfl, rfl⟩

theorem oneChannel_param (v : ℚ) :
    ChannelParam { storage := [v], layout := contiguous [1] .f32 : Tensor ℚ } 1 := by
  have hbytes : [v].length * Dtype.byteSize .f32 < 2 ^ 63 := by
    rw [length_singleton]
    decide
  exact ⟨⟨@Reachable.fromVecTyped ℚ .f32 [1] [v] _ (by decide) hbytes rfl, rfl, rfl⟩, rfl⟩

theorem oneChannel_operands {x : Tensor ℚ} (hx : Contiguous x .f32) (h0 : 0 ∉ x.shape) :
    oneChannel.Operands x :=
  ⟨hx, h0, oneChannel_param 2, oneChannel_param 3⟩

/-- A routine that computes the exact product. -/
def exactGemm : Gemm ℚ := fun m k n x w =>
  (range (m * n)).map (product k n (fun i => x.getD i 0) (fun i => w.getD i 0))

theorem exactGemm_exact : ExactGemm exactGemm := by
  intro m k n f g
  refine map_congr_left ?_
  intro l hl
  have hl := mem_range.1 hl
  have hrow : l / n < m := Nat.div_lt_of_lt_mul (by rwa [Nat.mul_comm])
  have hcol : l % n < n := Nat.mod_lt _ (Nat.pos_of_mul_pos_left (Nat.zero_lt_of_lt hl))
  refine Finset.sum_congr rfl ?_
  intro kk hkk
  have hkk := Finset.mem_range.1 hkk
  have hx : l / n * k + kk < m * k := Rows.cell_lt hrow hkk
  have hw : kk * n + l % n < k * n := Rows.cell_lt hkk hcol
  simp [hx, hw]

/-- Two rows of three features. -/
def twoRows : Tensor ℚ :=
  tabulated [2, 3] .f32 fun i => (i : ℚ) * i

/-- One value for each of some channels. -/
def channels (size : Nat) (v : ℚ) : Tensor ℚ :=
  tabulated [size] .f32 fun i => v - i

def threeToTwo : Linear ℚ where
  weight := tabulated [3, 2] .f32 fun i => (i : ℚ) - 2
  bias := some (channels 2 1)
  inFeatures := 3
  outFeatures := 2

def threeWords : Embedding ℚ where
  weight := tabulated [4, 3] .f32 fun i => (i : ℚ)
  vocabSize := 4
  embedDim := 3

/-- Indices in another order than the rows. -/
def words : Tensor Int :=
  tabulated [3] .i64 fun i => 3 - i

/-- Each layer on several rows and features. -/
theorem modes_agree_rows :
    let norm : LayerNorm ℚ := ⟨channels 3 2, channels 3 5, 1, 3⟩
    let rms : RMSNorm ℚ := ⟨channels 3 2, 1, 3⟩
    Agrees (threeToTwo.forward exactGemm ⟨id, id, id, 0⟩ false twoRows)
        (threeToTwo.forward exactGemm ⟨id, id, id, 0⟩ true twoRows) ∧
      Agrees (norm.forward .aarch64 id false twoRows) (norm.forward .aarch64 id true twoRows) ∧
      Agrees (rms.forward .aarch64 id false twoRows) (rms.forward .aarch64 id true twoRows) ∧
      Agrees (threeWords.forwardIndices false words) (threeWords.forwardIndices true words) := by
  have hall := modes_agree_iff exactGemm_exact ⟨id, id, id, 0⟩ id .aarch64
  have hrows : Contiguous twoRows .f32 := ⟨reachable_tabulated (by decide), rfl, rfl⟩
  have hchannels : ∀ v, ChannelParam (channels 3 v) 3 := fun v =>
    ⟨⟨reachable_tabulated (by decide), rfl, rfl⟩, rfl⟩
  refine ⟨(hall.1 _ _ ⟨hrows, by decide, by decide, ⟨reachable_tabulated (by decide), rfl, rfl⟩, rfl,
      ?_, by decide⟩).2 fun _ => ⟨rfl, rfl⟩,
    (hall.2.1 _ _ ⟨hrows, by decide, hchannels _, hchannels _⟩).2 fun _ => ⟨rfl, rfl, rfl⟩,
    (hall.2.2.1 _ _ ⟨hrows, by decide, hchannels _⟩).2 fun _ => ⟨rfl, rfl⟩,
    (hall.2.2.2 _ _ ⟨⟨reachable_tabulated (by decide), rfl, rfl⟩, rfl, by decide,
      ⟨reachable_tabulated (by decide), rfl, rfl⟩⟩).2 fun _ _ => ⟨rfl, rfl, by decide⟩⟩
  intro b hb
  cases hb
  exact ⟨⟨reachable_tabulated (by decide), rfl, rfl⟩, rfl⟩

/-- The contiguous second row is normalized with gradients only. -/
theorem layerNorm_secondRow_fails :
    oneChannel.Operands secondRow ∧
      oneChannel.forward .other id false secondRow = .panic ∧
        (∃ y, oneChannel.forward .other id true secondRow = .ok y) ∧
          ¬ Agrees (oneChannel.forward .other id false secondRow)
            (oneChannel.forward .other id true secondRow) := by
  have hoperands := oneChannel_operands secondRow_contiguous (by decide)
  have hpanic : oneChannel.forward .other id false secondRow = .panic := rfl
  obtain ⟨L, f, hf, hD, hL⟩ := dense_of_last secondRow_contiguous (by decide) rfl
  obtain ⟨g, hg⟩ := (oneChannel_param 2).dense
  obtain ⟨b, hb⟩ := (oneChannel_param 3).dense
  obtain ⟨y, hy, _⟩ := @LayerNorm.composed_fresh ℚ _ id secondRow L 1 f g b oneChannel hf hg hb hD hL
  have htrain : oneChannel.forward .other id true secondRow = .ok y := hy
  refine ⟨hoperands, hpanic, ⟨y, htrain⟩, ?_⟩
  intro hagrees
  obtain ⟨z, hz⟩ := hagrees.1.2 ⟨y, htrain⟩
  cases hz

end Nn
end Rustorch
