import Rustorch.Nn.Modes

/-!
# The embedding layer

`forward_indices` looks up the rows of the weight.  Without gradients it copies them from the slice
of the weight; with gradients it calls `index_select`, which reads any layout.
-/

namespace Rustorch
namespace Nn

open Rustorch.Core Cpu List Outcome Rows
open Autograd (BackwardError debugTensorError)

structure Embedding (F : Type) where
  weight : Tensor F
  vocabSize : Nat
  embedDim : Nat

namespace Embedding

section Model

variable {F : Type}

/-- The row that turn `i` of the loop copies into an output of `outLen` cells. -/
def lookupRow (wSlice : List F) (outLen vocab embedDim : Nat) (rawIdx : Int) (i : Nat) :
    Outcome BackwardError (List F) :=
  if rawIdx < 0 ∨ vocab ≤ rawIdx.toNat then
    .err (.backend "Embedding::forward_indices(fast)" ("index " ++ toString rawIdx ++
      " out of vocab [0, " ++ toString vocab ++ ")"))
  else if (i + 1) * embedDim ≤ outLen ∧ (rawIdx.toNat + 1) * embedDim ≤ wSlice.length then
    .ok (row embedDim rawIdx.toNat wSlice)
  else
    .panic

/-- `embedding_lookup_f32_dense`.  The rows fill the output from the front. -/
def embeddingLookupF32Dense (weight : Tensor F) (embedDim : Nat) (indices : Tensor Int) :
    Outcome BackwardError (Tensor F) := do
  let n := indices.numel
  let vocab ← expect weight.shape[0]?
  let wSlice ← unwrap (weight.asSlice .f32)
  let idxSlice ← unwrap (indices.asSlice .i64)
  let outLen := n * embedDim % u64Size
  unwrap (withCapacity .f32 outLen)
  let rows ← idxSlice.zipIdx.mapM fun (rawIdx, i) => lookupRow wSlice outLen vocab embedDim rawIdx i
  mapErr
    (fun e => .backend "Embedding::forward_indices(fast)" (debugTensorError e))
    (ofExcept (fromVecTyped .f32 [n, embedDim] rows.flatten))

/-- What the direct lookup needs. -/
def Direct (l : Embedding F) (indices : Tensor Int) : Prop :=
  l.weight.layout.dtype = .f32 ∧ l.weight.layout.isContiguous = true ∧
    indices.layout.dtype = .i64 ∧ indices.layout.isContiguous = true ∧ indices.shape.length = 1

instance (l : Embedding F) (indices : Tensor Int) : Decidable (l.Direct indices) := by
  unfold Direct
  infer_instance

/-- `Embedding::forward_indices`. -/
def forwardIndices (gradEnabled : Bool) (l : Embedding F) (indices : Tensor Int) :
    Outcome BackwardError (Tensor F) :=
  if gradEnabled = false ∧ l.Direct indices then
    embeddingLookupF32Dense l.weight l.embedDim indices
  else
    Autograd.Ops.indexSelect l.weight indices

end Model

section Modes

variable {F : Type} {l : Embedding F} {idx : Tensor Int}

structure Operands (l : Embedding F) (idx : Tensor Int) : Prop where
  weight : Contiguous l.weight .f32
  weightShape : l.weight.shape = [l.vocabSize, l.embedDim]
  positive : 0 < l.embedDim
  indices : Contiguous idx .i64

/-- `index_select` returns: its output, whose number of cells wraps, can be allocated, and every
index that a cell is read at is in the vocabulary. -/
def Selected (l : Embedding F) (idx : Tensor Int) : Prop :=
  numel [idx.shape.prod, l.embedDim] * Dtype.byteSize .f32 < 2 ^ 63 ∧
    ∃ js, idx.elements = some js ∧ ∀ (i : Nat) (j : Int), js[i]? = some j →
      i * l.embedDim < numel [idx.shape.prod, l.embedDim] → 0 ≤ j ∧ j.toNat < l.vocabSize

/-- Where `index_select` returns for one axis of indices, the weight and the indices start at
offset 0, and the number of cells does not wrap. -/
def Condition (l : Embedding F) (idx : Tensor Int) : Prop :=
  idx.shape.length = 1 → l.Selected idx →
    l.weight.layout.storageOffset = 0 ∧ idx.layout.storageOffset = 0 ∧
      idx.shape.prod * l.embedDim < u64Size

variable {n : Nat} {f : Nat → F} {g : Nat → Int}

/-- The looked-up rows, by linear index. -/
def lookupValue (dim : Nat) (f : Nat → F) (g : Nat → Int) (c : Nat) : F :=
  f ((g (c / dim)).toNat * dim + c % dim)

theorem indexSelect_fresh [Inhabited F] (hw : Dense l.weight .f32 [l.vocabSize, l.embedDim] f)
    (hidx : Dense idx .i64 [n] g) (hvocab : ∀ i < n, 0 ≤ g i ∧ (g i).toNat < l.vocabSize)
    (hpos : 0 < l.embedDim) (hbytes : n * l.embedDim * Dtype.byteSize .f32 < 2 ^ 63) :
    ∃ y, Autograd.Ops.indexSelect l.weight idx = .ok y ∧
      Fresh y .f32 [n, l.embedDim] (lookupValue l.embedDim f g) := by
  have hsel : selectable l.weight.layout.dtype = true := by
    rw [hw.dtype]
    rfl
  have hbytes' : [n, l.embedDim].prod * l.weight.layout.dtype.byteSize < 2 ^ 63 := by
    rwa [prod_pair, hw.dtype]
  obtain ⟨y, hy, hfresh⟩ := indexSelect_rows default hsel hw.shape hw.elements (by simp) hidx
    (fun _ => hvocab) hbytes'
  refine ⟨y, ?_, ?_⟩
  · rw [Autograd.Ops.indexSelect, hy]
    rfl
  · rw [hw.dtype] at hfresh
    refine ⟨hfresh.toDense.of_eq ?_, hfresh.offset⟩
    intro c hc
    rw [prod_pair] at hc
    have hdiv : c / l.embedDim < n := Nat.div_lt_of_lt_mul (by rwa [Nat.mul_comm])
    have hlt : (g (c / l.embedDim)).toNat * l.embedDim + c % l.embedDim <
        l.vocabSize * l.embedDim :=
      cell_lt (hvocab _ hdiv).2 (Nat.mod_lt _ hpos)
    rw [prod_singleton, lookupValue, prod_pair]
    simp [hlt]

/-- From slices, with all indices in the vocabulary, the direct lookup returns the rows. -/
theorem lookup_fresh (hw : Fresh l.weight .f32 [l.vocabSize, l.embedDim] f)
    (hidx : Fresh idx .i64 [n] g) (hvocab : ∀ i < n, 0 ≤ g i ∧ (g i).toNat < l.vocabSize)
    (hbytes : n * l.embedDim * Dtype.byteSize .f32 < 2 ^ 63) :
    ∃ y, embeddingLookupF32Dense l.weight l.embedDim idx = .ok y ∧
      Fresh y .f32 [n, l.embedDim] (lookupValue l.embedDim f g) := by
  have hbytes' : [n, l.embedDim].prod * Dtype.byteSize .f32 < 2 ^ 63 := by
    rwa [prod_pair]
  obtain ⟨y, hy, hfresh⟩ :=
    @fromVecTyped_fresh F .f32 [n, l.embedDim] (lookupValue l.embedDim f g) hbytes'
  refine ⟨y, ?_, hfresh⟩
  have hws := hw.asSlice
  have hidxs := hidx.asSlice
  have hn := hidx.numel
  have hfit := prod_lt_of_bytes hbytes'
  rw [prod_pair] at hws hy hfit
  rw [prod_singleton] at hidxs hn
  have hentries : ((range n).map g).zipIdx = (range n).map fun i => (g i, i) := by
    apply ext_getElem
    · simp
    · intro i _ _
      simp
  have hrows : (((range n).map g).zipIdx.mapM fun (rawIdx, i) =>
      lookupRow ((range (l.vocabSize * l.embedDim)).map f) (n * l.embedDim) l.vocabSize
        l.embedDim rawIdx i) = (.ok ((range n).map fun i => (range l.embedDim).map fun c =>
          f ((g i).toNat * l.embedDim + c)) : Outcome BackwardError (List (List F))) := by
    rw [hentries, mapM_map]
    refine mapM_eq_ok ?_
    intro i hi
    have hi := mem_range.1 hi
    obtain ⟨hsign, hrow⟩ := hvocab i hi
    -- the check on the index passes, and both slices lie in their buffers
    have hguard : ¬ (g i < 0 ∨ l.vocabSize ≤ (g i).toNat) := by omega
    have hends : (i + 1) * l.embedDim ≤ n * l.embedDim ∧ ((g i).toNat + 1) * l.embedDim ≤
        ((range (l.vocabSize * l.embedDim)).map f).length := by
      rw [length_map, length_range]
      exact ⟨Nat.mul_le_mul_right _ hi, Nat.mul_le_mul_right _ hrow⟩
    have hrun : lookupRow ((range (l.vocabSize * l.embedDim)).map f) (n * l.embedDim)
        l.vocabSize l.embedDim (g i) i = .ok ((range l.embedDim).map fun c =>
          f ((g i).toNat * l.embedDim + c)) := by
      rw [lookupRow, if_neg hguard, if_pos hends, row_map_range f hrow]
    exact hrun
  have hcells : ((range n).map fun i => (range l.embedDim).map fun c =>
      f ((g i).toNat * l.embedDim + c)).flatten =
        (range (n * l.embedDim)).map (lookupValue l.embedDim f g) :=
    Accumulate.flatten_rows (fun i c => f ((g i).toNat * l.embedDim + c)) n l.embedDim
  have hcap : (unwrap (withCapacity .f32 (n * l.embedDim)) :
      Outcome BackwardError Unit) = .ok () := by
    rw [withCapacity_ok hbytes]
    rfl
  rw [embeddingLookupF32Dense, hw.shape]
  simp only [hn, Nat.mod_eq_of_lt hfit, getElem?_cons_zero, expect_some,
    ok_bind, hws, hidxs, unwrap_ok, hcap, hrows, hcells, hy, ofExcept_ok]
  rfl

theorem lookup_ok (hw : l.weight.shape = [l.vocabSize, l.embedDim]) (hidx : Dense idx .i64 [n] g)
    {y : Tensor F} :
    embeddingLookupF32Dense l.weight l.embedDim idx = .ok y →
      l.weight.layout.storageOffset = 0 ∧ idx.layout.storageOffset = 0 ∧
        n * l.embedDim % u64Size * Dtype.byteSize .f32 < 2 ^ 63 ∧ ∀ i < n, 0 ≤ g i ∧
          (g i).toNat < l.vocabSize ∧ (i + 1) * l.embedDim ≤ n * l.embedDim % u64Size := by
  intro hy
  have hn := hidx.numel
  rw [prod_singleton] at hn
  rw [embeddingLookupF32Dense, hw] at hy
  simp only [hn, getElem?_cons_zero, expect_some, ok_bind] at hy
  obtain ⟨ws, hws, hy⟩ := bind_eq_ok.1 hy
  obtain ⟨js, hjs, hy⟩ := bind_eq_ok.1 hy
  obtain ⟨_, hcap, hy⟩ := bind_eq_ok.1 hy
  obtain ⟨rows, hrows, _⟩ := bind_eq_ok.1 hy
  have hoff := offset_of_slice hjs
  refine ⟨offset_of_slice hws, hoff, ?_, ?_⟩
  · by_contra hbytes
    rw [withCapacity, if_neg hbytes] at hcap
    cases hcap
  · intro i hi
    rw [(Fresh.mk hidx hoff).asSlice, prod_singleton] at hjs
    cases hjs
    have hentry : (g i, i) ∈ ((range n).map g).zipIdx := by
      rw [mk_mem_zipIdx_iff_getElem?]
      simp [hi]
    obtain ⟨row, hrow⟩ := ok_of_mapM hrows hentry
    simp only [lookupRow] at hrow
    split_ifs at hrow with hguard hends
    exact ⟨by omega, by omega, hends.1⟩

theorem fits_of_rows {dim : Nat} (hrows : ∀ i < n, (i + 1) * dim ≤ n * dim % u64Size) :
    n * dim < u64Size := by
  rcases Nat.eq_zero_or_pos n with rfl | hn
  · rw [Nat.zero_mul]
    decide
  · have hlast := hrows (n - 1) (Nat.sub_lt hn Nat.one_pos)
    rw [Nat.sub_add_cancel hn] at hlast
    exact lt_of_le_of_lt hlast (Nat.mod_lt _ (by decide))

theorem selected_iff_of_dense (hidx : Dense idx .i64 [n] g) :
    l.Selected idx ↔ numel [n, l.embedDim] * Dtype.byteSize .f32 < 2 ^ 63 ∧
      ∀ i, i * l.embedDim < numel [n, l.embedDim] → 0 ≤ g i ∧ (g i).toNat < l.vocabSize := by
  have helements := hidx.elements
  have hcount : idx.shape.prod = n := by
    rw [hidx.shape, prod_singleton]
  rw [Selected, hcount, helements]
  refine and_congr_right fun _ => ?_
  constructor
  · rintro ⟨js, hjs, hall⟩ i hi
    cases hjs
    have hin : i < n := by
      have hle : numel [n, l.embedDim] ≤ n * l.embedDim := by
        rw [numel, prod_pair]
        exact Nat.mod_le _ _
      exact Nat.lt_of_mul_lt_mul_right (lt_of_lt_of_le hi hle)
    exact hall i (g i) (by simp [hin]) hi
  · intro hall
    refine ⟨_, rfl, ?_⟩
    intro i j hj hi
    rw [getElem?_map] at hj
    obtain ⟨i', hi', rfl⟩ := Option.map_eq_some_iff.1 hj
    obtain ⟨hin, heq⟩ := List.getElem?_eq_some_iff.1 hi'
    rw [getElem_range] at heq
    subst heq
    exact hall i hi

/-- `index_select` returns exactly under `Selected`. -/
theorem indexSelect_ok_iff (hw : Dense l.weight .f32 [l.vocabSize, l.embedDim] f)
    (hidx : Dense idx .i64 [n] g) (hpos : 0 < l.embedDim) :
    (∃ y, Autograd.Ops.indexSelect l.weight idx = .ok y) ↔ l.Selected idx := by
  have hsel : selectable l.weight.layout.dtype = true := by
    rw [hw.dtype]
    rfl
  have hiff := Cpu.indexSelect_ok_iff hsel hw.shape hw.elements (by simp) hidx (by simpa using hpos)
  rw [hw.dtype, prod_singleton] at hiff
  rw [selected_iff_of_dense hidx, ← hiff]
  exact exists_congr fun y => mapErr_eq_ok

theorem selected_of_lookup (hw : l.weight.shape = [l.vocabSize, l.embedDim])
    (hidx : Dense idx .i64 [n] g) {y : Tensor F} :
    embeddingLookupF32Dense l.weight l.embedDim idx = .ok y → l.Selected idx := by
  intro hy
  obtain ⟨_, _, hbytes, hrows⟩ := lookup_ok hw hidx hy
  rw [selected_iff_of_dense hidx, numel, prod_pair]
  refine ⟨hbytes, ?_⟩
  intro i hi
  have hin : i < n := Nat.lt_of_mul_lt_mul_right (lt_of_lt_of_le hi (Nat.mod_le _ _))
  exact ⟨(hrows i hin).1, (hrows i hin).2.1⟩

/-- Where `index_select` returns, the modes agree exactly if the direct lookup gets its slices and
the output does not wrap. -/
theorem agrees_of_selected [Inhabited F] (hw : Dense l.weight .f32 [l.vocabSize, l.embedDim] f)
    (hidx : Dense idx .i64 [n] g) (hpos : 0 < l.embedDim) (hselected : l.Selected idx) :
    Agrees (embeddingLookupF32Dense l.weight l.embedDim idx)
        (Autograd.Ops.indexSelect l.weight idx) ↔
      l.weight.layout.storageOffset = 0 ∧ idx.layout.storageOffset = 0 ∧
        n * l.embedDim < u64Size := by
  have hneeds : ∀ y, embeddingLookupF32Dense l.weight l.embedDim idx = .ok y →
      l.weight.layout.storageOffset = 0 ∧ idx.layout.storageOffset = 0 ∧
        n * l.embedDim < u64Size := by
    intro y hy
    obtain ⟨hoff, hidxoff, _, hrows⟩ := lookup_ok hw.shape hidx hy
    exact ⟨hoff, hidxoff, fits_of_rows fun i hi => (hrows i hi).2.2⟩
  by_cases hfit : n * l.embedDim < u64Size
  · obtain ⟨hbytes, hall⟩ := (selected_iff_of_dense hidx).1 hselected
    rw [numel, prod_pair, Nat.mod_eq_of_lt hfit] at hbytes hall
    have hvocab : ∀ i < n, 0 ≤ g i ∧ (g i).toNat < l.vocabSize := by
      intro i hi
      exact hall i (Nat.mul_lt_mul_of_pos_right hi hpos)
    refine Agrees.iff_of_fresh (indexSelect_fresh hw hidx hvocab hpos hbytes) ?_ hneeds
    rintro ⟨hoff, hidxoff, _⟩
    exact lookup_fresh ⟨hw, hoff⟩ ⟨hidx, hidxoff⟩ hvocab hbytes
  · -- `index_select` returns a tensor of the wrapped size, and the lookup runs past its output.
    refine ⟨fun hagrees => ?_, fun hc => absurd hc.2.2 hfit⟩
    obtain ⟨y, hy⟩ := hagrees.1.2 ((indexSelect_ok_iff hw hidx hpos).2 hselected)
    exact hneeds y hy

/-- The modes of the layer agree exactly if the direct lookup gets its slices wherever
`index_select` returns. -/
theorem agrees_iff [Inhabited F] (h : l.Operands idx) :
    Agrees (l.forwardIndices false idx) (l.forwardIndices true idx) ↔ l.Condition idx := by
  have htrain : l.forwardIndices true idx = Autograd.Ops.indexSelect l.weight idx := by
    rw [forwardIndices, if_neg (by simp)]
  rw [htrain, Condition]
  by_cases hrank : idx.shape.length = 1
  · have heval : l.forwardIndices false idx = embeddingLookupF32Dense l.weight l.embedDim idx := by
      rw [forwardIndices, if_pos ⟨rfl, h.weight.dtype, h.weight.flag, h.indices.dtype,
        h.indices.flag, hrank⟩]
    obtain ⟨f, hf⟩ := h.weight.dense
    rw [h.weightShape] at hf
    obtain ⟨g, hg⟩ := h.indices.dense
    obtain ⟨n, hn⟩ := length_eq_one_iff.1 hrank
    rw [hn] at hg
    rw [heval, imp_iff_right hrank, hn, prod_singleton]
    by_cases hselected : l.Selected idx
    · rw [imp_iff_right hselected]
      exact agrees_of_selected hf hg h.positive hselected
    · refine ⟨fun _ hc => absurd hc hselected, fun _ => Agrees.of_not_ok ?_ ?_⟩
      · intro y hy
        exact hselected (selected_of_lookup h.weightShape hg hy)
      · intro y hy
        exact hselected ((indexSelect_ok_iff hf hg h.positive).1 ⟨y, hy⟩)
  · have heval : l.forwardIndices false idx = Autograd.Ops.indexSelect l.weight idx := by
      rw [forwardIndices, if_neg]
      rintro ⟨_, hdirect⟩
      exact hrank hdirect.2.2.2.2
    rw [heval]
    exact ⟨fun _ hc => absurd hc hrank, fun _ => Agrees.refl _⟩

end Modes

end Embedding

end Nn
end Rustorch
