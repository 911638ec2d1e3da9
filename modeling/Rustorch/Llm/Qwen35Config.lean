import Mathlib.Data.Finset.Sort
import Rustorch.Gguf.Reader

/-!
# The configuration of a hybrid model

`qwen35.rs`: `parse_config` reads the sizes from the metadata, sorts the blocks into attention and
SSM layers by the names of their tensors, and takes the head width from the first attention layer.
Floats are bit patterns, and `narrow` is the cast of an `f64` to an `f32`.

The head count divides without a check, and block numbers past the last layer stay in the sets:
the configuration is consistent exactly for tame files (`parsesConsistently_iff`).
-/

namespace Rustorch
namespace Gguf

/-- `as u32` of the integer types; a wider value is cut off. -/
def MetaValue.asU32 : MetaValue → Option UInt32
  | .u8 v => some v.toUInt32
  | .u16 v => some v.toUInt32
  | .u32 v => some v
  | .u64 v => some v.toUInt32
  | .i8 v => some v.toInt32.toUInt32
  | .i16 v => some v.toInt32.toUInt32
  | .i32 v => some v.toUInt32
  | .i64 v => some v.toInt32.toUInt32
  | _ => none

def MetaValue.asF32 (narrow : UInt64 → UInt32) : MetaValue → Option UInt32
  | .f32 v => some v
  | .f64 v => some (narrow v)
  | _ => none

def MetaValue.asStr : MetaValue → Option String
  | .string s => some s
  | _ => none

def GgufFile.tensor (file : GgufFile) (name : String) : Option TensorInfo :=
  file.tensors.find? (fun t => t.name = name)

end Gguf

namespace Llm

open Gguf Finset Outcome

inductive Qwen35Variant
  | qwen3PureTransformer | dense | moe
  deriving DecidableEq, Repr

namespace Qwen35Variant

def archStr : Qwen35Variant → String
  | qwen3PureTransformer => "qwen3"
  | dense => "qwen35"
  | moe => "qwen35moe"

def hasQGate (v : Qwen35Variant) : Bool := v ≠ qwen3PureTransformer

def hasSsm (v : Qwen35Variant) : Bool := v ≠ qwen3PureTransformer

end Qwen35Variant

inductive LayerKind
  | attention | ssm
  deriving DecidableEq, Repr

structure Qwen35Config where
  variant : Qwen35Variant
  nLayers : Nat
  d : Nat
  f : Nat
  nQHeads : Nat
  nKvHeads : Nat
  ropeDim : Nat
  vocab : Nat
  maxContext : Nat
  rmsEps : UInt32
  ropeBase : UInt32
  ssmInner : Nat
  ssmState : Nat
  ssmDtRank : Nat
  ssmGroups : Nat
  ssmConvKernel : Nat
  nExperts : Nat
  nExpertsUsed : Nat
  expertF : Nat
  attnHeadDim : Nat
  attentionIndices : List Nat
  ssmIndices : List Nat

/-- The binary search of a sorted list finds exactly its members. -/
def Qwen35Config.layerKind (cfg : Qwen35Config) (li : Nat) : LayerKind :=
  if li ∈ cfg.attentionIndices then .attention else .ssm

def layerKindForIndex (li : Nat) : LayerKind :=
  if (li + 1) % 4 = 0 then .attention else .ssm

inductive Qwen35LoadError
  | gguf (s : String)
  | unsupportedArch (s : String)
  | missingMeta (s : String)
  | missingTensor (s : String)
  deriving DecidableEq, Repr

/-- `ok_or_else` -/
def okOr {α : Type} (e : Qwen35LoadError) : Option α → Except Qwen35LoadError α
  | some a => .ok a
  | none => .error e

/-! ## The metadata -/

def metaU32 (file : GgufFile) (arch key : String) : Option Nat :=
  ((file.metadata.get s!"{arch}.{key}").bind MetaValue.asU32).map UInt32.toNat

def metaF32 (narrow : UInt64 → UInt32) (file : GgufFile) (arch key : String) : Option UInt32 :=
  (file.metadata.get s!"{arch}.{key}").bind (MetaValue.asF32 narrow)

def reqU32 (file : GgufFile) (arch key : String) : Except Qwen35LoadError Nat :=
  okOr (.missingMeta s!"{arch}.{key}") (metaU32 file arch key)

/-- A size that is read for some variants and zero for the others. -/
def sizeIf (present : Bool) (file : GgufFile) (arch key : String) : Except Qwen35LoadError Nat :=
  if present then reqU32 file arch key else .ok 0

def variantOf : String → Except Qwen35LoadError Qwen35Variant
  | "qwen3" => .ok .qwen3PureTransformer
  | "qwen35" => .ok .dense
  | "qwen35moe" => .ok .moe
  | other => .error (.unsupportedArch other)

/-- The part of `parse_config` before the blocks: their fields are filled in later. -/
def readSizes (narrow : UInt64 → UInt32) (file : GgufFile) :
    Except Qwen35LoadError Qwen35Config := do
  let archStr ← okOr (.missingMeta "general.architecture")
    ((file.metadata.get "general.architecture").bind MetaValue.asStr)
  let variant ← variantOf archStr
  let arch := variant.archStr
  let nLayers ← reqU32 file arch "block_count"
  let d ← reqU32 file arch "embedding_length"
  let f ← sizeIf (variant ≠ .moe) file arch "feed_forward_length"
  let nQHeads ← reqU32 file arch "attention.head_count"
  let nKvHeads ← reqU32 file arch "attention.head_count_kv"
  let ropeDim := (metaU32 file arch "rope.dimension_count").getD 0
  let maxContext ← reqU32 file arch "context_length"
  let rmsEps ← okOr (.missingMeta s!"{arch}.attention.layer_norm_rms_epsilon")
    (metaF32 narrow file arch "attention.layer_norm_rms_epsilon")
  -- the default is 10000.0
  let ropeBase := (metaF32 narrow file arch "rope.freq_base").getD 0x461C4000
  let ssmInner ← sizeIf variant.hasSsm file arch "ssm.inner_size"
  let ssmState ← sizeIf variant.hasSsm file arch "ssm.state_size"
  let ssmDtRank ← sizeIf variant.hasSsm file arch "ssm.time_step_rank"
  let ssmGroups ← sizeIf variant.hasSsm file arch "ssm.group_count"
  let ssmConvKernel ← sizeIf variant.hasSsm file arch "ssm.conv_kernel"
  let nExperts ← sizeIf (variant = .moe) file arch "expert_count"
  let nExpertsUsed ← sizeIf (variant = .moe) file arch "expert_used_count"
  let expertF ← sizeIf (variant = .moe) file arch "expert_feed_forward_length"
  let embd ← okOr (.missingTensor "token_embd.weight") (file.tensor "token_embd.weight")
  let vocab := (embd.shape.max?.getD 0).toNat
  return { variant, nLayers, d, f, nQHeads, nKvHeads, ropeDim, vocab, maxContext, rmsEps, ropeBase,
           ssmInner, ssmState, ssmDtRank, ssmGroups, ssmConvKernel, nExperts, nExpertsUsed,
           expertF, attnHeadDim := 0, attentionIndices := [], ssmIndices := [] }

/-! ## The kinds of the layers -/

/-- `str::parse::<usize>`: digits after an optional plus sign. -/
def parseUsize (s : List Char) : Option Nat :=
  let digits := if s.head? = some '+' then s.tail else s
  let value := digits.foldl (fun acc c => acc * 10 + (c.toNat - '0'.toNat)) 0
  if digits ≠ [] ∧ digits.all Char.isDigit ∧ value < u64Size then some value else none

/-- `blk.<number>.<suffix>` -/
def blockName (name : String) : Option (Nat × List Char) :=
  if "blk.".toList <+: name.toList then
    let rest := name.toList.drop 4
    match rest.dropWhile (· ≠ '.') with
    | [] => none
    | _ :: suffix => (parseUsize (rest.takeWhile (· ≠ '.'))).map fun idx => (idx, suffix)
  else
    none

/-- The loop body over the tensors, on the sets of attention and SSM blocks. -/
def scanTensor (sets : Finset Nat × Finset Nat) (t : TensorInfo) : Finset Nat × Finset Nat :=
  match blockName t.name with
  | some (idx, suffix) =>
    if suffix = "attn_q.weight".toList then
      (insert idx sets.1, sets.2)
    else if suffix = "ssm_a".toList then
      (sets.1, insert idx sets.2)
    else
      sets
  | none => sets

/-- The blocks that a tensor of the file names as attention, and as SSM. -/
def namedBlocks (file : GgufFile) : Finset Nat × Finset Nat :=
  file.tensors.foldl scanTensor (∅, ∅)

/-- The loop body over the layers. -/
def checkLayer (sets : Finset Nat × Finset Nat) (li : Nat) :
    Except Qwen35LoadError (Finset Nat × Finset Nat) :=
  if li ∈ sets.1 ∧ li ∈ sets.2 then
    .error (.gguf s!"block {li} carries both attn_q.weight and ssm_a — unsupported")
  else if li ∉ sets.1 ∧ li ∉ sets.2 then
    match layerKindForIndex li with
    | .attention => .ok (insert li sets.1, sets.2)
    | .ssm => .ok (sets.1, insert li sets.2)
  else
    .ok sets

def classify (nLayers : Nat) (sets : Finset Nat × Finset Nat) :
    Except Qwen35LoadError (Finset Nat × Finset Nat) :=
  (List.range nLayers).foldlM checkLayer sets

/-! ## The configuration -/

def qName (li : Nat) : String := s!"blk.{li}.attn_q.weight"

def headFactor (v : Qwen35Variant) : Nat := if v.hasQGate then 2 else 1

/-- The output dimension of a layer's query weight. -/
def outDim (file : GgufFile) (li : Nat) : Except Qwen35LoadError Nat := do
  let t ← okOr (.missingTensor (qName li)) (file.tensor (qName li))
  let out ← okOr (.gguf s!"{qName li}: shape too short") t.shape[1]?
  return out.toNat

/-- The head width.  The remainder by zero is a panic. -/
def readHeadDim (file : GgufFile) (cfg : Qwen35Config) : Outcome Qwen35LoadError Nat :=
  match cfg.attentionIndices.head? with
  | none => .ok 0
  | some first => do
    let out ← .ofExcept (outDim file first)
    let factor := headFactor cfg.variant
    let denom := cfg.nQHeads * factor
    if denom = 0 then
      .panic
    else if out % denom ≠ 0 then
      .err (.gguf
        s!"{qName first} out_dim {out} not divisible by n_q_heads*{factor} = {denom}")
    else
      .ok (out / denom)

/-- The part of `parse_config` after the loop over the layers. -/
def finish (file : GgufFile) (sizes : Qwen35Config) (sets : Finset Nat × Finset Nat) :
    Outcome Qwen35LoadError Qwen35Config := do
  let cfg := { sizes with attentionIndices := sets.1.sort, ssmIndices := sets.2.sort }
  let attnHeadDim ← readHeadDim file cfg
  .ok { cfg with attnHeadDim, ropeDim := if sizes.ropeDim = 0 then attnHeadDim else sizes.ropeDim }

def parseConfig (narrow : UInt64 → UInt32) (file : GgufFile) :
    Outcome Qwen35LoadError Qwen35Config := do
  let sizes ← .ofExcept (readSizes narrow file)
  let sets ← .ofExcept (classify sizes.nLayers (namedBlocks file))
  finish file sizes sets

/-! ## What the loop over the layers leaves -/

/-- The layers of a kind: the named ones, and those without a name to which the rule gives it. -/
def layersOf (kind : LayerKind) (n : Nat) (named other : Finset Nat) : Finset Nat :=
  named ∪ (range n).filter fun li => li ∉ named ∧ li ∉ other ∧ layerKindForIndex li = kind

section Classify

variable {kind : LayerKind} {n li : Nat} {named other A S : Finset Nat}

@[simp] theorem mem_layersOf : li ∈ layersOf kind n named other ↔
    li ∈ named ∨ li < n ∧ li ∉ named ∧ li ∉ other ∧ layerKindForIndex li = kind := by
  simp [layersOf]

/-- No layer below `n` is named as both kinds. -/
def NoClash (n : Nat) (A S : Finset Nat) : Prop :=
  ∀ li < n, li ∈ A → li ∉ S

theorem NoClash.of_succ : NoClash (n + 1) A S → NoClash n A S := by
  intro h li hli
  exact h li (by omega)

theorem checkLayer_layersOf : (n ∈ A → n ∉ S) →
    checkLayer (layersOf .attention n A S, layersOf .ssm n S A) n =
      .ok (layersOf .attention (n + 1) A S, layersOf .ssm (n + 1) S A) := by
  intro h
  -- the layers below `n` do not change, and `n` is new to both sets unless it is named
  have hsucc : ∀ {kind : LayerKind} {named other : Finset Nat} {li : Nat},
      li ∈ layersOf kind (n + 1) named other ↔ li ∈ layersOf kind n named other ∨
        li = n ∧ n ∉ named ∧ n ∉ other ∧ layerKindForIndex n = kind := by
    intro kind named other li
    simp only [mem_layersOf]
    grind
  have hsets : ∀ {kind : LayerKind} {named other : Finset Nat},
      layersOf kind (n + 1) named other =
        if n ∉ named ∧ n ∉ other ∧ layerKindForIndex n = kind then
          insert n (layersOf kind n named other)
        else layersOf kind n named other := by
    intro kind named other
    ext li
    split_ifs <;> simp [*, or_comm]
  rw [checkLayer, hsets, hsets]
  by_cases hA : n ∈ A
  · simp [hA, h hA]
  · by_cases hS : n ∈ S
    · simp [hA, hS]
    · cases hkind : layerKindForIndex n <;> simp [hA, hS, hkind]

theorem classify_eq_ok : NoClash n A S →
    classify n (A, S) = .ok (layersOf .attention n A S, layersOf .ssm n S A) := by
  intro h
  induction n with
  | zero => simp [classify, layersOf, pure, Except.pure]
  | succ n ih =>
    have hn := ih h.of_succ
    rw [classify] at hn ⊢
    rw [List.range_succ, List.foldlM_append, hn]
    exact (bind_pure _).trans (checkLayer_layersOf (h n n.lt_succ_self))

theorem classify_eq_error : ¬ NoClash n A S → ∃ e, classify n (A, S) = .error e := by
  intro h
  induction n with
  | zero => exact absurd (fun li hli => absurd hli li.not_lt_zero) h
  | succ n ih =>
    rw [classify, List.range_succ, List.foldlM_append]
    by_cases hn : NoClash n A S
    · have hboth : n ∈ A ∧ n ∈ S := by
        by_contra hno
        refine h fun li hli hA hS => ?_
        rcases Nat.lt_succ_iff_lt_or_eq.1 hli with hlt | rfl
        · exact hn li hlt hA hS
        · exact hno ⟨hA, hS⟩
      rw [← classify, classify_eq_ok hn]
      refine ⟨_, (bind_pure (checkLayer _ n)).trans (if_pos ?_)⟩
      simp [hboth]
    · obtain ⟨e, he⟩ := ih hn
      rw [← classify, he]
      exact ⟨e, rfl⟩

theorem layersOf_disjoint : NoClash n A S → A ⊆ range n →
    li ∈ layersOf .attention n A S → li ∉ layersOf .ssm n S A := by
  intro h hA hatt hssm
  have hno := h li
  simp only [mem_layersOf] at hatt hssm
  grind

/-- The two kinds cover the layers exactly if every named block is one of the layers. -/
theorem layersOf_cover_iff :
    (∀ li, li ∈ layersOf .attention n A S ∨ li ∈ layersOf .ssm n S A ↔ li < n) ↔
      A ⊆ range n ∧ S ⊆ range n := by
  simp only [mem_layersOf]
  constructor
  · intro h
    refine ⟨fun li hli => mem_range.2 ?_, fun li hli => mem_range.2 ?_⟩
    · exact (h li).1 (.inl (.inl hli))
    · exact (h li).1 (.inr (.inl hli))
  · rintro ⟨hA, hS⟩ li
    cases hkind : layerKindForIndex li <;> grind

end Classify

/-! ## Consistency -/

/-- What the loaders and the state of a model rely on. -/
structure Consistent (file : GgufFile) (cfg : Qwen35Config) : Prop where
  attention_sorted : cfg.attentionIndices.Pairwise (· < ·)
  ssm_sorted : cfg.ssmIndices.Pairwise (· < ·)
  disjoint : ∀ li ∈ cfg.attentionIndices, li ∉ cfg.ssmIndices
  cover : ∀ li, li ∈ cfg.attentionIndices ∨ li ∈ cfg.ssmIndices ↔ li < cfg.nLayers
  kind : ∀ li < cfg.nLayers, (cfg.layerKind li = .attention ↔ li ∈ cfg.attentionIndices) ∧
    (cfg.layerKind li = .ssm ↔ li ∈ cfg.ssmIndices)
  width : ∀ first, cfg.attentionIndices.head? = some first →
    outDim file first = .ok (cfg.nQHeads * cfg.attnHeadDim * headFactor cfg.variant)

def ParsesConsistently (narrow : UInt64 → UInt32) (file : GgufFile) : Prop :=
  parseConfig narrow file ≠ .panic ∧
    ∀ cfg, parseConfig narrow file = .ok cfg → Consistent file cfg

/-- Every block that a tensor names is one of the layers. -/
def Within (n : Nat) (file : GgufFile) : Prop :=
  (namedBlocks file).1 ⊆ range n ∧ (namedBlocks file).2 ⊆ range n

def attentionLayers (n : Nat) (file : GgufFile) : Finset Nat :=
  layersOf .attention n (namedBlocks file).1 (namedBlocks file).2

/-- The files that the divisor and the stray block numbers do not harm: those that an earlier
check refuses, and those with a head count and without stray blocks. -/
def Tame (file : GgufFile) (sizes : Qwen35Config) : Prop :=
  NoClash sizes.nLayers (namedBlocks file).1 (namedBlocks file).2 →
    (attentionLayers sizes.nLayers file = ∅ → Within sizes.nLayers file) ∧
      ∀ first, IsLeast (attentionLayers sizes.nLayers file : Set Nat) first →
        ∀ out, outDim file first = .ok out → sizes.nQHeads ≠ 0 ∧
          (sizes.nQHeads * headFactor sizes.variant ∣ out → Within sizes.nLayers file)

section Parse

variable {narrow : UInt64 → UInt32} {file : GgufFile} {sizes : Qwen35Config} {first : Nat}

theorem head?_sort {s : Finset Nat} : s.sort.head? = some first ↔ IsLeast (s : Set Nat) first := by
  have hsorted := s.sortedLT_sort.pairwise
  have hmem : ∀ li, li ∈ s.sort ↔ li ∈ s := fun li => mem_sort _
  cases hl : s.sort with
  | nil =>
    have hempty : ∀ li, li ∉ s := by simpa [hl] using hmem
    simp [IsLeast, hempty]
  | cons a l =>
    rw [hl] at hsorted hmem
    have hleast : IsLeast (s : Set Nat) a := by
      refine ⟨(hmem a).1 List.mem_cons_self, fun li hli => ?_⟩
      rcases List.mem_cons.1 ((hmem li).2 hli) with rfl | htail
      · exact le_rfl
      · exact (List.rel_of_pairwise_cons hsorted htail).le
    constructor
    · intro h
      cases h
      exact hleast
    · intro h
      rw [List.head?_cons, hleast.unique h]

theorem consistent_iff {cfg : Qwen35Config} {n : Nat} (hn : cfg.nLayers = n)
    (hclash : NoClash n (namedBlocks file).1 (namedBlocks file).2)
    (hatt : cfg.attentionIndices = (attentionLayers n file).sort)
    (hssm : cfg.ssmIndices =
      (layersOf .ssm n (namedBlocks file).2 (namedBlocks file).1).sort)
    (hwidth : ∀ first, cfg.attentionIndices.head? = some first →
      outDim file first = .ok (cfg.nQHeads * cfg.attnHeadDim * headFactor cfg.variant)) :
    Consistent file cfg ↔ Within n file := by
  constructor
  · intro h
    refine layersOf_cover_iff.1 fun li => ?_
    simpa [hatt, hssm, hn, attentionLayers] using h.cover li
  · intro h
    have hdisj : ∀ li ∈ cfg.attentionIndices, li ∉ cfg.ssmIndices := by
      intro li
      rw [hatt, hssm, mem_sort, mem_sort]
      exact layersOf_disjoint hclash h.1
    have hcover : ∀ li, li ∈ cfg.attentionIndices ∨ li ∈ cfg.ssmIndices ↔ li < n := by
      intro li
      rw [hatt, hssm, mem_sort, mem_sort]
      exact layersOf_cover_iff.2 h li
    refine ⟨?_, ?_, hdisj, hn ▸ hcover, ?_, hwidth⟩
    · rw [hatt]
      exact (sortedLT_sort _).pairwise
    · rw [hssm]
      exact (sortedLT_sort _).pairwise
    · intro li hli
      have hmem := (hcover li).2 (hn ▸ hli)
      rw [Qwen35Config.layerKind]
      split_ifs with hatt' <;> simp_all

theorem headFactor_ne_zero (v : Qwen35Variant) : headFactor v ≠ 0 := by
  cases v <;> decide

theorem readHeadDim_width {cfg : Qwen35Config} {dim : Nat} (hdim : readHeadDim file cfg = .ok dim)
    (hfirst : cfg.attentionIndices.head? = some first) :
    outDim file first = .ok (cfg.nQHeads * dim * headFactor cfg.variant) := by
  rw [readHeadDim, hfirst] at hdim
  cases hout : outDim file first with
  | error e => simp [hout] at hdim
  | ok out =>
    simp only [hout, ofExcept_ok, ok_bind] at hdim
    split_ifs at hdim with hzero hrem
    cases hdim
    rw [Nat.mul_right_comm, Nat.mul_div_cancel' (Nat.dvd_of_mod_eq_zero (not_not.1 hrem))]

/-- When the head width is read, and when reading it panics. -/
theorem readHeadDim_iff {cfg : Qwen35Config} {s : Finset Nat} {P : Prop}
    (hs : cfg.attentionIndices = s.sort) :
    (readHeadDim file cfg ≠ .panic ∧ ∀ dim, readHeadDim file cfg = .ok dim → P) ↔
      (s = ∅ → P) ∧ ∀ first, IsLeast (s : Set Nat) first → ∀ out, outDim file first = .ok out →
        cfg.nQHeads ≠ 0 ∧ (cfg.nQHeads * headFactor cfg.variant ∣ out → P) := by
  simp only [← head?_sort, readHeadDim, hs]
  cases hfirst : s.sort.head? with
  | none =>
    have hempty : s = ∅ := by
      refine eq_empty_of_forall_notMem fun li hli => ?_
      have hmem := (mem_sort (· ≤ ·)).2 hli
      rw [List.head?_eq_none_iff.1 hfirst] at hmem
      exact List.not_mem_nil hmem
    simp [hempty]
  | some first =>
    have hne : s ≠ ∅ := by
      rintro rfl
      simp at hfirst
    cases hout : outDim file first with
    | error e => simp [hne, hout]
    | ok out =>
      by_cases hheads : cfg.nQHeads = 0
      · simp [hheads, hout]
      · by_cases hrem : out % (cfg.nQHeads * headFactor cfg.variant) = 0 <;>
          simp [hne, hout, hheads, hrem, headFactor_ne_zero, Nat.dvd_iff_mod_eq_zero]

theorem parsesConsistently_of_sizes (h : readSizes narrow file = .ok sizes) :
    ParsesConsistently narrow file ↔ Tame file sizes := by
  rw [ParsesConsistently, Tame]
  by_cases hclash : NoClash sizes.nLayers (namedBlocks file).1 (namedBlocks file).2
  · have hsets : classify sizes.nLayers (namedBlocks file) = _ := classify_eq_ok hclash
    rw [parseConfig, h, ofExcept_ok, ok_bind, hsets, ofExcept_ok, ok_bind, finish]
    set cfg : Qwen35Config := { sizes with
      attentionIndices := (attentionLayers sizes.nLayers file).sort
      ssmIndices := (layersOf .ssm sizes.nLayers (namedBlocks file).2 (namedBlocks file).1).sort }
    let full : Nat → Qwen35Config := fun dim => { cfg with
      attnHeadDim := dim, ropeDim := if sizes.ropeDim = 0 then dim else sizes.ropeDim }
    have hwithin : ∀ dim, readHeadDim file cfg = .ok dim →
        (Consistent file (full dim) ↔ Within sizes.nLayers file) := fun dim hdim =>
      consistent_iff rfl hclash rfl rfl fun _ hfirst => readHeadDim_width hdim hfirst
    simp only [hclash, true_imp_iff]
    refine Iff.trans ?_ (@readHeadDim_iff file cfg _ (Within sizes.nLayers file) rfl)
    change (readHeadDim file cfg >>= fun dim => .ok (full dim)) ≠ _ ∧
      (∀ _, (readHeadDim file cfg >>= fun dim => .ok (full dim)) = _ → _) ↔ _
    cases hdim : readHeadDim file cfg with
    | ok dim =>
      have hdim' := hwithin dim hdim
      simpa using hdim'
    | err e => simp
    | panic => simp
  · obtain ⟨e, he⟩ := classify_eq_error hclash
    have hparse : parseConfig narrow file = .err e := by
      rw [parseConfig, h, ofExcept_ok, ok_bind]
      exact congrArg (fun x => ofExcept x >>= finish file sizes) he
    simp [hparse, hclash]

end Parse

/-- Parsing neither panics nor returns an inconsistent configuration exactly for tame files. -/
theorem parsesConsistently_iff (narrow : UInt64 → UInt32) (file : GgufFile) :
    ParsesConsistently narrow file ↔
      ∀ sizes, readSizes narrow file = .ok sizes → Tame file sizes := by
  cases h : readSizes narrow file with
  | error e => simp [ParsesConsistently, parseConfig, h]
  | ok sizes =>
    rw [parsesConsistently_of_sizes h]
    exact ⟨fun htame _ heq => Except.ok.inj heq ▸ htame, fun hall => hall sizes rfl⟩

/-- A file of one attention layer whose head count is zero. -/
def headlessFile : GgufFile where
  bytes := ⟨[], Nat.zero_le _⟩
  version := 3
  metadata := ⟨StringMap.ofEntries [("general.architecture", .string "qwen3"),
    ("qwen3.block_count", .u32 1), ("qwen3.embedding_length", .u32 2),
    ("qwen3.feed_forward_length", .u32 2), ("qwen3.attention.head_count", .u32 0),
    ("qwen3.attention.head_count_kv", .u32 1), ("qwen3.context_length", .u32 8),
    ("qwen3.attention.layer_norm_rms_epsilon", .f32 0)]⟩
  tensors := [⟨"token_embd.weight", [2, 0], .f32, 0⟩, ⟨"blk.0.attn_q.weight", [2, 0], .f32, 0⟩]
  dataOffset := 0
  alignment := 32

theorem headless_not_parsesConsistently : ¬ ∃ narrow, ParsesConsistently narrow headlessFile := by
  rintro ⟨narrow, hparse⟩
  have hsizes : readSizes narrow headlessFile = .ok _ := rfl
  have hblocks : namedBlocks headlessFile = ({0}, ∅) := by decide
  have htame := (parsesConsistently_of_sizes hsizes).1 hparse
  rw [Tame, attentionLayers, hblocks] at htame
  have hleast : IsLeast (layersOf .attention 1 {0} ∅ : Set Nat) 0 :=
    ⟨by simp, fun _ _ => Nat.zero_le _⟩
  exact ((htame fun _ _ _ => notMem_empty _).2 0 hleast 0 rfl).1 rfl

end Llm
end Rustorch
