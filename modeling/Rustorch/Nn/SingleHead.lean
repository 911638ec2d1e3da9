import Rustorch.Autograd.Recorder
import Rustorch.Nn.MultiHead

/-!
# Single-head attention on the tape

`attention.rs` with gradients enabled.  `SingleHeadAttention::forward` copies tensors into fresh
leaves between its steps, and its result is such a leaf: a backward pass from it comes to none of
the module's variables.  `MultiHeadAttention::forward` reshapes with ops, and the pass comes to the
input and to all eight parameters.  So the two never train alike (`not_trainsAlike`).
-/

namespace Rustorch
namespace Nn
namespace Recorded

open Rustorch.Core Autograd Outcome Layout
open Autograd.Recorder (constant leaf fail op)

/-! ## Modules -/

section Model

variable {F : Type}

abbrev Var (F : Type) : Type := Variable (Tensor F)

abbrev Taped (F : Type) : Type → Type := Recorder (Tensor F)

structure Linear (F : Type) where
  weight : Var F
  bias : Option (Var F)
  inFeatures : Nat
  outFeatures : Nat

variable (backend : Backend (Tensor F))

def Linear.affine (l : Linear F) (x : Var F) : Taped F (Var F) :=
  match l.bias with
  | some b => do
    let xw ← op backend "Matmul" [] [x, l.weight]
    op backend "AddBias" [] [xw, b]
  | none => op backend "Matmul" [] [x, l.weight]

/-- `Linear::forward` -/
def Linear.forward (l : Linear F) (input : Var F) : Taped F (Var F) :=
  let inShape := input.tensor.shape
  if inShape.length < 2 then
    fail (.backend "Linear::forward" ("input rank must be >= 2, got shape " ++ toString inShape))
  else if inShape.getLastD 0 ≠ l.inFeatures then
    fail (.backend "Linear::forward" ("last dim " ++ toString (inShape.getLastD 0) ++
      " != in_features " ++ toString l.inFeatures))
  else if inShape.length = 2 then
    l.affine backend input
  else do
    let xFlat ← op backend "Reshape" [numel inShape.dropLast, l.inFeatures] [input]
    let yFlat ← l.affine backend xFlat
    op backend "Reshape" (inShape.dropLast ++ [l.outFeatures]) [yFlat]

/-- The tensor's data in another shape, as a leaf. -/
def copied (name : String) (v : Var F) (shape : Shape) : Taped F (Var F) := do
  let data ← StateT.lift (mapErr (fun _ => .backend name "expected contiguous F32")
    (v.tensor.asSlice .f32))
  let tNew ← StateT.lift (mapErr (fun e => .backend name (Cpu.tensorErrorDisplay e))
    (ofExcept (fromVecTyped .f32 shape data)))
  leaf tNew

def reshapeForLinear (v : Var F) (t d : Nat) : Taped F (Var F) :=
  copied "reshape_for_linear" v [t, d]

def unsqueezeBatch (v : Var F) (b t d : Nat) : Taped F (Var F) :=
  copied "unsqueeze_batch" v [b, t, d]

variable [Field F] (sqrt : F → F)

/-- `softmax(q kᵀ / sqrt(width)) v` on rank-3 variables, one op after the other. -/
def attend (width : Nat) (q k v : Var F) : Taped F (Var F) := do
  let kT ← op backend "Transpose" [1, 2] [k]
  let rawScores ← op backend "Bmm" [] [q, kT]
  let scale ← StateT.lift (Ops.scalar (1 / sqrt width))
  let invScale ← constant scale
  let scores ← op backend "Mul" [] [rawScores, invScale]
  let attn ← op backend "Softmax" [2] [scores]
  op backend "Bmm" [] [attn, v]

def scaledDotProductAttention (q k v : Var F) : Taped F (Var F) :=
  let qShape := q.tensor.shape
  if qShape.length ≠ 3 then
    fail (.backend "sdp_attention" ("expected rank-3 Q, got " ++ toString qShape))
  else
    attend backend sqrt (qShape.getD 2 0) q k v

structure SingleHeadAttention (F : Type) where
  qProj : Linear F
  kProj : Linear F
  vProj : Linear F
  oProj : Linear F

/-- `SingleHeadAttention::forward` -/
def SingleHeadAttention.forward (m : SingleHeadAttention F) (input : Var F) : Taped F (Var F) :=
  let shape := input.tensor.shape
  if shape.length ≠ 3 then
    fail (.backend "single_head_attention" ("expected rank-3 input, got " ++ toString shape))
  else if shape.getD 0 0 ≠ 1 then
    fail (.backend "single_head_attention" ("v1 SingleHeadAttention only supports B=1; got B=" ++
      toString (shape.getD 0 0) ++ " (multi-batch awaits autograd-aware reshape)"))
  else do
    let t := shape.getD 1 0
    let d := shape.getD 2 0
    let x2d ← op backend "Transpose" [0, 0] [input]
    let x2d ← reshapeForLinear x2d t d
    let q2d ← m.qProj.forward backend x2d
    let k2d ← m.kProj.forward backend x2d
    let v2d ← m.vProj.forward backend x2d
    let q ← unsqueezeBatch q2d 1 t d
    let k ← unsqueezeBatch k2d 1 t d
    let v ← unsqueezeBatch v2d 1 t d
    let out ← scaledDotProductAttention backend sqrt q k v
    let out2d ← reshapeForLinear out t d
    let outProj2d ← m.oProj.forward backend out2d
    unsqueezeBatch outProj2d 1 t d

structure MultiHeadAttention (F : Type) where
  qProj : Linear F
  kProj : Linear F
  vProj : Linear F
  oProj : Linear F
  embedDim : Nat
  numHeads : Nat
  headDim : Nat

namespace MultiHeadAttention

def splitHeads (m : MultiHeadAttention F) (x : Var F) (batch seq : Nat) : Taped F (Var F) := do
  let x4 ← op backend "Reshape" [batch, seq, m.numHeads, m.headDim] [x]
  let x4 ← op backend "Transpose" [1, 2] [x4]
  op backend "Reshape" [batch * m.numHeads, seq, m.headDim] [x4]

def mergeHeads (m : MultiHeadAttention F) (x : Var F) (batch seq : Nat) : Taped F (Var F) := do
  let x4 ← op backend "Reshape" [batch, m.numHeads, seq, m.headDim] [x]
  let x4 ← op backend "Transpose" [1, 2] [x4]
  op backend "Reshape" [batch, seq, m.embedDim] [x4]

/-- `MultiHeadAttention::self_attention` without a mask: the three arguments of `forward` are the
input, so that the comparisons between their shapes hold. -/
def selfAttention (m : MultiHeadAttention F) (input : Var F) : Taped F (Var F) :=
  let shape := input.tensor.shape
  if shape.length ≠ 3 then
    fail (.backend "MultiHeadAttention::forward"
      ("expected rank-3 q [B, T, D], got " ++ toString shape))
  else if shape.getD 2 0 ≠ m.embedDim then
    fail (.backend "MultiHeadAttention::forward" ("embed dim mismatch: q=" ++
      toString (shape.getD 2 0) ++ ", k=" ++ toString (shape.getD 2 0) ++ ", v=" ++
        toString (shape.getD 2 0) ++ ", configured=" ++ toString m.embedDim))
  else do
    let batch := shape.getD 0 0
    let t := shape.getD 1 0
    let q ← m.qProj.forward backend input
    let k ← m.kProj.forward backend input
    let v ← m.vProj.forward backend input
    let q ← m.splitHeads backend q batch t
    let k ← m.splitHeads backend k batch t
    let v ← m.splitHeads backend v batch t
    let context ← attend backend sqrt m.headDim q k v
    let context ← m.mergeHeads backend context batch t
    m.oProj.forward backend context

end MultiHeadAttention

/-! ## Training -/

/-- The slots after `backward` of `sum(g * output)`, from empty ones. -/
def gradients (prog : Taped F (Var F)) (g : Tensor F)
    (heap : Heap (Tensor F)) : Outcome BackwardError (Nat → Option (Tensor F)) := do
  let loss : Taped F (Var F) := do
    let out ← prog
    let weight ← constant g
    let product ← op backend "Mul" [] [weight, out]
    op backend "Sum" [] [product]
  let (loss, heap) ← loss heap
  match backwardFrom backend.add backend.ones true heap loss none (fun _ => none) with
  | (tape, .ok ()) => .ok tape.slots
  | (_, .err e) => .err e
  | (_, .panic) => .panic

/-- Weight and bias of one projection. -/
structure Projection (F : Type) where
  weight : Tensor F
  bias : Tensor F

structure Projections (F : Type) where
  q : Projection F
  k : Projection F
  v : Projection F
  o : Projection F

def leafAt (tensor : Tensor F) (slot : Nat) : Var F where
  tensor := tensor
  gradFn := none
  grad := slot
  requiresGrad := true

/-- A `Linear(d, d)` whose parameters have the slots `slot` and `slot + 1`. -/
def Projection.linear (p : Projection F) (d slot : Nat) : Linear F where
  weight := leafAt p.weight slot
  bias := some (leafAt p.bias (slot + 1))
  inFeatures := d
  outFeatures := d

/-- `SingleHeadAttention::new(d)`, with these weights. -/
def singleHead (ps : Projections F) (d : Nat) : SingleHeadAttention F where
  qProj := ps.q.linear d 1
  kProj := ps.k.linear d 3
  vProj := ps.v.linear d 5
  oProj := ps.o.linear d 7

/-- `MultiHeadAttention::new(d, 1)`, with these weights. -/
def multiHead (ps : Projections F) (d : Nat) : MultiHeadAttention F where
  qProj := ps.q.linear d 1
  kProj := ps.k.linear d 3
  vProj := ps.v.linear d 5
  oProj := ps.o.linear d 7
  embedDim := d
  numHeads := 1
  headDim := d

/-- The slots of the input and of the parameters are handed out. -/
def trainingHeap : Heap (Tensor F) where
  nodes := fun _ => Record.absent
  next := 9

def SameTensor (x y : Tensor F) : Prop :=
  x.shape = y.shape ∧ x.elements = y.elements

/-- Both modules return the same tensor, and the same gradients for the input and the parameters,
whatever the output is weighted with. -/
def TrainsAlike (ps : Projections F) (d : Nat) (x : Tensor F) : Prop :=
  let single := (singleHead ps d).forward backend sqrt (leafAt x 0)
  let multi := (multiHead ps d).selfAttention backend sqrt (leafAt x 0)
  (∃ y z, single trainingHeap = .ok y ∧ multi trainingHeap = .ok z ∧
    SameTensor y.1.tensor z.1.tensor) ∧
  ∀ g, ∃ a b, gradients backend single g trainingHeap = .ok a ∧
    gradients backend multi g trainingHeap = .ok b ∧ ∀ s < 9, Option.Rel SameTensor (a s) (b s)

end Model

/-! ## Values -/

section Values

open Nn.MultiHeadAttention (checkRank checkSizes composedContext)

variable {F : Type} {backend : Backend (Tensor F)} {prog : Taped F (Var F)}
  {out : Outcome BackwardError (Tensor F)}

/-- What the program returns from any heap. -/
def Yields (prog : Taped F (Var F)) (out : Outcome BackwardError (Tensor F)) : Prop :=
  ∀ heap, (prog heap >>= fun r => ok r.1.tensor) = out

theorem yields_op (name : String) (saved : List Nat) (args : List (Var F)) :
    Yields (op backend name saved args) (backend.value name saved (args.map Variable.tensor)) := by
  intro heap
  unfold op
  cases hvalue : backend.value name saved (args.map Variable.tensor) with
  | ok t =>
    change ((if args.any Variable.requiresGrad then _ else _) >>= _) = _
    split <;> rfl
  | err e => rfl
  | panic => rfl

theorem Yields.bind {rest : Var F → Taped F (Var F)}
    {next : Tensor F → Outcome BackwardError (Tensor F)} (h : Yields prog out)
    (hrest : ∀ v, Yields (rest v) (next v.tensor)) : Yields (prog >>= rest) (out >>= next) := by
  intro heap
  rw [← h heap]
  change ((prog heap >>= fun r => rest r.1 r.2) >>= _) = _
  cases prog heap with
  | ok r => exact hrest r.1 r.2
  | err e => rfl
  | panic => rfl


/-- The scale is a constant of the graph. -/
theorem yields_scale {rest : Var F → Taped F (Var F)}
    {next : Tensor F → Outcome BackwardError (Tensor F)} (c : F)
    (hrest : ∀ v, Yields (rest v) (next v.tensor)) :
    Yields (do
      let scale ← StateT.lift (Ops.scalar c)
      let v ← constant scale
      rest v) (Ops.scalar c >>= next) := by
  intro heap
  generalize Ops.scalar c = scale
  cases scale with
  | ok t => exact hrest (heap.newVariable t).1 (heap.newVariable t).2
  | err e => rfl
  | panic => rfl

variable [Field F] [LinearOrder F] {exp ln : F → F}

/-- The ops compute what the operations of `ops.rs` return. -/
structure Computes (exp ln : F → F) (backend : Backend (Tensor F)) : Prop where
  reshape : ∀ shape t, backend.value "Reshape" shape [t] = Ops.reshape t shape
  transpose : ∀ a b t, backend.value "Transpose" [a, b] [t] = Autograd.transpose t a b
  bmm : ∀ x y, backend.value "Bmm" [] [x, y] = Nn.MultiHeadAttention.bmm x y
  mul : ∀ x y, backend.value "Mul" [] [x, y] = Ops.mul x y
  softmax : ∀ t d, backend.value "Softmax" [d] [t] = Nn.MultiHeadAttention.softmax exp ln t d

variable {m : MultiHeadAttention F} {q k v o : Tensor F → Outcome BackwardError (Tensor F)}

/-- On the tape the layer returns what `forward` returns with gradients enabled. -/
theorem selfAttention_yields (hops : Computes exp ln backend)
    (hq : ∀ x, Yields (m.qProj.forward backend x) (q x.tensor))
    (hk : ∀ x, Yields (m.kProj.forward backend x) (k x.tensor))
    (hv : ∀ x, Yields (m.vProj.forward backend x) (v x.tensor))
    (ho : ∀ x, Yields (m.oProj.forward backend x) (o x.tensor)) (heads_pos : 0 < m.numHeads)
    (split : m.numHeads * m.headDim = m.embedDim) (sqrt : F → F) (gemm : Attention.Gemm F)
    (x : Var F) : Yields (m.selfAttention backend sqrt x)
      (Nn.MultiHeadAttention.forward exp ln sqrt gemm true
        ⟨q, k, v, o, m.embedDim, m.numHeads, m.headDim, heads_pos, split⟩
        x.tensor x.tensor x.tensor) := by
  unfold MultiHeadAttention.selfAttention Nn.MultiHeadAttention.forward checkRank checkSizes
  by_cases hrank : x.tensor.shape.length ≠ 3
  · simp only [if_pos hrank]
    exact fun _ => rfl
  · simp only [if_neg hrank, or_self]
    by_cases hembed : x.tensor.shape.getD 2 0 ≠ m.embedDim
    · simp only [if_pos hembed]
      exact fun _ => rfl
    · simp only [if_neg hembed]
      -- with gradients enabled neither the shortcut nor the tiled kernel is taken
      simp only [ne_eq, not_true_eq_false, if_false, ok_bind, Bool.true_eq_false, false_and,
        composedContext, MultiHeadAttention.splitHeads, MultiHeadAttention.mergeHeads, attend,
        Nn.MultiHeadAttention.splitHeads, Nn.MultiHeadAttention.mergeHeads, bind_assoc,
        ← hops.reshape, ← hops.transpose, ← hops.bmm, ← hops.mul, ← hops.softmax]
      refine (hq x).bind fun q => (hk x).bind fun k => (hv x).bind fun v => ?_
      -- one op after the other, and the scale between the scores and their softmax
      repeat refine (yields_op _ _ _).bind fun _ => ?_
      refine yields_scale _ fun scale => ?_
      repeat refine (yields_op _ _ _).bind fun _ => ?_
      exact ho _

end Values

/-! ## Paths -/

section Paths

variable {F : Type} {backend : Backend (Tensor F)} {s : Nat} {K X : Set (Var F)}
  {l : Linear F} {x q k v : Var F}

def Linear.parameters (l : Linear F) : Set (Var F) :=
  {v | v = l.weight ∨ l.bias = some v}

theorem affine_draws (hx : x ∈ K) (hl : l.parameters ⊆ K) :
    Draws s K (l.affine backend x) (insert x l.parameters) := by
  have hweight : l.weight ∈ K := hl (.inl rfl)
  unfold Linear.affine Linear.parameters
  cases hbias : l.bias with
  | none =>
    refine (draws_op backend _ _ (by simp [hx, hweight])).congr ?_
    ext; simp
  | some b =>
    have hb : b ∈ K := hl (.inr hbias)
    refine Draws.op_bind (by simp [hx, hweight]) (Set.singleton_subset_iff.2 hb)
      (fun xw => (draws_op backend _ _ (by simp [hb])).congr ?_) ?_
    · ext; simp
    · ext; simp; tauto

theorem linear_draws (hx : x ∈ K) (hl : l.parameters ⊆ K) :
    Draws s K (l.forward backend x) (insert x l.parameters) := by
  unfold Linear.forward
  simp only
  split
  · exact draws_fail
  split
  · exact draws_fail
  split
  · exact affine_draws hx hl
  · refine Draws.op_bind (by simp [hx]) hl (fun xFlat => ?_) (by ext; simp)
    refine ((affine_draws (Set.mem_insert _ _) (hl.trans (Set.subset_insert _ _))).bind
      (Set.empty_subset _) fun yFlat => ?_).congr (Set.union_empty _)
    exact (draws_op backend _ _ (by simp)).congr (by ext; simp)

theorem copied_draws {name : String} {shape : Shape} : Draws s K (copied name x shape) ∅ :=
  Draws.lift fun _ => Draws.lift fun _ => draws_leaf _

variable [Field F] {sqrt : F → F}

theorem attend_draws {width : Nat} (hq : q ∈ K) (hk : k ∈ K) (hv : v ∈ K) :
    Draws s K (attend backend sqrt width q k v) {q, k, v} := by
  refine Draws.op_bind (Y := {q, v}) (by simp [hk]) (by simp [Set.insert_subset_iff, hq, hv])
    (fun kT => ?_) (by ext; simp; tauto)
  refine Draws.op_bind (Y := {v}) (by simp [hq]) (by simp [hv])
    (fun rawScores => Draws.lift fun _ => ?_) (by ext; simp; tauto)
  refine ((draws_constant _).bind (Y := {rawScores, v}) (by simp [Set.insert_subset_iff, hv])
    fun invScale => ?_).congr (Set.empty_union _)
  refine Draws.op_bind (Y := {v}) (by simp) (by simp [hv]) (fun scores => ?_) (by ext; simp; tauto)
  refine Draws.op_bind (Y := {v}) (by simp) (by simp [hv]) (fun attn => ?_) (by ext; simp; tauto)
  exact (draws_op backend _ _ (by simp [hv])).congr (by ext; simp)

theorem scaledDotProductAttention_draws (hq : q ∈ K) (hk : k ∈ K) (hv : v ∈ K) :
    Draws s K (scaledDotProductAttention backend sqrt q k v) {q, k, v} := by
  unfold scaledDotProductAttention
  simp only
  split
  · exact draws_fail
  · exact attend_draws hq hk hv

theorem SingleHeadAttention.forward_draws {m : SingleHeadAttention F} (hx : x ∈ K)
    (hq : m.qProj.parameters ⊆ K) (hk : m.kProj.parameters ⊆ K) (hv : m.vProj.parameters ⊆ K)
    (ho : m.oProj.parameters ⊆ K) : Draws s K (m.forward backend sqrt x) ∅ := by
  unfold SingleHeadAttention.forward
  simp only
  split
  · exact draws_fail
  split
  · exact draws_fail
  refine (draws_op backend _ _ (by simp [hx])).skip fun x2d => copied_draws.skip fun x2d => ?_
  refine (linear_draws (by simp) fun w hw => by simp [hq hw]).skip fun q2d => ?_
  refine (linear_draws (by simp) fun w hw => by simp [hk hw]).skip fun k2d => ?_
  refine (linear_draws (by simp) fun w hw => by simp [hv hw]).skip fun v2d => ?_
  refine copied_draws.skip fun q => copied_draws.skip fun k => copied_draws.skip fun v => ?_
  refine (scaledDotProductAttention_draws (by simp) (by simp) (by simp)).skip fun out => ?_
  refine copied_draws.skip fun out2d => ?_
  exact (linear_draws (by simp) fun w hw => by simp [ho hw]).skip fun _ => copied_draws

variable {m : MultiHeadAttention F}

omit [Field F] in
theorem splitHeads_draws {batch seq : Nat} (hx : x ∈ K) :
    Draws s K (m.splitHeads backend x batch seq) {x} := by
  refine Draws.op_bind (Y := ∅) (by simp [hx]) (by simp) (fun x4 => ?_) (by ext; simp)
  refine Draws.op_bind (Y := ∅) (by simp) (by simp) (fun x4 => ?_) (by ext; simp)
  exact (draws_op backend _ _ (by simp)).congr (by ext; simp)

omit [Field F] in
theorem mergeHeads_draws {batch seq : Nat} (hx : x ∈ K) :
    Draws s K (m.mergeHeads backend x batch seq) {x} := by
  refine Draws.op_bind (Y := ∅) (by simp [hx]) (by simp) (fun x4 => ?_) (by ext; simp)
  refine Draws.op_bind (Y := ∅) (by simp) (by simp) (fun x4 => ?_) (by ext; simp)
  exact (draws_op backend _ _ (by simp)).congr (by ext; simp)

theorem MultiHeadAttention.selfAttention_draws (hx : x ∈ K) (hq : m.qProj.parameters ⊆ K)
    (hk : m.kProj.parameters ⊆ K) (hv : m.vProj.parameters ⊆ K) (ho : m.oProj.parameters ⊆ K) :
    Draws s K (m.selfAttention backend sqrt x) (insert x (m.qProj.parameters ∪ m.kProj.parameters ∪
      m.vProj.parameters ∪ m.oProj.parameters)) := by
  unfold MultiHeadAttention.selfAttention
  simp only
  split
  · exact draws_fail
  split
  · exact draws_fail
  refine ((linear_draws hx hq).bind (Y := {x} ∪ m.kProj.parameters ∪ m.vProj.parameters ∪
    m.oProj.parameters) (by simp [Set.insert_subset_iff, hx, hk, hv, ho]) fun q => ?_).congr
      (by ext; simp; tauto)
  have ho : m.oProj.parameters ⊆ insert q K := ho.trans (Set.subset_insert q K)
  refine ((linear_draws (by simp [hx]) fun w hw => by simp [hk hw]).bind (Y := {q, x} ∪
    m.vProj.parameters ∪ m.oProj.parameters) (Set.union_subset (Set.union_subset
      (by simp [Set.insert_subset_iff, hx]) fun w hw => by simp [hv hw]) ho) fun k => ?_).congr
        (by ext; simp; tauto)
  have ho := ho.trans (Set.subset_insert k _)
  refine ((linear_draws (by simp [hx]) fun w hw => by simp [hv hw]).bind
    (Y := {q, k} ∪ m.oProj.parameters) (Set.union_subset (by simp [Set.insert_subset_iff]) ho)
      fun v => ?_).congr (by ext; simp; tauto)
  have ho := ho.trans (Set.subset_insert v _)
  refine ((splitHeads_draws (by simp)).bind (Y := {k, v} ∪ m.oProj.parameters)
    (Set.union_subset (by simp [Set.insert_subset_iff]) ho) fun q => ?_).congr (by ext; simp; tauto)
  have ho := ho.trans (Set.subset_insert q _)
  refine ((splitHeads_draws (by simp)).bind (Y := {v, q} ∪ m.oProj.parameters)
    (Set.union_subset (by simp [Set.insert_subset_iff]) ho) fun k => ?_).congr (by ext; simp; tauto)
  have ho := ho.trans (Set.subset_insert k _)
  refine ((splitHeads_draws (by simp)).bind (Y := {q, k} ∪ m.oProj.parameters)
    (Set.union_subset (by simp [Set.insert_subset_iff]) ho) fun v => ?_).congr (by ext; simp; tauto)
  have ho := ho.trans (Set.subset_insert v _)
  refine ((attend_draws (by simp) (by simp) (by simp)).bind (Y := m.oProj.parameters) ho
    fun context => ?_).congr (by ext; simp; tauto)
  have ho := ho.trans (Set.subset_insert context _)
  refine ((mergeHeads_draws (by simp)).bind (Y := m.oProj.parameters) ho
    fun context => ?_).congr (by ext; simp)
  exact linear_draws (by simp) (ho.trans (Set.subset_insert context _))

end Paths

/-! ## No training -/

section Training

variable {F : Type} {backend : Backend (Tensor F)} {s : Nat} {K X : Set (Var F)}
  {prog : Taped F (Var F)} {g : Tensor F}
  {slots : Nat → Option (Tensor F)}

/-- A slot gets a gradient exactly if the output has a path to it from a source that is at hand. -/
theorem gradients_isSome (hs : s < 9) (hprog : Draws s K prog X)
    (hK : ∀ v ∈ K, v.Valid 9) (hrun : gradients backend prog g trainingHeap = .ok slots) :
    (slots s).isSome ↔ ∃ v ∈ X, v.Feeds trainingHeap s := by
  have hempty : ∀ k, (trainingHeap : Heap (Tensor F)).nodes k = Record.absent := fun _ => rfl
  have hheap : (trainingHeap : Heap (Tensor F)).Recorded := by
    refine ⟨fun k n hn => ?_, fun k b g entries happly entry hentry => ?_⟩
    · rw [hempty] at hn
      cases hn
    · cases happly
      cases hentry
  obtain ⟨⟨loss, heap⟩, hloss, hrun⟩ := bind_eq_ok.1 hrun
  have hdrawn : Drawn s X trainingHeap loss heap := by
    refine (hprog.bind (Set.empty_subset K) fun out => ?_).congr (Set.union_empty X) _ _ _ hheap hs hK
      hloss
    refine ((draws_constant g).bind (Y := {out}) (by simp) fun weight => ?_).congr (by simp)
    refine ((draws_op backend _ _ (by simp)).bind (Set.empty_subset _) fun product => ?_).congr
      (by ext; simp)
    exact (draws_op backend _ _ (by simp)).congr (by ext; simp)
  simp only at hrun
  split at hrun
  · next hback =>
    cases hrun
    rw [backwardFrom_fills_iff hdrawn.recorded hdrawn.valid hdrawn.tied rfl hback]
    exact hdrawn.feeds
  · cases hrun
  · cases hrun

theorem leafAt_valid (tensor : Tensor F) {slot : Nat} (h : slot < 9) :
    (leafAt tensor slot).Valid 9 :=
  ⟨fun _ hk => (Option.some_ne_none _ hk.symm).elim, h⟩

/-- Multi-head attention leaves a gradient in the weight of the query projection, single-head
attention leaves none. -/
theorem query_slots [Field F] {backend : Backend (Tensor F)} {sqrt : F → F} {ps : Projections F}
    {d : Nat} {x g : Tensor F} {a b : Nat → Option (Tensor F)}
    (ha : gradients backend ((singleHead ps d).forward backend sqrt (leafAt x 0)) g trainingHeap =
      .ok a)
    (hb : gradients backend ((multiHead ps d).selfAttention backend sqrt (leafAt x 0)) g
      trainingHeap = .ok b) : a 1 = none ∧ b 1 ≠ none := by
  let known : Set (Var F) := {v | v.Valid 9}
  have hleaf : ∀ (tensor : Tensor F) {slot : Nat}, slot < 9 → leafAt tensor slot ∈ known :=
    fun tensor _ h => leafAt_valid tensor h
  have hlinear : ∀ (p : Projection F) {slot : Nat}, slot < 8 →
      (p.linear d slot).parameters ⊆ known := by
    rintro p slot hslot v (rfl | hv)
    · exact hleaf _ (by omega)
    · cases hv
      exact hleaf _ (by omega)
  have hx : leafAt x 0 ∈ known := hleaf x (by decide)
  have hsingle := gradients_isSome (s := 1) (by decide) (SingleHeadAttention.forward_draws hx
    (hlinear ps.q (by decide)) (hlinear ps.k (by decide)) (hlinear ps.v (by decide))
    (hlinear ps.o (by decide))) (fun _ hv => hv) ha
  have hmulti := gradients_isSome (s := 1) (by decide) (MultiHeadAttention.selfAttention_draws hx
    (hlinear ps.q (by decide)) (hlinear ps.k (by decide)) (hlinear ps.v (by decide))
    (hlinear ps.o (by decide))) (fun _ hv => hv) hb
  have hnone : ¬ (a 1).isSome := fun h => by simpa using hsingle.1 h
  have hsome : (b 1).isSome := hmulti.2
    ⟨leafAt ps.q.weight 1, .inr (.inl (.inl (.inl (.inl rfl)))), .inl rfl⟩
  exact ⟨Option.not_isSome_iff_eq_none.1 hnone, Option.isSome_iff_ne_none.1 hsome⟩

theorem ne_none_of_rel {T : Type} {R : T → T → Prop} {a b : Option T} :
    Option.Rel R a b → b ≠ none → a ≠ none
  | .some _, _ => Option.some_ne_none _
  | .none, hb => hb

theorem not_trainsAlike [Field F] (backend : Backend (Tensor F)) (sqrt : F → F)
    (ps : Projections F) (d : Nat) (x : Tensor F) : ¬ TrainsAlike backend sqrt ps d x := by
  rintro ⟨_, hgrad⟩
  obtain ⟨a, b, ha, hb, hsame⟩ := hgrad x
  obtain ⟨hnone, hsome⟩ := query_slots ha hb
  exact ne_none_of_rel (hsame 1 (by decide)) hsome hnone

end Training

def oneCell : Tensor ℚ where
  storage := [1]
  layout := contiguous [1, 1, 1] .f32

def unitProjection : Projection ℚ where
  weight := { storage := [1], layout := contiguous [1, 1] .f32 }
  bias := { storage := [0], layout := contiguous [1] .f32 }

def unitProjections : Projections ℚ where
  q := unitProjection
  k := unitProjection
  v := unitProjection
  o := unitProjection

theorem oneCell_not_alike : ¬ ∃ backend : Backend (Tensor ℚ),
    TrainsAlike backend (fun x => x) unitProjections 1 oneCell := by
  rintro ⟨backend, _, hgrad⟩
  obtain ⟨a, b, ha, hb, hsame⟩ := hgrad oneCell
  obtain ⟨hnone, hsome⟩ := query_slots ha hb
  exact ne_none_of_rel (hsame 1 (by decide)) hsome hnone

end Recorded
end Nn
end Rustorch
