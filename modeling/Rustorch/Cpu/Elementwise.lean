import Rustorch.Core.Dense
import Rustorch.Lib.Chunks

/-!
# Binary elementwise kernels

`mapBinary` applies a scalar function to two broadcast tensors.  Tensors of one shape that are
flagged contiguous and start at offset 0 take a direct loop over the buffers; all others take a
loop over expanded strides.  Both loops read an operand as if it were row-major from its offset
(`mapBinary_eq`), so the result is right exactly when the operands hold their elements there
(`mapBinary_correct_iff`).
-/

namespace Rustorch
namespace Cpu

open Rustorch.Core List Outcome Traversal Chunks Layout

inductive BackendError
  | shapeMismatch (op : String) (lhs rhs : List Nat)
  | dtypeMismatch (op : String) (lhs rhs : Dtype)
  | outOfMemory (bytes : Nat)
  | unsupportedOp (op device : String)
  | numericalError (msg : String)
  | indexOutOfBounds (op : String) (index : Int) (bound : Nat)
  deriving DecidableEq, Repr

section Kernel

variable {α β : Type}

/-! ## The plan -/

structure BinaryOpPlan where
  outShape : Shape
  lhsStrides : List Int
  rhsStrides : List Int
  lhsOffset : Nat
  rhsOffset : Nat
  deriving DecidableEq, Repr

def BinaryOpPlan.build (lhs rhs : Tensor α) (opName : String) :
    Except BackendError BinaryOpPlan :=
  if lhs.layout.dtype ≠ rhs.layout.dtype then
    .error (.dtypeMismatch opName lhs.layout.dtype rhs.layout.dtype)
  else
    let mismatch := BackendError.shapeMismatch opName lhs.shape rhs.shape
    match broadcastWith lhs.shape rhs.shape with
    | .error _ => .error mismatch
    | .ok outShape =>
      match expandStridesTo lhs.shape outShape with
      | .error _ => .error mismatch
      | .ok lhsStrides =>
        match expandStridesTo rhs.shape outShape with
        | .error _ => .error mismatch
        | .ok rhsStrides =>
          .ok
            { outShape := outShape
              lhsStrides := lhsStrides
              rhsStrides := rhsStrides
              lhsOffset := lhs.layout.storageOffset
              rhsOffset := rhs.layout.storageOffset }

def BinaryOpPlan.numel (plan : BinaryOpPlan) : Nat :=
  Core.numel plan.outShape

/-! ## The kernel -/

/-- `Vec::with_capacity`: a panic when the bytes exceed `isize::MAX`. -/
def withCapacity (U : Dtype) (n : Nat) : Outcome BackendError Unit :=
  if n * U.byteSize < 2 ^ 63 then
    .ok ()
  else
    .panic

/-- `&raw[..n]`. -/
def sliceTo (raw : List α) (n : Nat) : Outcome BackendError (List α) :=
  if n ≤ raw.length then
    .ok (raw.take n)
  else
    .panic

/-- `from_vec_typed` with its error mapped to `OutOfMemory`. -/
def fromVecOrOom (U : Dtype) (shape : Shape) (data : List β) (n : Nat) :
    Outcome BackendError (Tensor β) :=
  mapErr (fun _ => .outOfMemory (n * U.byteSize))
    (ofExcept (fromVecTyped U shape data))

def parallelBinaryThreshold : Nat := 16384

def parallelChunk : Nat := 8192

def mapBinaryContiguousParallel (U : Dtype) (f : α → α → β) (lhs rhs : Tensor α) :
    Outcome BackendError (Tensor β) := do
  let n := lhs.numel
  let lhsSlice ← sliceTo lhs.storage n
  let rhsSlice ← sliceTo rhs.storage n
  withCapacity U n
  let out :=
    if n < parallelBinaryThreshold then
      zipWith f lhsSlice rhsSlice
    else
      (zipWith (zipWith f) (chunks parallelChunk lhsSlice)
        (chunks parallelChunk rhsSlice)).flatten
  fromVecOrOom U lhs.shape out n

/-- The loop over linear indices; `none` is an index past a buffer. -/
def BinaryOpPlan.loop (plan : BinaryOpPlan) (f : α → α → β) (lhsRaw rhsRaw : List α) :
    Option (List β) :=
  (range plan.numel).mapM fun i =>
    Option.map₂ f lhsRaw[linearToOffset i plan.outShape plan.lhsStrides plan.lhsOffset]?
      rhsRaw[linearToOffset i plan.outShape plan.rhsStrides plan.rhsOffset]?

def mapBinaryStrided (U : Dtype) (opName : String) (f : α → α → β) (lhs rhs : Tensor α) :
    Outcome BackendError (Tensor β) := do
  let plan ← ofExcept (BinaryOpPlan.build lhs rhs opName)
  withCapacity U plan.numel
  let out ← expect (plan.loop f lhs.storage rhs.storage)
  fromVecOrOom U plan.outShape out plan.numel

def mapBinary (T U : Dtype) (opName : String) (f : α → α → β) (lhs rhs : Tensor α) :
    Outcome BackendError (Tensor β) :=
  if lhs.layout.dtype ≠ T then
    .err (.dtypeMismatch opName lhs.layout.dtype T)
  else if rhs.layout.dtype ≠ T then
    .err (.dtypeMismatch opName lhs.layout.dtype rhs.layout.dtype)
  else if lhs.shape = rhs.shape ∧ lhs.layout.isContiguous ∧ rhs.layout.isContiguous ∧
      lhs.layout.storageOffset = 0 ∧ rhs.layout.storageOffset = 0 then
    mapBinaryContiguousParallel U f lhs rhs
  else
    mapBinaryStrided U opName f lhs rhs

/-! ## Both loops read row-major buffers -/

/-- The cell at the row-major position of a multi-index from the offset on. -/
def rowMajorAt (t : Tensor α) (coords : List Nat) : Option α :=
  t.storage[(t.layout.storageOffset + linearOf t.shape coords) % 2 ^ 64]?

/-- The result of both loops: the operands are read at the restricted multi-index, as row-major
buffers. -/
def broadcastLoop (S : Shape) (f : α → α → β) (lhs rhs : Tensor α) : Option (List β) :=
  (range (Core.numel S)).mapM fun i =>
    Option.map₂ f (rowMajorAt lhs (restrict lhs.shape S (coordsOf S i)))
      (rowMajorAt rhs (restrict rhs.shape S (coordsOf S i)))

variable {lhs rhs : Tensor α} {opName : String} {U : Dtype} {f : α → α → β} {S : Shape} {T : Dtype}
  {coords : List Nat} {data : List β}

theorem loop_eq {plan : BinaryOpPlan} (f : α → α → β) :
    BinaryOpPlan.build lhs rhs opName = .ok plan →
      plan.loop f lhs.storage rhs.storage = broadcastLoop plan.outShape f lhs rhs := by
  intro h
  unfold BinaryOpPlan.build at h
  split at h
  · cases h
  · simp only at h
    split at h
    · cases h
    · rename_i S hS
      obtain ⟨hl, hr⟩ := broadcastWith_stretches hS
      split at h
      · cases h
      · rename_i ls hls
        split at h
        · cases h
        · rename_i rs hrs
          cases h
          refine mapM_congr ?_
          intro i hi
          have h0 : 0 ∉ S := zero_not_mem_of_lt_numel (mem_range.1 hi)
          simp only [linearToOffset_expand hl hls h0, linearToOffset_expand hr hrs h0]
          rfl

theorem build_eq (opName : String) : lhs.layout.dtype = rhs.layout.dtype →
      (∀ S, broadcastWith lhs.shape rhs.shape = .ok S →
        ∃ plan, BinaryOpPlan.build lhs rhs opName = .ok plan ∧ plan.outShape = S) ∧
      (∀ e, broadcastWith lhs.shape rhs.shape = .error e →
        BinaryOpPlan.build lhs rhs opName =
          .error (.shapeMismatch opName lhs.shape rhs.shape)) := by
  intro hdtype
  constructor
  · intro S hS
    obtain ⟨hl, hr⟩ := broadcastWith_stretches hS
    obtain ⟨ls, hls, _⟩ := expandStridesTo_spec hl
    obtain ⟨rs, hrs, _⟩ := expandStridesTo_spec hr
    simp [BinaryOpPlan.build, hdtype, hS, hls, hrs]
  · intro e he
    simp [BinaryOpPlan.build, hdtype, he]

theorem mapBinaryStrided_ok :
    lhs.layout.dtype = rhs.layout.dtype → broadcastWith lhs.shape rhs.shape = .ok S →
      mapBinaryStrided U opName f lhs rhs = (do
        withCapacity U (Core.numel S)
        let out ← expect (broadcastLoop S f lhs rhs)
        fromVecOrOom U S out (Core.numel S)) := by
  intro hdtype hS
  obtain ⟨plan, hplan, rfl⟩ := (build_eq opName hdtype).1 S hS
  simp only [mapBinaryStrided, hplan, ofExcept_ok, ok_bind, loop_eq f hplan]
  rfl

theorem mapBinaryContiguousParallel_eq :
    lhs.shape = rhs.shape → lhs.layout.storageOffset = 0 → rhs.layout.storageOffset = 0 →
      mapBinaryContiguousParallel U f lhs rhs = (do
        withCapacity U (Core.numel lhs.shape)
        let out ← expect (broadcastLoop lhs.shape f lhs rhs)
        fromVecOrOom U lhs.shape out (Core.numel lhs.shape)) := by
  intro hshape hl0 hr0
  -- with equal shapes and no offset, the strided loop reads cell `i` of the buffer
  have hcell : ∀ t : Tensor α, t.shape = lhs.shape → t.layout.storageOffset = 0 →
      ∀ i < lhs.numel, rowMajorAt t (restrict t.shape lhs.shape (coordsOf lhs.shape i)) =
        t.storage[i]? := by
    intro t ht h0 i hi
    have hprod : i < lhs.shape.prod := lt_of_lt_of_le hi (Nat.mod_le _ _)
    have hsize : lhs.numel < 2 ^ 64 := numel_lt lhs.shape
    have hb : InBounds lhs.shape (coordsOf lhs.shape i) :=
      inBounds_coordsOf (zero_not_mem_of_lt_numel hi)
    rw [rowMajorAt, ht, restrict_self hb,
      linearOf_coordsOf hprod, h0, Nat.zero_add, Nat.mod_eq_of_lt (by omega)]
  have hloop : broadcastLoop lhs.shape f lhs rhs =
      (range lhs.numel).mapM (fun i => Option.map₂ f lhs.storage[i]? rhs.storage[i]?) := by
    refine mapM_congr ?_
    intro i hi
    rw [hcell lhs rfl hl0 i (mem_range.1 hi), hcell rhs hshape.symm hr0 i (mem_range.1 hi)]
  have hn : Core.numel lhs.shape = lhs.numel := rfl
  rw [mapBinaryContiguousParallel, hloop, hn]
  by_cases hroom : lhs.numel ≤ lhs.storage.length ∧ lhs.numel ≤ rhs.storage.length
  · have hlen : (lhs.storage.take lhs.numel).length = (rhs.storage.take lhs.numel).length := by
      simp [hroom.1, hroom.2]
    simp only [sliceTo, hroom.1, hroom.2, if_true, ok_bind,
      mapM_range_getElem? f hroom.1 hroom.2, expect_some,
      flatten_zipWith_chunks (show 0 < parallelChunk by decide) f _ _ hlen, ite_self]
  · -- One buffer is too short: both loops panic.
    have hnone : (range lhs.numel).mapM
        (fun i => Option.map₂ f lhs.storage[i]? rhs.storage[i]?) = none := by
      rcases not_and_or.1 hroom with h | h
      · exact mapM_eq_none (mem_range.2 (not_le.1 h)) (by simp)
      · exact mapM_eq_none (mem_range.2 (not_le.1 h)) (by simp)
    have hslice : (sliceTo lhs.storage lhs.numel : Outcome BackendError (List α)) = .panic ∨
        (sliceTo rhs.storage lhs.numel : Outcome BackendError (List α)) = .panic := by
      rcases not_and_or.1 hroom with h | h
      · exact Or.inl (if_neg h)
      · exact Or.inr (if_neg h)
    rw [hnone]
    rcases hslice with h | h
    · rw [h]
      unfold withCapacity
      split <;> rfl
    · rw [h]
      unfold sliceTo withCapacity
      split <;> split <;> rfl

/-- Whichever loop runs, the operands are read as row-major buffers from their offsets on. -/
theorem mapBinary_eq : lhs.layout.dtype = T → rhs.layout.dtype = T →
      mapBinary T U opName f lhs rhs =
        (match broadcastWith lhs.shape rhs.shape with
        | .error _ => .err (.shapeMismatch opName lhs.shape rhs.shape)
        | .ok S => (do
            withCapacity U (Core.numel S)
            let out ← expect (broadcastLoop S f lhs rhs)
            fromVecOrOom U S out (Core.numel S))) := by
  intro hl hr
  unfold mapBinary
  rw [if_neg (not_not.2 hl), if_neg (not_not.2 hr)]
  split
  · rename_i hfast
    rw [mapBinaryContiguousParallel_eq hfast.1 hfast.2.2.2.1 hfast.2.2.2.2, ← hfast.1,
      broadcastWith_self]
  · cases hS : broadcastWith lhs.shape rhs.shape with
    | ok S =>
      exact mapBinaryStrided_ok (hl.trans hr.symm) hS
    | error e =>
      rw [mapBinaryStrided, (build_eq opName (hl.trans hr.symm)).2 e hS]
      rfl

/-! ## Correctness -/

/-- The logical element at a multi-index. -/
def elementAt (t : Tensor α) (coords : List Nat) : Option α :=
  t.storage[address t.layout.axes t.layout.storageOffset coords]?

/-- The tensor holds its elements in row-major order from its offset on. -/
def RowMajor (t : Tensor α) : Prop :=
  ∀ coords, InBounds t.shape coords → rowMajorAt t coords = elementAt t coords

/-- What a binary kernel should return: a tensor of the broadcast shape with the function's value
at every multi-index, and an error when the shapes do not broadcast. -/
def Elementwise (f : α → α → β) (lhs rhs : Tensor α)
    (result : Outcome BackendError (Tensor β)) : Prop :=
  ((∃ out, result = .ok out) ↔ ∃ S, broadcastWith lhs.shape rhs.shape = .ok S) ∧
    ∀ out S, result = .ok out → broadcastWith lhs.shape rhs.shape = .ok S →
      out.shape = S ∧ ∀ coords, InBounds S coords →
        ∃ a b, elementAt lhs (restrict lhs.shape S coords) = some a ∧
          elementAt rhs (restrict rhs.shape S coords) = some b ∧
            elementAt out coords = some (f a b)

theorem elementAt_isSome {t : Tensor α} :
    t.Readable → InBounds t.shape coords → ∃ a, elementAt t coords = some a := by
  intro h hb
  exact ⟨_, getElem?_eq_getElem (h coords hb)⟩

theorem fromVecOrOom_eq {n : Nat} : data.length = Core.numel S →
      fromVecOrOom U S data n = .ok { storage := data, layout := contiguous S U } := by
  intro h
  simp [fromVecOrOom, fromVecTyped, h, mapErr]

/-- A successful call allocates its output and reads every operand cell. -/
theorem mapBinary_eq_ok {out : Tensor β} :
    lhs.layout.dtype = T → rhs.layout.dtype = T → broadcastWith lhs.shape rhs.shape = .ok S →
      (mapBinary T U opName f lhs rhs = .ok out ↔
        Core.numel S * U.byteSize < 2 ^ 63 ∧ ∃ data, broadcastLoop S f lhs rhs = some data ∧
          out = { storage := data, layout := contiguous S U }) := by
  intro hl hr hS
  have hlen : ∀ data, broadcastLoop S f lhs rhs = some data → data.length = Core.numel S := by
    intro data h
    have hall := Forall₂.length_eq ((mapM_eq_some _ _).1 h)
    simpa using hall.symm
  rw [mapBinary_eq hl hr, hS]
  simp only [withCapacity]
  split
  · rename_i hcap
    cases hloop : broadcastLoop S f lhs rhs with
    | none => simp
    | some data =>
      simp only [ok_bind, expect_some, fromVecOrOom_eq (hlen data hloop)]
      constructor
      · intro h
        cases h
        exact ⟨hcap, data, rfl, rfl⟩
      · rintro ⟨_, data', hdata, rfl⟩
        cases hdata
        rfl
  · rename_i hcap
    constructor
    · intro h
      cases h
    · intro h
      exact absurd h.1 hcap

theorem broadcastLoop_eq_some : S.prod < u64Size → broadcastLoop S f lhs rhs = some data →
      ∀ coords, InBounds S coords →
        ∃ a b, rowMajorAt lhs (restrict lhs.shape S coords) = some a ∧
          rowMajorAt rhs (restrict rhs.shape S coords) = some b ∧
            data[linearOf S coords]? = some (f a b) := by
  intro hfits hloop coords hb
  have hall := (mapM_eq_some _ _).1 hloop
  have hlt : linearOf S coords < Core.numel S := by
    rw [numel_of_fits hfits]
    exact linearOf_lt hb
  have hlen : (range (Core.numel S)).length = data.length := Forall₂.length_eq hall
  have hcell := (forall₂_iff_get.1 hall).2 (linearOf S coords) (by simpa using hlt)
    (by simpa [← hlen] using hlt)
  simp only [get_eq_getElem, getElem_range, coordsOf_linearOf hb, Option.map₂_eq_some_iff] at hcell
  obtain ⟨a, b, ha, hb', hf⟩ := hcell
  refine ⟨a, b, ha, hb', ?_⟩
  rw [getElem?_eq_getElem (by simpa [← hlen] using hlt), ← hf]

theorem elementAt_contiguous : InBounds S coords → linearOf S coords < 2 ^ 64 →
      elementAt { storage := data, layout := contiguous S U } coords =
        data[linearOf S coords]? := by
  intro hb hlt
  have haddr := address_of_contiguous (l := contiguous S U) rfl
    (by rwa [shape_contiguous])
  rw [shape_contiguous] at haddr
  have hoff : (contiguous S U).storageOffset = 0 := rfl
  rw [elementAt, haddr, hoff, Nat.zero_add, Nat.mod_eq_of_lt hlt]

/-- Operands in row-major order are combined element by element. -/
theorem mapBinary_elementwise :
    lhs.layout.dtype = T → rhs.layout.dtype = T → lhs.Readable → rhs.Readable →
      (∀ S, broadcastWith lhs.shape rhs.shape = .ok S →
        0 ∈ S ∨ (S.prod * U.byteSize < 2 ^ 63 ∧ RowMajor lhs ∧ RowMajor rhs)) →
        Elementwise f lhs rhs (mapBinary T U opName f lhs rhs) := by
  intro hl hr hlread hrread hcond
  cases hS : broadcastWith lhs.shape rhs.shape with
  | error e =>
    have hres : mapBinary T U opName f lhs rhs =
        .err (.shapeMismatch opName lhs.shape rhs.shape) := by
      rw [mapBinary_eq hl hr, hS]
    simp [Elementwise, hres, hS]
  | ok S =>
    obtain ⟨hls, hrs⟩ := broadcastWith_stretches hS
    have hok : ∀ out, mapBinary T U opName f lhs rhs = .ok out ↔
        Core.numel S * U.byteSize < 2 ^ 63 ∧ ∃ data, broadcastLoop S f lhs rhs = some data ∧
          out = { storage := data, layout := contiguous S U } := by
      intro out
      exact mapBinary_eq_ok hl hr hS
    rcases hcond S hS with h0 | ⟨hcap, hlrow, hrrow⟩
    · -- an empty shape has no cell to disagree on
      have hn : Core.numel S = 0 := numel_eq_zero_of_mem h0
      have hloop : broadcastLoop S f lhs rhs = some [] := by
        simp [broadcastLoop, hn]
      refine ⟨⟨fun _ => ⟨S, hS⟩, fun _ => ⟨_, (hok _).2 ⟨by simp [hn], [], hloop, rfl⟩⟩⟩, ?_⟩
      intro out S' hout hS'
      cases hS.symm.trans hS'
      obtain ⟨_, data, _, rfl⟩ := (hok out).1 hout
      refine ⟨shape_contiguous S U, ?_⟩
      intro coords hb
      exact absurd h0 (not_mem_of_inBounds hb)
    · have hfits : S.prod < u64Size := by
        have hle : S.prod ≤ S.prod * U.byteSize := Nat.le_mul_of_pos_right _ U.byteSize_pos
        unfold u64Size
        omega
      -- the loop reads row-major, and row-major is where the elements are
      have hread : ∀ coords, InBounds S coords →
          ∃ a b, rowMajorAt lhs (restrict lhs.shape S coords) = some a ∧
            rowMajorAt rhs (restrict rhs.shape S coords) = some b := by
        intro coords hb
        obtain ⟨a, ha⟩ := elementAt_isSome hlread (inBounds_restrict hls hb)
        obtain ⟨b, hb'⟩ := elementAt_isSome hrread (inBounds_restrict hrs hb)
        exact ⟨a, b, (hlrow _ (inBounds_restrict hls hb)).trans ha,
          (hrrow _ (inBounds_restrict hrs hb)).trans hb'⟩
      obtain ⟨data, hloop⟩ : ∃ data, broadcastLoop S f lhs rhs = some data := by
        refine exists_mapM ?_
        intro i hi
        have h0 : 0 ∉ S := zero_not_mem_of_lt_numel (mem_range.1 hi)
        obtain ⟨a, b, ha, hb⟩ := hread _ (inBounds_coordsOf (i := i) h0)
        exact ⟨f a b, by rw [ha, hb]; rfl⟩
      refine ⟨⟨fun _ => ⟨S, hS⟩, fun _ =>
        ⟨_, (hok _).2 ⟨by rwa [numel_of_fits hfits], data, hloop, rfl⟩⟩⟩, ?_⟩
      intro out S' hout hS'
      cases hS.symm.trans hS'
      obtain ⟨_, data', hdata', rfl⟩ := (hok out).1 hout
      refine ⟨shape_contiguous S U, ?_⟩
      intro coords hb
      -- each cell holds the function of what was read for it
      obtain ⟨a, b, ha, hb', hcell⟩ := broadcastLoop_eq_some hfits hdata' coords hb
      refine ⟨a, b, ?_, ?_, ?_⟩
      · exact (hlrow _ (inBounds_restrict hls hb)).symm.trans ha
      · exact (hrrow _ (inBounds_restrict hrs hb)).symm.trans hb'
      · rw [elementAt_contiguous hb (lt_trans (linearOf_lt hb) hfits)]
        exact hcell

/-- A correct call allocated its output, and at every multi-index the function does not tell the
cells that were read from the elements. -/
theorem cells_of_elementwise :
    lhs.layout.dtype = T → rhs.layout.dtype = T → broadcastWith lhs.shape rhs.shape = .ok S →
      0 ∉ S → Elementwise f lhs rhs (mapBinary T U opName f lhs rhs) →
        S.prod * U.byteSize < 2 ^ 63 ∧ ∀ coords, InBounds S coords →
          ∃ a b a' b', elementAt lhs (restrict lhs.shape S coords) = some a ∧
            elementAt rhs (restrict rhs.shape S coords) = some b ∧
              rowMajorAt lhs (restrict lhs.shape S coords) = some a' ∧
                rowMajorAt rhs (restrict rhs.shape S coords) = some b' ∧ f a b = f a' b' := by
  intro hl hr hS h0 hspec
  obtain ⟨out, hout⟩ := hspec.1.2 ⟨S, hS⟩
  obtain ⟨hcap, data, hloop, rfl⟩ := (mapBinary_eq_ok hl hr hS).1 hout
  have hcells := (hspec.2 _ S hout hS).2
  have hlen : data.length = Core.numel S := by
    have hall := Forall₂.length_eq ((mapM_eq_some _ _).1 hloop)
    simpa using hall.symm
  -- A size that wraps leaves a multi-index without a cell: the one at position `numel S`.
  have hfits : S.prod < u64Size := by
    by_contra hge
    have hn : Core.numel S < S.prod := lt_of_lt_of_le (numel_lt S) (not_lt.1 hge)
    have hb : InBounds S (coordsOf S (Core.numel S)) := inBounds_coordsOf h0
    obtain ⟨a, b, _, _, hcell⟩ := hcells _ hb
    rw [elementAt_contiguous hb (by rw [linearOf_coordsOf hn]; exact numel_lt S),
      linearOf_coordsOf hn, getElem?_eq_none (by omega)] at hcell
    cases hcell
  refine ⟨by rwa [numel_of_fits hfits] at hcap, ?_⟩
  intro coords hb
  obtain ⟨a, b, ha, hb₁, hcell⟩ := hcells coords hb
  obtain ⟨a', b', ha', hb', hcell'⟩ := broadcastLoop_eq_some hfits hloop coords hb
  rw [elementAt_contiguous hb (lt_trans (linearOf_lt hb) hfits), hcell'] at hcell
  exact ⟨a, b, a', b', ha, hb₁, ha', hb', (Option.some.inj hcell).symm⟩

/-- Calls that are correct for every function read every operand in row-major order. -/
theorem rowMajor_of_elementwise [Nontrivial β] :
    lhs.layout.dtype = T → rhs.layout.dtype = T → broadcastWith lhs.shape rhs.shape = .ok S →
      0 ∉ S →
        (∀ f : α → α → β, Elementwise f lhs rhs (mapBinary T U opName f lhs rhs)) →
          S.prod * U.byteSize < 2 ^ 63 ∧ RowMajor lhs ∧ RowMajor rhs := by
  classical
  intro hl hr hS h0 hspec
  obtain ⟨u, v, huv⟩ := exists_pair_ne β
  obtain ⟨hls, hrs⟩ := broadcastWith_stretches hS
  refine ⟨(cells_of_elementwise hl hr hS h0 (hspec (fun _ _ => u))).1, ?_, ?_⟩
  · intro coords hb
    obtain ⟨J, hJ, rfl⟩ := exists_restrict hls h0 hb
    obtain ⟨a, _, _, _, ha, _⟩ := (cells_of_elementwise hl hr hS h0 (hspec (fun _ _ => u))).2 J hJ
    -- A function that singles out the element of the left operand.
    obtain ⟨c, d, c', d', hc, _, hc', _, hf⟩ :=
      (cells_of_elementwise hl hr hS h0 (hspec (fun x _ => if x = a then u else v))).2 J hJ
    cases ha.symm.trans hc
    have hca : c' = a := by
      by_contra hne
      simp [hne] at hf
      exact huv hf
    rw [hc', hca, ha]
  · intro coords hb
    obtain ⟨J, hJ, rfl⟩ := exists_restrict hrs h0 hb
    obtain ⟨_, b, _, _, _, hb₁, _⟩ :=
      (cells_of_elementwise hl hr hS h0 (hspec (fun _ _ => u))).2 J hJ
    obtain ⟨c, d, c', d', _, hd, _, hd', hf⟩ :=
      (cells_of_elementwise hl hr hS h0 (hspec (fun _ y => if y = b then u else v))).2 J hJ
    cases hb₁.symm.trans hd
    have hdb : d' = b := by
      by_contra hne
      simp [hne] at hf
      exact huv hf
    rw [hd', hdb, hb₁]

/-- A layout keeps any data in row-major order exactly if it is flagged contiguous. -/
theorem rowMajor_iff [Nontrivial α] {l : Layout} {n : Nat} :
    n < 2 ^ 63 → l.Inside n →
      ((∀ data : List α, data.length = n → RowMajor { storage := data, layout := l }) ↔
        l.isContiguous = true) := by
  intro hn hin
  constructor
  · intro hall
    by_contra hflag
    obtain ⟨coords, hb, hne⟩ := exists_displaced (Bool.eq_false_iff.2 hflag) hn hin
    have hlt : address l.axes l.storageOffset coords < n := by
      rcases hin with h0 | hc
      · exact absurd h0 (not_mem_of_inBounds hb)
      · exact (hc.address_lt hn coords hb).2
    obtain ⟨a, b, hab⟩ := exists_pair_ne α
    -- Mark the cell of the element only.
    have hrow := hall ((replicate n a).set (address l.axes l.storageOffset coords) b) (by simp)
      coords hb
    simp only [rowMajorAt, elementAt, Tensor.shape] at hrow
    generalize (l.storageOffset + linearOf l.shape coords) % 2 ^ 64 = q at hne hrow
    by_cases hq : q < n
    · simp [hne, hlt, hq] at hrow
      exact hab hrow
    · simp [hlt, hq] at hrow
  · intro hflag data _ coords hb
    rw [rowMajorAt, elementAt, address_of_contiguous hflag hb]
    rfl

/-- On reachable tensors of one dtype, `map_binary` is correct for every function exactly if the
shapes do not broadcast, the result is empty, or the result's bytes fit in the word and both
operands hold their elements in row-major order; the latter is true of all data exactly if the
contiguity flag is set. -/
theorem mapBinary_correct_iff [Nontrivial α] [Nontrivial β] {T U : Dtype} {opName : String}
    {lhs rhs : Tensor α} :
    Reachable lhs → Reachable rhs → lhs.layout.dtype = T → rhs.layout.dtype = T →
      ((∀ f : α → α → β, Elementwise f lhs rhs (mapBinary T U opName f lhs rhs)) ↔
        ∀ S, broadcastWith lhs.shape rhs.shape = .ok S →
          0 ∈ S ∨ (S.prod * U.byteSize < 2 ^ 63 ∧ RowMajor lhs ∧ RowMajor rhs)) ∧
      ∀ t : Tensor α, Reachable t →
        ((∀ data : List α, data.length = t.storage.length →
          RowMajor { storage := data, layout := t.layout }) ↔ t.layout.isContiguous = true) := by
  intro hlreach hrreach hl hr
  refine ⟨⟨?_, ?_⟩, ?_⟩
  · intro hspec S hS
    by_cases h0 : 0 ∈ S
    · exact Or.inl h0
    · exact Or.inr (rowMajor_of_elementwise hl hr hS h0 hspec)
  · intro hcond f
    exact mapBinary_elementwise hl hr (reachable_readable hlreach) (reachable_readable hrreach)
      hcond
  · intro t ht
    obtain ⟨hlen, hin⟩ := reachable_inside ht
    exact rowMajor_iff hlen hin

/-- A matrix and a row, for every function. -/
theorem mapBinary_matrix_row :
    ∃ lhs rhs : Tensor Nat, fromVecTyped .f32 [2, 2] [0, 1, 2, 3] = .ok lhs ∧
      fromVecTyped .f32 [2] [10, 20] = .ok rhs ∧
      ∀ f : Nat → Nat → Nat, Elementwise f lhs rhs (mapBinary .f32 .f32 "add" f lhs rhs) := by
  have hlhs : fromVecTyped .f32 [2, 2] [0, 1, 2, 3] = .ok
      { storage := [0, 1, 2, 3], layout := contiguous [2, 2] .f32 } := rfl
  have hrhs : fromVecTyped .f32 [2] [10, 20] = .ok
      { storage := [10, 20], layout := contiguous [2] .f32 } := rfl
  have hl := Reachable.fromVecTyped (by decide) (by decide) hlhs
  have hr := Reachable.fromVecTyped (by decide) (by decide) hrhs
  have hcorrect := @mapBinary_correct_iff Nat Nat _ _ .f32 .f32 "add" _ _ hl hr rfl rfl
  refine ⟨_, _, hlhs, hrhs, hcorrect.1.2 ?_⟩
  intro S hS
  have hshape : S = [2, 2] := (Except.ok.inj hS).symm
  subst hshape
  exact Or.inr ⟨by decide, (hcorrect.2 _ hl).2 rfl _ rfl, (hcorrect.2 _ hr).2 rfl _ rfl⟩

/-- A transposed operand is read as if it had not been transposed. -/
theorem mapBinary_transposed :
    ∃ m t r out : Tensor Nat, fromVecTyped .f32 [2, 2] [0, 1, 2, 3] = .ok m ∧
      m.runView (.transpose 0 1) = .ok t ∧ fromVecTyped .f32 [2, 2] [0, 0, 0, 0] = .ok r ∧
      mapBinary .f32 .f32 "add" (fun a b => a + b) t r = .ok out ∧
      elementAt t [0, 1] = some 2 ∧ elementAt r [0, 1] = some 0 ∧ elementAt out [0, 1] = some 1 :=
  ⟨_, _, _, { storage := [0, 1, 2, 3], layout := contiguous [2, 2] .f32 }, rfl, rfl, rfl,
    rfl, by decide, by decide, by decide⟩

end Kernel

end Cpu
end Rustorch
