import Rustorch.Core.Distinct
import Rustorch.Cpu.Elementwise
import Rustorch.Lib.Scatter

/-!
# In-place arithmetic

`add_`, `sub_`, `mul_` and `div_` rewrite the storage of the left tensor, cell by cell: a direct
loop over both buffers for dense operands of one shape, a loop over strided indices otherwise.
The strided loop writes through the strides of the left tensor, but reads the right one through
strides that are recomputed from its shape, as if it were row-major; `copy_` reads through the
right tensor's own strides.

Both loops write every element once and nothing else (`binaryInplaceTyped_written`), so the
arithmetic is right exactly where the row-major reading of the right tensor gives the same value
(`inPlace_correct_iff`), and a copy is always right.
-/

namespace Rustorch
namespace Cpu

open Rustorch.Core List Chunks Layout

/-! ## Tensors that are written -/

inductive InPlaceError
  | shapeMismatch (op : String) (lhs rhs : List Nat)
  | dtypeMismatch (op : String) (got expected : Dtype)
  | aliased (op : String)
  deriving DecidableEq, Repr

/-- A tensor with its version counter, and whether another handle holds its storage. -/
structure MutTensor (α : Type) where
  tensor : Tensor α
  version : Nat
  storageShared : Bool

namespace MutTensor

variable {α : Type}

/-- An empty buffer is handed out even when it is shared. -/
def storageMutForInplace (t : MutTensor α) : Option (List α) :=
  if t.tensor.storage.isEmpty then
    some t.tensor.storage
  else if t.storageShared then
    none
  else
    some t.tensor.storage

theorem storageMutForInplace_cases (t : MutTensor α) :
    t.storageMutForInplace = none ∨ t.storageMutForInplace = some t.tensor.storage := by
  unfold storageMutForInplace
  split_ifs
  · exact Or.inr rfl
  · exact Or.inl rfl
  · exact Or.inr rfl

/-- The tensor after its storage was rewritten. -/
def write (t : MutTensor α) (storage : List α) : MutTensor α :=
  { t with tensor := { t.tensor with storage := storage } }

/-- The version counter is a `u64`. -/
def bump (t : MutTensor α) : MutTensor α :=
  { t with version := (t.version + 1) % u64Size }

end MutTensor

/-- What a call returns, and the tensor it leaves behind. -/
abbrev InPlaceResult (α : Type) : Type := Outcome InPlaceError Unit × MutTensor α

section Kernel

variable {α : Type}

/-! ## The loops -/

def inplaceParallelMin : Nat := 4000000

/-- The chunk of a parallel loop, for a pool of `threads` threads. -/
def inplaceChunk (threads n : Nat) : Nat :=
  max (n / max threads 1) (256 * 1024)

/-- The direct loop over the first `n` cells of both buffers. -/
def denseWrite (threads : Nat) (f : α → α → α) (lhsRaw rhsRaw : List α) (n : Nat) : List α :=
  let lhsDense := lhsRaw.take n
  let rhsDense := rhsRaw.take n
  let out :=
    if n < inplaceParallelMin then
      zipWith f lhsDense rhsDense
    else
      (zipWith (zipWith f) (chunks (inplaceChunk threads n) lhsDense)
        (chunks (inplaceChunk threads n) rhsDense)).flatten
  out ++ lhsRaw.drop n

/-- How a strided loop ends: it has written all cells, or an index left a buffer. -/
def MutTensor.finish (lhs : MutTensor α) : List α × Bool → InPlaceResult α
  | (storage, true) => (.ok (), (lhs.write storage).bump)
  | (storage, false) => (.panic, lhs.write storage)

/-- `emit_dense_f32_binary`. -/
def denseInplace (threads : Nat) (opName : String) (f : α → α → α) (lhs : MutTensor α)
    (rhs : Tensor α) : InPlaceResult α :=
  let n := lhs.tensor.numel
  if n = 0 then
    (.ok (), lhs)
  else
    match lhs.storageMutForInplace with
    | none => (.err (.aliased opName), lhs)
    | some storage => (.ok (), (lhs.write (denseWrite threads f storage rhs.storage n)).bump)

def binaryInplaceTyped (threads : Nat) (opName : String) (f : α → α → α) (lhs : MutTensor α)
    (rhs : Tensor α) : InPlaceResult α :=
  let n := lhs.tensor.numel
  match expandStridesTo rhs.shape lhs.tensor.shape with
  | .error _ => (.panic, lhs)
  | .ok rhsStrides =>
    match lhs.storageMutForInplace with
    | none => (.err (.aliased opName), lhs)
    | some lhsRaw =>
      if lhs.tensor.layout.storageOffset = 0 ∧ rhs.layout.storageOffset = 0 ∧
          lhs.tensor.shape = rhs.shape ∧ lhs.tensor.layout.isContiguous ∧
          rhs.layout.isContiguous ∧ n ≤ lhsRaw.length ∧ n ≤ rhs.storage.length then
        (.ok (), (lhs.write (denseWrite threads f lhsRaw rhs.storage n)).bump)
      else
        lhs.finish (Scatter.run
          (fun i => linearToOffset i lhs.tensor.shape lhs.tensor.layout.strides
            lhs.tensor.layout.storageOffset)
          (fun i old => (rhs.storage[linearToOffset i lhs.tensor.shape rhsStrides
            rhs.layout.storageOffset]?).map (f old))
          (range n) lhsRaw)

def binaryInplace (threads : Nat) (opName : String) (f : α → α → α) (lhs : MutTensor α)
    (rhs : Tensor α) : InPlaceResult α :=
  if lhs.tensor.layout.dtype ≠ rhs.layout.dtype then
    (.err (.dtypeMismatch opName lhs.tensor.layout.dtype rhs.layout.dtype), lhs)
  else
    match expandStridesTo rhs.shape lhs.tensor.shape with
    | .error _ => (.err (.shapeMismatch opName lhs.tensor.shape rhs.shape), lhs)
    | .ok _ =>
      match lhs.tensor.layout.dtype with
      | .f32 => binaryInplaceTyped threads opName f lhs rhs
      | .f64 => binaryInplaceTyped threads opName f lhs rhs
      | d => (.err (.dtypeMismatch opName d .f32), lhs)

/-- The body that `add_`, `sub_`, `mul_` and `div_` share. -/
def arithInplace (threads : Nat) (opName : String) (f : α → α → α) (lhs : MutTensor α)
    (rhs : Tensor α) : InPlaceResult α :=
  if lhs.tensor.layout.dtype = .f32 ∧ rhs.layout.dtype = .f32 ∧
      lhs.tensor.layout.isContiguous ∧ rhs.layout.isContiguous ∧
      lhs.tensor.layout.storageOffset = 0 ∧ rhs.layout.storageOffset = 0 ∧
      lhs.tensor.shape = rhs.shape then
    denseInplace threads opName f lhs rhs
  else
    binaryInplace threads opName f lhs rhs

def add_ [Add α] (threads : Nat) (lhs : MutTensor α) (rhs : Tensor α) : InPlaceResult α :=
  arithInplace threads "add_" (fun a b => a + b) lhs rhs

def sub_ [Sub α] (threads : Nat) (lhs : MutTensor α) (rhs : Tensor α) : InPlaceResult α :=
  arithInplace threads "sub_" (fun a b => a - b) lhs rhs

def mul_ [Mul α] (threads : Nat) (lhs : MutTensor α) (rhs : Tensor α) : InPlaceResult α :=
  arithInplace threads "mul_" (fun a b => a * b) lhs rhs

def div_ [Div α] (threads : Nat) (lhs : MutTensor α) (rhs : Tensor α) : InPlaceResult α :=
  arithInplace threads "div_" (fun a b => a / b) lhs rhs

def copyInplaceTyped (dst : MutTensor α) (src : Tensor α) : InPlaceResult α :=
  let n := dst.tensor.numel
  match dst.storageMutForInplace with
  | none => (.err (.aliased "copy_"), dst)
  | some dstRaw =>
    dst.finish (Scatter.run
      (fun i => linearToOffset i dst.tensor.shape dst.tensor.layout.strides
        dst.tensor.layout.storageOffset)
      (fun i _ => src.storage[linearToOffset i dst.tensor.shape src.layout.strides
        src.layout.storageOffset]?)
      (range n) dstRaw)

def copy_ (dst : MutTensor α) (src : Tensor α) : InPlaceResult α :=
  if dst.tensor.layout.dtype ≠ src.layout.dtype then
    (.err (.dtypeMismatch "copy_" dst.tensor.layout.dtype src.layout.dtype), dst)
  else if dst.tensor.shape ≠ src.shape then
    (.err (.shapeMismatch "copy_" dst.tensor.shape src.shape), dst)
  else
    match dst.tensor.layout.dtype with
    | .f32 => copyInplaceTyped dst src
    | .f64 => copyInplaceTyped dst src
    | d => (.err (.dtypeMismatch "copy_" d .f32), dst)

/-! ## What a call should do -/

/-- A call should return, leave the tensor alone when it fails, and when it succeeds combine every
element with the broadcast element of the right tensor and touch no other cell. -/
structure InPlaceCorrect (f : α → α → α) (lhs : MutTensor α) (rhs : Tensor α)
    (r : InPlaceResult α) : Prop where
  returns : r.1 ≠ .panic
  failed : ∀ e, r.1 = .err e → r.2 = lhs
  layout : r.1 = .ok () → r.2.tensor.layout = lhs.tensor.layout
  elements : r.1 = .ok () → ∀ coords, InBounds lhs.tensor.shape coords →
    ∃ a b, elementAt lhs.tensor coords = some a ∧
      elementAt rhs (restrict rhs.shape lhs.tensor.shape coords) = some b ∧
        elementAt r.2.tensor coords = some (f a b)
  others : r.1 = .ok () → ∀ k, (∀ coords, InBounds lhs.tensor.shape coords →
    address lhs.tensor.layout.axes lhs.tensor.layout.storageOffset coords ≠ k) →
      r.2.tensor.storage[k]? = lhs.tensor.storage[k]?

/-- The calls write float tensors whose storage no other handle holds, or is empty. -/
def MutTensor.Writable (lhs : MutTensor α) : Prop :=
  lhs.storageMutForInplace = some lhs.tensor.storage ∧ (lhs.tensor.layout.dtype = .f32 ∨ lhs.tensor.layout.dtype = .f64)

/-- If the left tensor can be written, reading the right one as if it were row-major gives the same
value of the function at every element. -/
def ReadsAgree (f : α → α → α) (lhs : MutTensor α) (rhs : Tensor α) : Prop :=
  lhs.Writable → ∀ coords, InBounds lhs.tensor.shape coords → ∀ a b b',
      elementAt lhs.tensor coords = some a →
        elementAt rhs (restrict rhs.shape lhs.tensor.shape coords) = some b →
          rowMajorAt rhs (restrict rhs.shape lhs.tensor.shape coords) = some b' → f a b' = f a b

/-! ## What the loops write -/

variable {lhsRaw rhsRaw : List α}

theorem denseWrite_eq (threads : Nat) (f : α → α → α) {n : Nat} :
    n ≤ lhsRaw.length → n ≤ rhsRaw.length →
      denseWrite threads f lhsRaw rhsRaw n =
        zipWith f (lhsRaw.take n) (rhsRaw.take n) ++ lhsRaw.drop n := by
  intro hl hr
  have hchunk : 0 < inplaceChunk threads n := by
    unfold inplaceChunk
    omega
  have hlen : (lhsRaw.take n).length = (rhsRaw.take n).length := by
    rw [length_take_of_le hl, length_take_of_le hr]
  simp only [denseWrite, flatten_zipWith_chunks hchunk f _ _ hlen, ite_self]

/-- The direct loop rewrites the first `n` cells. -/
theorem denseWrite_written (threads : Nat) (f : α → α → α) {n : Nat} :
    n ≤ lhsRaw.length → n ≤ rhsRaw.length →
      Scatter.Written (fun i => i) (fun i old => rhsRaw[i]?.map (f old)) (range n) lhsRaw
        (denseWrite threads f lhsRaw rhsRaw n) := by
  intro hl hr
  rw [denseWrite_eq threads f hl hr]
  have hlen : (zipWith f (lhsRaw.take n) (rhsRaw.take n)).length = n := by
    rw [length_zipWith, length_take_of_le hl, length_take_of_le hr, Nat.min_self]
  refine ⟨?_, ?_, ?_⟩
  · rw [length_append, hlen, length_drop]
    omega
  · intro i hi
    have hi := mem_range.1 hi
    have hcell : lhsRaw[i]? = some lhsRaw[i] := getElem?_eq_getElem (by omega)
    have hread : rhsRaw[i]? = some rhsRaw[i] := getElem?_eq_getElem (by omega)
    refine ⟨lhsRaw[i], f lhsRaw[i] rhsRaw[i], hcell, by rw [hread]; rfl, ?_⟩
    rw [getElem?_append_left (by omega), getElem?_zipWith, getElem?_take_of_lt hi,
      getElem?_take_of_lt hi, hcell, hread]
  · intro k hk
    have hkn : n ≤ k := by
      by_contra hlt
      exact hk k (mem_range.2 (not_le.1 hlt)) rfl
    rw [getElem?_append_right (by omega), hlen, getElem?_drop]
    congr 1
    omega

/-- The cells and the new contents of a loop over the elements, with one value to combine per
multi-index. -/
abbrev WrittenBy (f : α → α → α) (lhs : Tensor α) (read : List Nat → Option α)
    (storage : List α) : Prop :=
  Scatter.Written lhs.layout.indexAt (fun i old => (read (coordsOf lhs.shape i)).map (f old))
    (range lhs.numel) lhs.storage storage

section Reading

variable {lhs : MutTensor α} {rhs : Tensor α}

/-- The row-major reading of the right tensor stays inside its storage. -/
theorem rowMajorAt_isSome {coords : List Nat} :
    Reachable rhs → InBounds rhs.shape coords → ∃ b, rowMajorAt rhs coords = some b := by
  intro h hb
  have hlt : linearOf rhs.shape coords < rhs.numel :=
    lt_of_lt_of_eq (linearOf_lt hb) (reachable_numel h).symm
  have hroom := reachable_room h hlt
  refine ⟨_, getElem?_eq_getElem ?_⟩
  omega

/-- A loop over the elements with defined reads finishes. -/
theorem exists_written (f : α → α → α) (read : List Nat → Option α) :
    Reachable lhs.tensor →
      (∀ coords, InBounds lhs.tensor.shape coords → ∃ b, read coords = some b) →
        ∃ s, Scatter.run lhs.tensor.layout.indexAt
            (fun i old => (read (coordsOf lhs.tensor.shape i)).map (f old))
            (range lhs.tensor.numel) lhs.tensor.storage = (s, true) ∧
          WrittenBy f lhs.tensor read s := by
  intro hl hread
  have hbounds : ∀ i ∈ range lhs.tensor.numel,
      InBounds lhs.tensor.shape (coordsOf lhs.tensor.shape i) := by
    intro i hi
    exact inBounds_coordsOf (zero_not_mem_of_lt_numel (mem_range.1 hi))
  refine Scatter.run_spec _ _ ?_ ?_ ?_
  · refine (nodup_range).imp_of_mem ?_
    intro i j hi hj hne heq
    exact hne (reachable_indexAt_inj hl (mem_range.1 hi) (mem_range.1 hj) heq)
  · intro i hi
    exact (reachable_index_lt hl i (mem_range.1 hi)).1
  · intro i hi old
    rcases hread _ (hbounds i hi) with ⟨b, hb⟩
    exact ⟨f old b, by rw [hb]; rfl⟩

end Reading

/-! ## From the cells to the elements -/

section Meaning

variable {f : α → α → α} {lhs : MutTensor α} {rhs : Tensor α} {read : List Nat → Option α}
  {s : List α}

theorem elementAt_written {coords : List Nat} {a b : α} :
    Reachable lhs.tensor → WrittenBy f lhs.tensor read s → InBounds lhs.tensor.shape coords →
      elementAt lhs.tensor coords = some a → read coords = some b →
        elementAt (lhs.write s).bump.tensor coords = some (f a b) := by
  intro hl hs hb ha hread
  have hlt : linearOf lhs.tensor.shape coords < lhs.tensor.numel :=
    lt_of_lt_of_eq (linearOf_lt hb) (reachable_numel hl).symm
  have hindex : lhs.tensor.layout.indexAt (linearOf lhs.tensor.shape coords) =
      address lhs.tensor.layout.axes lhs.tensor.layout.storageOffset coords := by
    rw [indexAt_eq]
    exact congrArg _ (coordsOf_linearOf hb)
  rcases hs.visited _ (mem_range.2 hlt) with ⟨old, new, hold, hnew, hset⟩
  rw [coordsOf_linearOf hb, hread, Option.map_some] at hnew
  rw [hindex] at hold hset
  have haold : a = old := Option.some.inj (ha.symm.trans hold)
  cases hnew
  rw [haold]
  exact hset

/-- A finished loop is right exactly if the values read give what the elements of the right tensor
give. -/
theorem inPlaceCorrect_iff_of_written :
    Reachable lhs.tensor → Reachable rhs → Stretches rhs.shape lhs.tensor.shape →
      (∀ coords, InBounds lhs.tensor.shape coords → ∃ b, read coords = some b) →
        WrittenBy f lhs.tensor read s →
          (InPlaceCorrect f lhs rhs (.ok (), (lhs.write s).bump) ↔
            ∀ coords, InBounds lhs.tensor.shape coords → ∀ a b b',
              elementAt lhs.tensor coords = some a →
                elementAt rhs (restrict rhs.shape lhs.tensor.shape coords) = some b →
                  read coords = some b' → f a b' = f a b) := by
  intro hl hr hstretch hread hs
  constructor
  · intro h coords hb a b b' ha hb' hread'
    rcases h.elements rfl coords hb with ⟨a₁, b₁, ha₁, hb₁, hout⟩
    cases ha.symm.trans ha₁
    cases hb'.symm.trans hb₁
    have hwrote := elementAt_written hl hs hb ha hread'
    exact Option.some.inj (hwrote.symm.trans hout)
  · intro hagree
    refine ⟨?_, ?_, ?_, ?_, ?_⟩
    · intro h
      cases h
    · intro e h
      cases h
    · intro _
      rfl
    · intro _ coords hb
      rcases elementAt_isSome (reachable_readable hl) hb with ⟨a, ha⟩
      rcases elementAt_isSome (reachable_readable hr) (inBounds_restrict hstretch hb) with ⟨b, hb'⟩
      rcases hread coords hb with ⟨b', hread'⟩
      refine ⟨a, b, ha, hb', ?_⟩
      rw [elementAt_written hl hs hb ha hread', hagree coords hb a b b' ha hb' hread']
    · intro _ k hk
      refine hs.other k ?_
      intro i hi
      rw [indexAt_eq]
      exact hk _ (inBounds_coordsOf (zero_not_mem_of_lt_numel (mem_range.1 hi)))

/-- A call that fails, and leaves the tensor alone, is right. -/
theorem inPlaceCorrect_err (e : InPlaceError) : InPlaceCorrect f lhs rhs (.err e, lhs) := by
  refine ⟨?_, ?_, ?_, ?_, ?_⟩
  · intro h
    cases h
  · intro _ _
    rfl
  all_goals
    intro h
    cases h

end Meaning

/-! ## Arithmetic -/

section Arith

variable {lhs : MutTensor α} {rhs : Tensor α}

/-- The reads of the arithmetic loops: the right tensor taken as row-major. -/
def rowMajorRead (lhs : MutTensor α) (rhs : Tensor α) (coords : List Nat) : Option α :=
  rowMajorAt rhs (restrict rhs.shape lhs.tensor.shape coords)

theorem rowMajorRead_isSome :
    Reachable rhs → Stretches rhs.shape lhs.tensor.shape →
      ∀ coords, InBounds lhs.tensor.shape coords → ∃ b, rowMajorRead lhs rhs coords = some b := by
  intro hr hstretch coords hb
  exact rowMajorAt_isSome hr (inBounds_restrict hstretch hb)

theorem denseWrite_writtenBy (threads : Nat) (f : α → α → α) :
    Reachable lhs.tensor → Reachable rhs → lhs.tensor.layout.isContiguous = true →
      lhs.tensor.layout.storageOffset = 0 → rhs.layout.storageOffset = 0 →
        lhs.tensor.shape = rhs.shape →
          WrittenBy f lhs.tensor (rowMajorRead lhs rhs)
            (denseWrite threads f lhs.tensor.storage rhs.storage lhs.tensor.numel) := by
  intro hl hr hflag hl0 hr0 hshape
  have hnumel : rhs.numel = lhs.tensor.numel := congrArg Core.numel hshape.symm
  have hle : lhs.tensor.numel ≤ lhs.tensor.storage.length := by
    rw [reachable_numel hl]
    exact reachable_prod_le hl
  have hle' : lhs.tensor.numel ≤ rhs.storage.length := by
    rw [← hnumel, reachable_numel hr]
    exact reachable_prod_le hr
  have hdense := denseWrite_written threads f hle hle'
  have hcell : ∀ i < lhs.tensor.numel, lhs.tensor.layout.indexAt i = i := by
    intro i hi
    rw [reachable_indexAt hl hflag hi, hl0, Nat.zero_add]
  have hread : ∀ i < lhs.tensor.numel,
      rowMajorRead lhs rhs (coordsOf lhs.tensor.shape i) = rhs.storage[i]? := by
    intro i hi
    have hb : InBounds lhs.tensor.shape (coordsOf lhs.tensor.shape i) :=
      inBounds_coordsOf (zero_not_mem_of_lt_numel hi)
    have hlen := (reachable_inside hr).1
    have hlinear : linearOf lhs.tensor.shape (coordsOf lhs.tensor.shape i) = i :=
      linearOf_coordsOf (lt_of_lt_of_eq hi (reachable_numel hl))
    rw [rowMajorRead, rowMajorAt, ← hshape, restrict_self hb, hlinear, hr0, Nat.zero_add,
      Nat.mod_eq_of_lt (by omega)]
  refine ⟨hdense.length, ?_, ?_⟩
  · intro i hi
    have hi' := mem_range.1 hi
    rcases hdense.visited i hi with ⟨old, new, hold, hnew, hset⟩
    exact ⟨old, new, by rw [hcell i hi']; exact hold, by rw [hread i hi']; exact hnew,
      by rw [hcell i hi']; exact hset⟩
  · intro k hk
    refine hdense.other k ?_
    intro i hi
    have hne := hk i hi
    rwa [hcell i (mem_range.1 hi)] at hne

/-- What an arithmetic call does on a float tensor with its storage: it succeeds, and writes every element
combined with the row-major reading. -/
theorem binaryInplaceTyped_written (threads : Nat) (opName : String) (f : α → α → α) :
    Reachable lhs.tensor → Reachable rhs → Stretches rhs.shape lhs.tensor.shape →
      lhs.storageMutForInplace = some lhs.tensor.storage →
        ∃ s, binaryInplaceTyped threads opName f lhs rhs = (.ok (), (lhs.write s).bump) ∧
          WrittenBy f lhs.tensor (rowMajorRead lhs rhs) s := by
  intro hl hr hstretch hmut
  rcases expandStridesTo_spec hstretch with ⟨strides, hstrides, _, _⟩
  unfold binaryInplaceTyped
  simp only [hstrides, hmut]
  split
  · rename_i hdense
    exact ⟨_, rfl, denseWrite_writtenBy threads f hl hr hdense.2.2.2.1 hdense.1 hdense.2.1
      hdense.2.2.1⟩
  · rcases exists_written f (rowMajorRead lhs rhs) hl (rowMajorRead_isSome hr hstretch) with
      ⟨s, hrun, hs⟩
    refine ⟨s, ?_, hs⟩
    have hread : ∀ i ∈ range lhs.tensor.numel, ∀ old,
        (rhs.storage[linearToOffset i lhs.tensor.shape strides rhs.layout.storageOffset]?).map
            (f old) =
          (rowMajorRead lhs rhs (coordsOf lhs.tensor.shape i)).map (f old) := by
      intro i hi old
      rw [linearToOffset_expand hstretch hstrides (zero_not_mem_of_lt_numel (mem_range.1 hi))]
      rfl
    have hcongr := Scatter.run_congr (range lhs.tensor.numel) lhs.tensor.storage
      (fun i _ => linearToOffset_eq lhs.tensor.layout i) hread
    exact (congrArg lhs.finish hcongr).trans (congrArg lhs.finish hrun)

variable {f : α → α → α}

/-- A call that succeeds on a tensor without elements, and leaves it alone, is right. -/
theorem inPlaceCorrect_empty :
    Reachable lhs.tensor → lhs.tensor.numel = 0 → InPlaceCorrect f lhs rhs (.ok (), lhs) := by
  intro hl h0
  refine ⟨?_, ?_, ?_, ?_, ?_⟩
  · intro h
    cases h
  · intro e h
    cases h
  · intro _
    rfl
  · intro _ coords hb
    have hlt := lt_of_lt_of_eq (linearOf_lt hb) (reachable_numel hl).symm
    omega
  · intro _ k _
    rfl

theorem readsAgree_empty : Reachable lhs.tensor → lhs.tensor.numel = 0 → ReadsAgree f lhs rhs := by
  intro hl h0 _ coords hb
  have hlt := lt_of_lt_of_eq (linearOf_lt hb) (reachable_numel hl).symm
  omega

theorem readsAgree_of_shared : lhs.storageMutForInplace = none → ReadsAgree f lhs rhs := by
  intro hnone hw
  cases hnone.symm.trans hw.1

theorem binaryInplaceTyped_shared (threads : Nat) (opName : String) (f : α → α → α) :
    Stretches rhs.shape lhs.tensor.shape → lhs.storageMutForInplace = none →
      binaryInplaceTyped threads opName f lhs rhs = (.err (.aliased opName), lhs) := by
  intro hstretch hnone
  rcases expandStridesTo_spec hstretch with ⟨strides, hstrides, _, _⟩
  simp only [binaryInplaceTyped, hstrides, hnone]

/-- The strided call on a float tensor. -/
theorem binaryInplaceTyped_correct_iff (threads : Nat) (opName : String) (f : α → α → α) :
    Reachable lhs.tensor → Reachable rhs → Stretches rhs.shape lhs.tensor.shape →
      (lhs.tensor.layout.dtype = .f32 ∨ lhs.tensor.layout.dtype = .f64) →
        (InPlaceCorrect f lhs rhs (binaryInplaceTyped threads opName f lhs rhs) ↔
          ReadsAgree f lhs rhs) := by
  intro hl hr hstretch hfloat
  rcases lhs.storageMutForInplace_cases with hnone | hmut
  · rw [binaryInplaceTyped_shared threads opName f hstretch hnone]
    exact iff_of_true (inPlaceCorrect_err _) (readsAgree_of_shared hnone)
  · rcases binaryInplaceTyped_written threads opName f hl hr hstretch hmut with ⟨s, hs, hw⟩
    rw [hs, inPlaceCorrect_iff_of_written hl hr hstretch (rowMajorRead_isSome hr hstretch) hw]
    constructor
    · intro h _
      exact h
    · intro h
      exact h ⟨hmut, hfloat⟩

theorem binaryInplace_correct_iff (threads : Nat) (opName : String) (f : α → α → α) :
    Reachable lhs.tensor → Reachable rhs → lhs.tensor.layout.dtype = rhs.layout.dtype →
      Stretches rhs.shape lhs.tensor.shape →
        (InPlaceCorrect f lhs rhs (binaryInplace threads opName f lhs rhs) ↔
          ReadsAgree f lhs rhs) := by
  intro hl hr hdtype hstretch
  rcases expandStridesTo_spec hstretch with ⟨strides, hstrides, _, _⟩
  have htyped := binaryInplaceTyped_correct_iff threads opName f hl hr hstretch
  simp only [binaryInplace, if_neg (not_not.2 hdtype), hstrides]
  cases hd : lhs.tensor.layout.dtype with
  | f32 => exact htyped (.inl hd)
  | f64 => exact htyped (.inr hd)
  | _ =>
    -- no other type has an arithmetic loop
    refine iff_of_true (inPlaceCorrect_err _) ?_
    intro hw
    simp [MutTensor.Writable, hd] at hw

/-- The direct call, where the operands are dense `f32` tensors of one shape. -/
theorem denseInplace_correct_iff (threads : Nat) (opName : String) (f : α → α → α) :
    Reachable lhs.tensor → Reachable rhs → Stretches rhs.shape lhs.tensor.shape →
      lhs.tensor.layout.dtype = .f32 → lhs.tensor.layout.isContiguous = true →
        lhs.tensor.layout.storageOffset = 0 → rhs.layout.storageOffset = 0 →
          lhs.tensor.shape = rhs.shape →
            (InPlaceCorrect f lhs rhs (denseInplace threads opName f lhs rhs) ↔
              ReadsAgree f lhs rhs) := by
  intro hl hr hstretch hd hflag hl0 hr0 hshape
  by_cases h0 : lhs.tensor.numel = 0
  · simp only [denseInplace, if_pos h0]
    exact iff_of_true (inPlaceCorrect_empty hl h0) (readsAgree_empty hl h0)
  rcases lhs.storageMutForInplace_cases with hnone | hmut
  · have hcall : denseInplace threads opName f lhs rhs = (.err (.aliased opName), lhs) := by
      simp only [denseInplace, if_neg h0, hnone]
    rw [hcall]
    exact iff_of_true (inPlaceCorrect_err _) (readsAgree_of_shared hnone)
  · have hcall : denseInplace threads opName f lhs rhs =
        (.ok (), (lhs.write (denseWrite threads f lhs.tensor.storage rhs.storage
          lhs.tensor.numel)).bump) := by
      simp only [denseInplace, if_neg h0, hmut]
    rw [hcall, inPlaceCorrect_iff_of_written hl hr hstretch (rowMajorRead_isSome hr hstretch)
      (denseWrite_writtenBy threads f hl hr hflag hl0 hr0 hshape)]
    constructor
    · intro h _
      exact h
    · intro h
      exact h ⟨hmut, .inl hd⟩

/-- An arithmetic call is right exactly if the row-major reading of the right tensor makes no
difference. -/
theorem arithInplace_correct_iff (threads : Nat) (opName : String) (f : α → α → α) :
    Reachable lhs.tensor → Reachable rhs → lhs.tensor.layout.dtype = rhs.layout.dtype →
      Stretches rhs.shape lhs.tensor.shape →
        (InPlaceCorrect f lhs rhs (arithInplace threads opName f lhs rhs) ↔
          ReadsAgree f lhs rhs) := by
  intro hl hr hdtype hstretch
  unfold arithInplace
  split
  · rename_i h
    exact denseInplace_correct_iff threads opName f hl hr hstretch h.1 h.2.2.1 h.2.2.2.2.1
      h.2.2.2.2.2.1 h.2.2.2.2.2.2
  · exact binaryInplace_correct_iff threads opName f hl hr hdtype hstretch

theorem readsAgree_of_rowMajor :
    Stretches rhs.shape lhs.tensor.shape → RowMajor rhs → ReadsAgree f lhs rhs := by
  intro hstretch hrow _ coords hb a b b' _ hread hread'
  have heq := hrow _ (inBounds_restrict hstretch hb)
  rw [heq, hread] at hread'
  cases hread'
  rfl

theorem readsAgree_of_contiguous :
    Stretches rhs.shape lhs.tensor.shape → rhs.layout.isContiguous = true →
      ReadsAgree f lhs rhs := by
  intro hstretch hflag
  refine readsAgree_of_rowMajor hstretch ?_
  intro coords hb
  rw [rowMajorAt, elementAt, address_of_contiguous hflag hb]
  rfl

end Arith

/-! ## Copies -/

section Copy

variable {dst : MutTensor α} {src : Tensor α}

theorem copyRead_eq (i : Nat) (old : α) :
    dst.tensor.shape = src.shape →
      src.storage[linearToOffset i dst.tensor.shape src.layout.strides src.layout.storageOffset]? =
        (elementAt src (coordsOf dst.tensor.shape i)).map ((fun _ b => b) old) := by
  intro hshape
  have hindex := linearToOffset_eq src.layout i
  rw [indexAt_eq] at hindex
  rw [hshape, Option.map_id']
  exact congrArg (fun k => src.storage[k]?) hindex

theorem copyInplaceTyped_written :
    Reachable dst.tensor → Reachable src → dst.tensor.shape = src.shape →
      dst.storageMutForInplace = some dst.tensor.storage →
        ∃ s, copyInplaceTyped dst src = (.ok (), (dst.write s).bump) ∧
          WrittenBy (fun _ b => b) dst.tensor (elementAt src) s := by
  intro hd hs hshape hmut
  rcases exists_written (fun _ b => b) (elementAt src) hd
    (fun _ hb => elementAt_isSome (reachable_readable hs) (hshape ▸ hb)) with ⟨s, hrun, hw⟩
  have hcongr := Scatter.run_congr (range dst.tensor.numel) dst.tensor.storage
    (fun i _ => linearToOffset_eq dst.tensor.layout i)
    (fun i _ old => copyRead_eq i old hshape)
  refine ⟨s, ?_, hw⟩
  simp only [copyInplaceTyped, hmut]
  exact (congrArg dst.finish hcongr).trans (congrArg dst.finish hrun)

theorem copyInplaceTyped_correct :
    Reachable dst.tensor → Reachable src → dst.tensor.shape = src.shape →
      InPlaceCorrect (fun _ b => b) dst src (copyInplaceTyped dst src) := by
  intro hd hs hshape
  rcases dst.storageMutForInplace_cases with hnone | hmut
  · have hcall : copyInplaceTyped dst src = (.err (.aliased "copy_"), dst) := by
      simp only [copyInplaceTyped, hnone]
    rw [hcall]
    exact inPlaceCorrect_err _
  · have hstretch : Stretches src.shape dst.tensor.shape := by
      rw [hshape]
      exact (broadcastWith_stretches (broadcastWith_self src.shape)).1
    rcases copyInplaceTyped_written hd hs hshape hmut with ⟨s, hcall, hw⟩
    rw [hcall, inPlaceCorrect_iff_of_written hd hs hstretch
      (fun _ hb => elementAt_isSome (reachable_readable hs) (hshape ▸ hb)) hw]
    intro coords hb a b b' _ hb₁ hb₂
    rw [← hshape, restrict_self hb] at hb₁
    exact Option.some.inj (hb₂.symm.trans hb₁)

theorem copy_correct :
    Reachable dst.tensor → Reachable src → dst.tensor.layout.dtype = src.layout.dtype →
      InPlaceCorrect (fun _ b => b) dst src (copy_ dst src) := by
  intro hd hs hdtype
  simp only [copy_, if_neg (not_not.2 hdtype)]
  split
  · exact inPlaceCorrect_err _
  · rename_i hshape
    have htyped := copyInplaceTyped_correct hd hs (not_not.1 hshape)
    cases hdt : dst.tensor.layout.dtype with
    | f32 => exact htyped
    | f64 => exact htyped
    | _ => exact inPlaceCorrect_err _

theorem copy_ok :
    Reachable dst.tensor → Reachable src → dst.tensor.layout.dtype = src.layout.dtype →
      dst.Writable → dst.tensor.shape = src.shape → (copy_ dst src).1 = .ok () := by
  intro hd hs hdtype hw hshape
  rcases copyInplaceTyped_written hd hs hshape hw.1 with ⟨s, hcall, _⟩
  simp only [copy_, if_neg (not_not.2 hdtype), if_neg (not_not.2 hshape)]
  rcases hw.2 with hfloat | hfloat <;> simp only [hfloat, hcall]

end Copy

/-! ## The calls -/

theorem arithInplace_ok {lhs : MutTensor α} {rhs : Tensor α} (threads : Nat) (opName : String)
    (f : α → α → α) :
    Reachable lhs.tensor → Reachable rhs → lhs.tensor.layout.dtype = rhs.layout.dtype →
      Stretches rhs.shape lhs.tensor.shape → lhs.Writable →
        (arithInplace threads opName f lhs rhs).1 = .ok () := by
  intro hl hr hdtype hstretch hw
  unfold arithInplace
  split
  · simp only [denseInplace, hw.1]
    split <;> rfl
  · rcases binaryInplaceTyped_written threads opName f hl hr hstretch hw.1 with ⟨s, hs, _⟩
    rcases expandStridesTo_spec hstretch with ⟨strides, hstrides, _, _⟩
    simp only [binaryInplace, if_neg (not_not.2 hdtype), hstrides]
    rcases hw.2 with hd | hd <;> simp only [hd, hs]

/-- For tensors of one dtype that views can reach, the right one stretching to the left one: an
arithmetic call is right exactly if reading the right tensor as row-major makes no difference to
any element, a copy is always right, and the calls fail only on tensors that cannot be written, a
copy also on another shape. -/
theorem inPlace_correct_iff [Add α] [Sub α] [Mul α] [Div α] (threads : Nat) (lhs : MutTensor α)
    (rhs : Tensor α) :
    Reachable lhs.tensor → Reachable rhs → lhs.tensor.layout.dtype = rhs.layout.dtype →
      Stretches rhs.shape lhs.tensor.shape →
        (InPlaceCorrect (fun a b => a + b) lhs rhs (add_ threads lhs rhs) ↔
          ReadsAgree (fun a b => a + b) lhs rhs) ∧
        (InPlaceCorrect (fun a b => a - b) lhs rhs (sub_ threads lhs rhs) ↔
          ReadsAgree (fun a b => a - b) lhs rhs) ∧
        (InPlaceCorrect (fun a b => a * b) lhs rhs (mul_ threads lhs rhs) ↔
          ReadsAgree (fun a b => a * b) lhs rhs) ∧
        (InPlaceCorrect (fun a b => a / b) lhs rhs (div_ threads lhs rhs) ↔
          ReadsAgree (fun a b => a / b) lhs rhs) ∧
        InPlaceCorrect (fun _ b => b) lhs rhs (copy_ lhs rhs) ∧
        (lhs.Writable → (add_ threads lhs rhs).1 = .ok () ∧ (sub_ threads lhs rhs).1 = .ok () ∧
          (mul_ threads lhs rhs).1 = .ok () ∧ (div_ threads lhs rhs).1 = .ok () ∧
            (lhs.tensor.shape = rhs.shape → (copy_ lhs rhs).1 = .ok ())) := by
  intro hl hr hdtype hstretch
  refine ⟨?_, ?_, ?_, ?_, copy_correct hl hr hdtype, ?_⟩
  · exact arithInplace_correct_iff threads "add_" _ hl hr hdtype hstretch
  · exact arithInplace_correct_iff threads "sub_" _ hl hr hdtype hstretch
  · exact arithInplace_correct_iff threads "mul_" _ hl hr hdtype hstretch
  · exact arithInplace_correct_iff threads "div_" _ hl hr hdtype hstretch
  · intro hw
    exact ⟨arithInplace_ok threads "add_" _ hl hr hdtype hstretch hw,
      arithInplace_ok threads "sub_" _ hl hr hdtype hstretch hw,
      arithInplace_ok threads "mul_" _ hl hr hdtype hstretch hw,
      arithInplace_ok threads "div_" _ hl hr hdtype hstretch hw, copy_ok hl hr hdtype hw⟩

/-- A row added to a matrix. -/
theorem inPlace_correct_row :
    ∃ m r : Tensor Int, fromVecTyped .f32 [2, 2] [1, 2, 3, 4] = .ok m ∧
      fromVecTyped .f32 [2] [10, 20] = .ok r ∧
        InPlaceCorrect (fun a b => a + b) ⟨m, 0, false⟩ r (add_ 1 ⟨m, 0, false⟩ r) := by
  have hm : fromVecTyped .f32 [2, 2] ([1, 2, 3, 4] : List Int) = .ok
      { storage := [1, 2, 3, 4], layout := contiguous [2, 2] .f32 } := rfl
  have hr : fromVecTyped .f32 [2] ([10, 20] : List Int) = .ok
      { storage := [10, 20], layout := contiguous [2] .f32 } := rfl
  have hstretch : Stretches [2] [2, 2] := (@broadcastWith_stretches [2, 2] [2] [2, 2] rfl).2
  refine ⟨_, _, hm, hr, ?_⟩
  have hcorrect := inPlace_correct_iff 1 ⟨_, 0, false⟩ _
    (.fromVecTyped (by decide) (by decide) hm) (.fromVecTyped (by decide) (by decide) hr) rfl
    hstretch
  exact hcorrect.1.2 (readsAgree_of_contiguous hstretch rfl)

/-- A transposed right tensor is read as if it had not been transposed. -/
theorem add_transposed :
    ∃ m r l : Tensor Int, fromVecTyped .f32 [2, 2] [0, 1, 2, 3] = .ok m ∧
      m.runView (.transpose 0 1) = .ok r ∧ fromVecTyped .f32 [2, 2] [0, 0, 0, 0] = .ok l ∧
        elementAt r [0, 1] = some 2 ∧
          elementAt (add_ 1 ⟨l, 0, false⟩ r).2.tensor [0, 1] = some 1 ∧
            ¬ InPlaceCorrect (fun a b => a + b) ⟨l, 0, false⟩ r (add_ 1 ⟨l, 0, false⟩ r) := by
  refine ⟨_, _, _, rfl, rfl, rfl, by decide, by decide, ?_⟩
  intro h
  have hbounds : InBounds [2, 2] [0, 1] := .cons (by decide) (.cons (by decide) .nil)
  rcases h.elements (by decide) [0, 1] hbounds with ⟨a, b, ha, hb, hout⟩
  have ha₀ : some a = some 0 := ha.symm.trans (by decide)
  have hb₀ : some b = some 2 := hb.symm.trans (by decide)
  have hout₀ : some (a + b) = some 1 := hout.symm.trans (by decide)
  cases ha₀
  cases hb₀
  cases hout₀

end Kernel

end Cpu
end Rustorch
