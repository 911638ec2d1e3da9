import Rustorch.Cpu.Coords
import Rustorch.Lib.Update

/-!
# Gather and scatter

`gather` reads, and `scatter` and `scatter_add` write, at multi-indices whose coordinate on one
axis comes from an index tensor.  That coordinate is checked against its axis; the others are not,
and the flat position of a multi-index outside the tensor may be the position of another element.
The calls validate their indices exactly if all multi-indices are inside, or an index value outside
its axis comes before any position outside the tensor (`gather_scatter_validate_iff`).
-/

namespace Rustorch
namespace Cpu

open Rustorch.Core List Outcome Layout
open LoopNest (indices)

/-! ## The kernels -/

section Model

variable {α : Type}

/-- The check of an index value, and the flat position of the multi-index it completes. -/
def addressOf (op : String) (shape idxShape : Shape) (dim linear : Nat) (iDim : Int) :
    Outcome BackendError Nat :=
  let dimSize := shape.getD dim 0
  if iDim < 0 ∨ dimSize ≤ iDim.toNat then
    .err (.indexOutOfBounds op iDim dimSize)
  else
    .ok (flatIndex ((decodeCoords linear idxShape).set dim iDim.toNat) (contiguousStrides shape))

def gatherTyped (T : Dtype) (src : Tensor α) (dim : Nat) (idx : Tensor Int) :
    Outcome BackendError (Tensor α) := do
  let outShape := idx.shape
  let nOut := numel outShape
  let srcTyped ← collect T src
  let idxTyped ← collect .i64 idx
  withCapacity T nOut
  let out ← (idxTyped.zipIdx.take nOut).mapM fun il => do
    let srcLinear ← addressOf "gather" src.shape outShape dim il.2 il.1
    expect srcTyped[srcLinear]?
  fromVecOrOom T outShape out nOut

/-- The element types that the indexing kernels have an arm for. -/
def indexable (T : Dtype) : Bool :=
  T = .f32 ∨ T = .f64 ∨ T = .i64 ∨ T = .i32

def gather (src : Tensor α) (dim : Nat) (idx : Tensor Int) : Outcome BackendError (Tensor α) :=
  if idx.layout.dtype ≠ .i64 then
    .err (.dtypeMismatch "gather" idx.layout.dtype .i64)
  else if src.shape.length ≠ idx.shape.length then
    .err (.shapeMismatch "gather" src.shape idx.shape)
  else if src.shape.length ≤ dim then
    .err (.indexOutOfBounds "gather" dim src.shape.length)
  else if indexable src.layout.dtype then
    gatherTyped src.layout.dtype src dim idx
  else
    .err (.dtypeMismatch "gather" src.layout.dtype src.layout.dtype)

/-- One iteration of the loop of `scatter_typed`: the cell and the value it takes. -/
def scatterCell (op : String) (dstShape idxShape : Shape) (dim : Nat) (idxTyped : List Int)
    (srcTyped : List α) (linear : Nat) : Outcome BackendError (Nat × α) := do
  let iDim ← expect idxTyped[linear]?
  let dstLinear ← addressOf op dstShape idxShape dim linear iDim
  let v ← expect srcTyped[linear]?
  pure (dstLinear, v)

/-- What a cell becomes. -/
def scatterOp (accumulate : Bool) (add : α → α → α) (old v : α) : α :=
  if accumulate then add old v else v

def scatterTyped (T : Dtype) (dst : Tensor α) (dim : Nat) (idx : Tensor Int) (src : Tensor α)
    (opName : String) (accumulate : Bool) (add : α → α → α) : Outcome BackendError (Tensor α) := do
  let dstTyped ← collect T dst
  let idxTyped ← collect .i64 idx
  let srcTyped ← collect T src
  let out ← Update.checkedLoop (scatterOp accumulate add)
    (scatterCell opName dst.shape idx.shape dim idxTyped srcTyped) (range idx.numel) dstTyped
  fromVecOrOom T dst.shape out dst.numel

def scatterDispatch (add : α → α → α) (dst : Tensor α) (dim : Nat) (idx : Tensor Int)
    (src : Tensor α) (opName : String) (accumulate : Bool) : Outcome BackendError (Tensor α) :=
  if idx.layout.dtype ≠ .i64 then
    .err (.dtypeMismatch opName idx.layout.dtype .i64)
  else if dst.layout.dtype ≠ src.layout.dtype then
    .err (.dtypeMismatch opName dst.layout.dtype src.layout.dtype)
  else if dst.shape.length ≠ idx.shape.length ∨ dst.shape.length ≠ src.shape.length then
    .err (.shapeMismatch opName dst.shape idx.shape)
  else if dst.shape.length ≤ dim then
    .err (.indexOutOfBounds opName dim dst.shape.length)
  else if idx.shape ≠ src.shape then
    .err (.shapeMismatch opName idx.shape src.shape)
  else if indexable dst.layout.dtype then
    scatterTyped dst.layout.dtype dst dim idx src opName accumulate add
  else
    .err (.dtypeMismatch opName dst.layout.dtype dst.layout.dtype)

def scatter (add : α → α → α) (dst : Tensor α) (dim : Nat) (idx : Tensor Int) (src : Tensor α) :
    Outcome BackendError (Tensor α) :=
  scatterDispatch add dst dim idx src "scatter" false

def scatterAdd (add : α → α → α) (dst : Tensor α) (dim : Nat) (idx : Tensor Int)
    (src : Tensor α) : Outcome BackendError (Tensor α) :=
  scatterDispatch add dst dim idx src "scatter_add" true

end Model

/-! ## What the calls should do -/

section Spec

variable {α : Type}

/-- The index is no index of an axis of size `n`. -/
def OutOfRange (n : Nat) (j : Int) : Prop :=
  j < 0 ∨ n ≤ j.toNat

/-- Every multi-index that the call addresses lies inside the tensor of shape `S`. -/
def Inside (S : Shape) (dim : Nat) (idx : Tensor Int) : Prop :=
  ∀ I, InBounds idx.shape I →
    ∃ j, elementAt idx I = some j ∧ 0 ≤ j ∧ InBounds S (I.set dim j.toNat)

/-- In shape order, an index value outside its axis comes before any flat position outside the
tensor of shape `S`. -/
def Rejects (S : Shape) (dim : Nat) (idx : Tensor Int) : Prop :=
  ∃ k < idx.shape.prod,
    (∃ j, elementAt idx (coordsOf idx.shape k) = some j ∧ OutOfRange (S.getD dim 0) j) ∧
      ∀ l < k, ∃ j, elementAt idx (coordsOf idx.shape l) = some j ∧
        ¬ OutOfRange (S.getD dim 0) j ∧
          flatIndex ((coordsOf idx.shape l).set dim j.toNat) (contiguousStrides S) < S.prod

/-- The result of `gather`. -/
structure Gathered (src : Tensor α) (dim : Nat) (idx : Tensor Int) (out : Tensor α) : Prop where
  shape : out.shape = idx.shape
  dtype : out.layout.dtype = src.layout.dtype
  element : ∀ I, InBounds idx.shape I → ∃ j a, elementAt idx I = some j ∧
    elementAt src (I.set dim j.toNat) = some a ∧ elementAt out I = some a

/-- The index tensor sends a multi-index to another one. -/
def Sends (dim : Nat) (idx : Tensor Int) (J I : List Nat) : Bool :=
  (elementAt idx I).map (fun j => I.set dim j.toNat) = some J

/-- The result of a scatter: every element takes the values sent to it, in shape order. -/
structure Scattered (op : α → α → α) (dst : Tensor α) (dim : Nat) (idx : Tensor Int)
    (src out : Tensor α) : Prop where
  shape : out.shape = dst.shape
  dtype : out.layout.dtype = dst.layout.dtype
  element : ∀ J, InBounds dst.shape J → ∃ a vs, elementAt dst J = some a ∧
    ((indices idx.shape).filter (Sends dim idx J)).mapM (elementAt src) = some vs ∧
      elementAt out J = some (vs.foldl op a)

/-- The call succeeds with the right result if its multi-indices are inside, and returns an error
otherwise. -/
def Validates (S : Shape) (dim : Nat) (idx : Tensor Int) (Right : Tensor α → Prop)
    (result : Outcome BackendError (Tensor α)) : Prop :=
  (Inside S dim idx → ∃ out, result = .ok out ∧ Right out) ∧
    (¬ Inside S dim idx → ∃ e, result = .err e)

end Spec

/-! ## One index -/

section Address

variable {S K : Shape} {dim : Nat} {op : String} {g : Nat → Int} {l : Nat}

/-- The flat position that linear index `l` addresses. -/
def flatAt (S K : Shape) (dim : Nat) (g : Nat → Int) (l : Nat) : Nat :=
  flatIndex ((coordsOf K l).set dim (g l).toNat) (contiguousStrides S)

/-- The index value is in range and the position is inside the buffer. -/
def Lands (S K : Shape) (dim : Nat) (g : Nat → Int) (l : Nat) : Prop :=
  ¬ OutOfRange (S.getD dim 0) (g l) ∧ flatAt S K dim g l < S.prod

theorem addressOf_err :
    OutOfRange (S.getD dim 0) (g l) →
      addressOf op S K dim l (g l) = .err (.indexOutOfBounds op (g l) (S.getD dim 0)) := by
  intro h
  exact if_pos h

theorem addressOf_ok :
    ¬ OutOfRange (S.getD dim 0) (g l) → addressOf op S K dim l (g l) = .ok (flatAt S K dim g l) := by
  intro h
  exact if_neg h

theorem address_bind {β : Type} {k : Nat → Outcome BackendError β} :
    (∀ p, S.prod ≤ p → k p = .panic) → (∀ p < S.prod, ∃ y, k p = .ok y) →
      ((∃ e, (addressOf op S K dim l (g l) >>= k) = .err e) ↔ OutOfRange (S.getD dim 0) (g l)) ∧
        ((∃ y, (addressOf op S K dim l (g l) >>= k) = .ok y) ↔ Lands S K dim g l) := by
  intro hpast hinside
  by_cases hout : OutOfRange (S.getD dim 0) (g l)
  · rw [addressOf_err hout]
    refine ⟨⟨fun _ => hout, fun _ => ⟨_, rfl⟩⟩, ?_, ?_⟩
    · rintro ⟨y, hy⟩
      cases hy
    · intro h
      exact absurd hout h.1
  · rw [addressOf_ok hout, ok_bind]
    by_cases hlt : flatAt S K dim g l < S.prod
    · obtain ⟨y, hy⟩ := hinside _ hlt
      rw [hy]
      refine ⟨⟨?_, fun h => absurd h hout⟩, ⟨fun _ => ⟨hout, hlt⟩, fun _ => ⟨y, rfl⟩⟩⟩
      rintro ⟨e, he⟩
      cases he
    · rw [hpast _ (not_lt.1 hlt)]
      refine ⟨⟨?_, fun h => absurd h hout⟩, ⟨?_, fun h => absurd h.2 hlt⟩⟩
      · rintro ⟨e, he⟩
        cases he
      · rintro ⟨y, hy⟩
        cases hy

/-- A coordinate of a multi-index inside is below its axis. -/
theorem lt_of_inBounds_set {I : List Nat} {c : Nat} :
    InBounds S (I.set dim c) → dim < I.length → c < S.getD dim 0 := by
  intro h hdim
  have hlen := h.length_eq
  rw [length_set] at hlen
  have hget := (forall₂_iff_get.1 h).2 dim (by omega) (by simpa using hdim)
  rw [getD_eq_getElem _ _ (by omega)]
  simpa using hget

theorem lands_of_inside (hS : S.prod < u64Size) (hdim : dim < K.length) :
    0 ≤ g l → InBounds S ((coordsOf K l).set dim (g l).toNat) →
      Lands S K dim g l ∧ flatAt S K dim g l = linearOf S ((coordsOf K l).set dim (g l).toNat) := by
  intro hsign hin
  have hflat := flatIndex_eq hin hS
  have hlt := lt_of_inBounds_set hin (by simpa using hdim)
  refine ⟨⟨?_, ?_⟩, hflat⟩
  · rintro (h | h)
    · omega
    · omega
  · rw [flatAt, hflat]
    exact linearOf_lt hin

end Address

/-! ## The predicates by linear index -/

section Linear

variable {S K : Shape} {dim : Nat} {idx : Tensor Int} {g : Nat → Int}

variable (hidx : Holds idx .i64 K g)

include hidx

theorem inside_iff :
    Inside S dim idx ↔ ∀ l < K.prod, 0 ≤ g l ∧ InBounds S ((coordsOf K l).set dim (g l).toNat) := by
  constructor
  · intro h l hl
    obtain ⟨j, hj, hsign, hin⟩ := h (coordsOf K l) (by
      rw [hidx.shape]
      exact inBounds_coordsOf (not_mem_of_lt_prod hl))
    rw [elementAt_coordsOf hidx hl] at hj
    cases hj
    exact ⟨hsign, hin⟩
  · intro h I hI
    rw [hidx.shape] at hI
    obtain ⟨hsign, hin⟩ := h _ (linearOf_lt hI)
    rw [coordsOf_linearOf hI] at hin
    exact ⟨_, elementAt_holds hidx hI, hsign, hin⟩

theorem rejects_iff :
    Rejects S dim idx ↔
      ∃ k < K.prod, OutOfRange (S.getD dim 0) (g k) ∧ ∀ l < k, Lands S K dim g l := by
  unfold Rejects
  rw [hidx.shape]
  refine exists_congr fun k => and_congr_right fun hk => ?_
  rw [elementAt_coordsOf hidx hk]
  refine and_congr ?_ (forall_congr' fun l => imp_congr_right fun hl => ?_)
  · simp
  · rw [elementAt_coordsOf hidx (lt_trans hl hk)]
    simp [Lands, flatAt]

/-- A rejected call addresses a multi-index outside. -/
theorem not_inside_of_rejects (hS : S.prod < u64Size) (hdim : dim < K.length) :
    Rejects S dim idx → ¬ Inside S dim idx := by
  intro hrej hin
  obtain ⟨k, hk, hout, _⟩ := (rejects_iff hidx).1 hrej
  obtain ⟨hsign, hb⟩ := (inside_iff hidx).1 hin k hk
  exact (lands_of_inside hS hdim hsign hb).1.1 hout

/-- A call that runs a loop over the indices validates them exactly if they are inside or one of
them is rejected. -/
theorem validates_iff {α β : Type} {Right : Tensor α → Prop} {step : Nat → Outcome BackendError β}
    {rest : List β → Outcome BackendError (Tensor α)}
    (hS : S.prod < u64Size) (hdim : dim < K.length)
    (hstep : ∀ l < K.prod, ((∃ e, step l = .err e) ↔ OutOfRange (S.getD dim 0) (g l)) ∧
      ((∃ y, step l = .ok y) ↔ Lands S K dim g l))
    (hrest : ∀ ys, (range K.prod).mapM step = .ok ys → ∃ out, rest ys = .ok out)
    (hright : Inside S dim idx → ∃ out, (range K.prod).mapM step >>= rest = .ok out ∧ Right out) :
    Validates S dim idx Right ((range K.prod).mapM step >>= rest) ↔
      Inside S dim idx ∨ Rejects S dim idx := by
  have herr : (∃ e, (range K.prod).mapM step = .err e) ↔ Rejects S dim idx := by
    rw [mapM_range_eq_err, rejects_iff hidx]
    refine exists_congr fun k => and_congr_right fun hk => ?_
    refine and_congr (hstep k hk).1 (forall_congr' fun l => imp_congr_right fun hl => ?_)
    exact (hstep l (lt_trans hl hk)).2
  constructor
  · intro h
    by_cases hin : Inside S dim idx
    · exact Or.inl hin
    · obtain ⟨e, he⟩ := h.2 hin
      refine Or.inr (herr.1 ?_)
      cases hloop : (range K.prod).mapM step with
      | err e' => exact ⟨e', rfl⟩
      | panic =>
        rw [hloop] at he
        cases he
      | ok ys =>
        obtain ⟨out, hout⟩ := hrest ys hloop
        rw [hloop, ok_bind, hout] at he
        cases he
  · rintro (hin | hrej)
    · exact ⟨fun _ => hright hin, fun hnot => absurd hin hnot⟩
    · refine ⟨fun hin => absurd hin (not_inside_of_rejects hidx hS hdim hrej), fun _ => ?_⟩
      obtain ⟨e, he⟩ := herr.2 hrej
      exact ⟨e, by rw [he]; rfl⟩

end Linear

/-! ## Gather -/

section Gather

variable {α : Type} {src : Tensor α} {idx : Tensor Int} {T : Dtype} {S K : Shape} {dim : Nat}
  {f : Nat → α} {g : Nat → Int}

/-- One iteration of the loop of `gather_typed`. -/
def gatherStep (S K : Shape) (dim : Nat) (g : Nat → Int) (f : Nat → α) (l : Nat) :
    Outcome BackendError α :=
  addressOf "gather" S K dim l (g l) >>= fun p => expect ((range S.prod).map f)[p]?

theorem index_bytes (hidx : Holds idx .i64 K g) (T : Dtype) : K.prod * T.byteSize < 2 ^ 63 :=
  lt_of_le_of_lt (Nat.mul_le_mul_left _ (Dtype.byteSize_le T)) hidx.bytes

variable (hsrc : Holds src T S f)

include hsrc

theorem gatherTyped_eq (hidx : Holds idx .i64 K g) :
    gatherTyped T src dim idx =
      (range K.prod).mapM (gatherStep S K dim g f) >>= fun out =>
        fromVecOrOom T K out K.prod := by
  have hvalues : ((range K.prod).map g).zipIdx.take K.prod =
      (range K.prod).map fun l => (g l, l) := by
    apply ext_getElem
    · simp
    · intro l _ _
      simp
  simp only [gatherTyped, hidx.shape, hsrc.shape, collect_holds hsrc, collect_holds hidx,
    numel_of_bytes hidx.bytes, withCapacity_ok (index_bytes hidx T), ok_bind, hvalues,
    mapM_map]
  rfl

omit hsrc in
theorem gatherStep_spec (l : Nat) :
    ((∃ e, gatherStep S K dim g f l = .err e) ↔ OutOfRange (S.getD dim 0) (g l)) ∧
      ((∃ y, gatherStep S K dim g f l = .ok y) ↔ Lands S K dim g l) := by
  refine address_bind ?_ ?_
  · intro p hp
    rw [getElem?_eq_none (by simpa using hp)]
    rfl
  · intro p hp
    exact ⟨f p, by simp [hp]⟩

theorem gatherTyped_inside (hidx : Holds idx .i64 K g) (hdim : dim < K.length)
    (hin : Inside S dim idx) :
    ∃ out, gatherTyped T src dim idx = .ok out ∧ Fresh out T K (fun l => f (flatAt S K dim g l)) := by
  obtain ⟨out, hout, hfresh⟩ := @fromVecOrOom_fresh α T K (fun l => f (flatAt S K dim g l)) K.prod
    (index_bytes hidx T)
  refine ⟨out, ?_, hfresh⟩
  have hloop : (range K.prod).mapM (gatherStep S K dim g f) =
      .ok ((range K.prod).map fun l => f (flatAt S K dim g l)) := by
    refine mapM_eq_ok ?_
    intro l hl
    obtain ⟨hsign, hb⟩ := (inside_iff hidx).1 hin l (mem_range.1 hl)
    obtain ⟨hrange, hlt⟩ := (lands_of_inside (prod_lt_of_bytes hsrc.bytes) hdim hsign hb).1
    rw [gatherStep, addressOf_ok hrange, ok_bind]
    simp [hlt]
  rw [gatherTyped_eq hsrc hidx, hloop, ok_bind, hout]

theorem gathered_of_fresh {out : Tensor α} (hidx : Holds idx .i64 K g) (hdim : dim < K.length)
    (hin : Inside S dim idx) (hout : Fresh out T K (fun l => f (flatAt S K dim g l))) :
    Gathered src dim idx out := by
  refine ⟨hout.shape.trans hidx.shape.symm, hout.dtype.trans hsrc.dtype.symm, ?_⟩
  intro I hI
  rw [hidx.shape] at hI
  obtain ⟨hsign, hb⟩ := (inside_iff hidx).1 hin _ (linearOf_lt hI)
  have hflat := (lands_of_inside (prod_lt_of_bytes hsrc.bytes) hdim hsign hb).2
  rw [coordsOf_linearOf hI] at hb hflat
  refine ⟨_, _, elementAt_holds hidx hI, elementAt_holds hsrc hb, ?_⟩
  rw [elementAt_holds hout.holds hI, hflat]

theorem gatherTyped_validates (hidx : Holds idx .i64 K g) (hdim : dim < K.length) :
    Validates S dim idx (Gathered src dim idx) (gatherTyped T src dim idx) ↔
      Inside S dim idx ∨ Rejects S dim idx := by
  have heq := @gatherTyped_eq α src idx T S K dim f g hsrc hidx
  rw [heq]
  refine validates_iff hidx (prod_lt_of_bytes hsrc.bytes) hdim (fun l _ => gatherStep_spec l) ?_ ?_
  · intro ys hys
    have hlen := (mapM_eq_ok_iff.1 hys).length_eq
    rw [length_range] at hlen
    refine ⟨_, fromVecOrOom_eq ?_⟩
    rw [← hlen, numel_of_bytes hidx.bytes]
  · intro hin
    obtain ⟨out, hout, hfresh⟩ := gatherTyped_inside hsrc hidx hdim hin
    exact ⟨out, heq ▸ hout, gathered_of_fresh hsrc hidx hdim hin hfresh⟩

end Gather

/-! ## Scatter -/

section Scatter

variable {α : Type} {dst src : Tensor α} {idx : Tensor Int} {T : Dtype} {S K : Shape} {dim : Nat}
  {f h : Nat → α} {g : Nat → Int} {op : String} {acc : Bool} {add : α → α → α}

/-- One iteration of the loop of `scatter_typed`, with the bounds check of its write. -/
def scatterStep (op : String) (S K : Shape) (dim : Nat) (g : Nat → Int) (h : Nat → α) (l : Nat) :
    Outcome BackendError (Nat × α) :=
  addressOf op S K dim l (g l) >>= fun p => if p < S.prod then .ok (p, h l) else .panic

variable (hdst : Holds dst T S f) (hidx : Holds idx .i64 K g) (hsrc : Holds src T K h)

include hdst hidx hsrc

theorem scatterTyped_eq :
    scatterTyped T dst dim idx src op acc add =
      (range K.prod).mapM (scatterStep op S K dim g h) >>= fun ps =>
        expect (Update.foldAt (scatterOp acc add) ps ((range S.prod).map f)) >>=
          fun out => fromVecOrOom T S out S.prod := by
  have hcell : ∀ l ∈ range K.prod,
      Update.inRange S.prod (scatterCell op S K dim ((range K.prod).map g)
        ((range K.prod).map h)) l = scatterStep op S K dim g h l := by
    intro l hl
    have hl := mem_range.1 hl
    have hg : ((range K.prod).map g)[l]? = some (g l) := by simp [hl]
    have hh : ((range K.prod).map h)[l]? = some (h l) := by simp [hl]
    rw [Update.inRange, scatterCell, hg, hh, scatterStep]
    simp only [expect_some, ok_bind, bind_assoc, pure_eq]
  have hlen : ((range S.prod).map f).length = S.prod := by simp
  simp only [scatterTyped, hdst.shape, hidx.shape, hidx.numel, hdst.numel, collect_holds hdst,
    collect_holds hidx, collect_holds hsrc, ok_bind, Update.checkedLoop_eq, hlen,
    Traversal.mapM_congr hcell, bind_assoc]

omit hdst hidx hsrc in
theorem scatterStep_spec (l : Nat) :
    ((∃ e, scatterStep op S K dim g h l = .err e) ↔ OutOfRange (S.getD dim 0) (g l)) ∧
      ((∃ y, scatterStep op S K dim g h l = .ok y) ↔ Lands S K dim g l) := by
  refine address_bind ?_ ?_
  · intro p hp
    exact if_neg (not_lt.2 hp)
  · intro p hp
    exact ⟨_, if_pos hp⟩

/-- The values that reach a cell, in shape order. -/
def sentTo (S K : Shape) (dim : Nat) (g : Nat → Int) (h : Nat → α) (j : Nat) : List α :=
  ((range K.prod).filter fun l => flatAt S K dim g l = j).map h

theorem scatterTyped_inside (hdim : dim < K.length) (hin : Inside S dim idx) :
    ∃ out, scatterTyped T dst dim idx src op acc add = .ok out ∧
      Fresh out T S (fun j => (sentTo S K dim g h j).foldl (scatterOp acc add) (f j)) := by
  have hlands : ∀ l < K.prod, Lands S K dim g l := by
    intro l hl
    obtain ⟨hsign, hb⟩ := (inside_iff hidx).1 hin l hl
    exact (lands_of_inside (prod_lt_of_bytes hdst.bytes) hdim hsign hb).1
  have hloop : (range K.prod).mapM (scatterStep op S K dim g h) =
      .ok ((range K.prod).map fun l => (flatAt S K dim g l, h l)) := by
    refine mapM_eq_ok ?_
    intro l hl
    obtain ⟨hrange, hlt⟩ := hlands l (mem_range.1 hl)
    rw [scatterStep, addressOf_ok hrange, ok_bind, if_pos hlt]
  obtain ⟨cells, hcells, hlen, hget⟩ := @Update.foldAt_spec α (scatterOp acc add)
    ((range K.prod).map fun l => (flatAt S K dim g l, h l)) ((range S.prod).map f) (by
      intro p hp
      obtain ⟨l, hl, rfl⟩ := mem_map.1 hp
      simpa using (hlands l (mem_range.1 hl)).2)
  have hcells_eq : cells = (range S.prod).map
      fun j => (sentTo S K dim g h j).foldl (scatterOp acc add) (f j) := by
    apply ext_getElem?
    intro j
    rw [hget, Update.valuesAt_map_range, getElem?_map, getElem?_map]
    by_cases hj : j < S.prod
    · rw [getElem?_range hj]
      rfl
    · rw [getElem?_eq_none (by simpa using hj)]
      rfl
  obtain ⟨out, hout, hfresh⟩ := @fromVecOrOom_fresh α T S
    (fun j => (sentTo S K dim g h j).foldl (scatterOp acc add) (f j)) S.prod hdst.bytes
  refine ⟨out, ?_, hfresh⟩
  rw [scatterTyped_eq hdst hidx hsrc, hloop, ok_bind, hcells, expect_some, ok_bind, hcells_eq, hout]

omit hdst hsrc in
/-- The indices that the index tensor sends to one multi-index. -/
theorem sends_iff (hS : S.prod < u64Size) (hdim : dim < K.length)
    (hin : Inside S dim idx) {J : List Nat} (hJ : InBounds S J) {l : Nat} (hl : l < K.prod) :
    Sends dim idx J (coordsOf K l) = true ↔ flatAt S K dim g l = linearOf S J := by
  obtain ⟨hsign, hb⟩ := (inside_iff hidx).1 hin l hl
  rw [Sends, elementAt_coordsOf hidx hl, (lands_of_inside hS hdim hsign hb).2, decide_eq_true_eq,
    Option.map_some, Option.some.injEq]
  constructor
  · intro h
    rw [h]
  · intro h
    rw [← coordsOf_linearOf hb, h, coordsOf_linearOf hJ]

theorem scattered_of_fresh {out : Tensor α} (hdim : dim < K.length) (hin : Inside S dim idx)
    (hout : Fresh out T S fun j => (sentTo S K dim g h j).foldl (scatterOp acc add) (f j)) :
    Scattered (scatterOp acc add) dst dim idx src out := by
  refine ⟨hout.shape.trans hdst.shape.symm, hout.dtype.trans hdst.dtype.symm, ?_⟩
  intro J hJ
  rw [hdst.shape] at hJ
  refine ⟨_, sentTo S K dim g h (linearOf S J), elementAt_holds hdst hJ, ?_,
    elementAt_holds hout.holds hJ⟩
  rw [hidx.shape, sentTo]
  refine elements_at_filter hsrc ?_
  intro l hl
  exact sends_iff hidx (prod_lt_of_bytes hdst.bytes) hdim hin hJ hl

theorem scatterTyped_validates (hdim : dim < K.length) :
    Validates S dim idx (Scattered (scatterOp acc add) dst dim idx src)
        (scatterTyped T dst dim idx src op acc add) ↔
      Inside S dim idx ∨ Rejects S dim idx := by
  have heq := @scatterTyped_eq α dst src idx T S K dim f h g op acc add hdst hidx hsrc
  rw [heq]
  refine validates_iff hidx (prod_lt_of_bytes hdst.bytes) hdim (fun l _ => scatterStep_spec l) ?_ ?_
  · intro ps hps
    have hin : ∀ p ∈ ps, p.1 < ((range S.prod).map f).length := by
      intro p hp
      obtain ⟨i, hi, rfl⟩ := mem_iff_getElem.1 hp
      have hall := mapM_eq_ok_iff.1 hps
      have hcell := (forall₂_iff_get.1 hall).2 i (by rw [hall.length_eq]; exact hi) hi
      have hlands := (scatterStep_spec i).2.1 ⟨_, by simpa using hcell⟩
      simp only [get_eq_getElem, getElem_range, scatterStep, addressOf_ok hlands.1,
        ok_bind, if_pos hlands.2, ok.injEq] at hcell
      rw [← hcell]
      simpa using hlands.2
    obtain ⟨cells, hcells, hlen, _⟩ := @Update.foldAt_spec α (scatterOp acc add) ps
      ((range S.prod).map f) hin
    refine ⟨{ storage := cells, layout := contiguous S T }, ?_⟩
    rw [hcells, expect_some, ok_bind]
    refine fromVecOrOom_eq ?_
    rw [hlen, numel_of_bytes hdst.bytes]
    simp
  · intro hinside
    obtain ⟨out, hout, hfresh⟩ := @scatterTyped_inside α dst src idx T S K dim f h g op acc add
      hdst hidx hsrc hdim hinside
    exact ⟨out, heq ▸ hout, scattered_of_fresh hdst hidx hsrc hdim hinside hfresh⟩

end Scatter

/-! ## Validation -/

section Validation

variable {α : Type}

variable {dim : Nat} {idx : Tensor Int}

/-- A call without an arm for its operands returns an error, whatever its indices. -/
theorem validates_error {S : Shape} {Right : Tensor α → Prop}
    {result : Outcome BackendError (Tensor α)} {e : BackendError} :
    result = .err e → (Validates S dim idx Right result ↔ ¬ Inside S dim idx) := by
  rintro rfl
  constructor
  · rintro h hin
    obtain ⟨out, hout, _⟩ := h.1 hin
    cases hout
  · intro hnot
    exact ⟨fun hin => absurd hin hnot, fun _ => ⟨e, rfl⟩⟩

/-- The operands of a scatter have an arm. -/
def Scatterable (dst : Tensor α) (idx : Tensor Int) (src : Tensor α) : Prop :=
  dst.layout.dtype = src.layout.dtype ∧ idx.shape = src.shape ∧ indexable dst.layout.dtype = true

variable [Inhabited α]

theorem gather_validates {src : Tensor α} :
    Reachable src → Reachable idx → idx.layout.dtype = .i64 →
      src.shape.length = idx.shape.length → dim < src.shape.length →
        (Validates src.shape dim idx (Gathered src dim idx) (gather src dim idx) ↔
          if indexable src.layout.dtype = true then
            Inside src.shape dim idx ∨ Rejects src.shape dim idx
          else
            ¬ Inside src.shape dim idx) := by
  intro hsrc hidx hi64 hrank hdim
  obtain ⟨f, hf⟩ := reachable_holds hsrc
  obtain ⟨g, hg⟩ := reachable_holds hidx
  rw [hi64] at hg
  rw [gather, if_neg (not_not.2 hi64), if_neg (not_not.2 hrank), if_neg (not_le.2 hdim)]
  by_cases harm : indexable src.layout.dtype = true
  · rw [if_pos harm, if_pos harm]
    exact gatherTyped_validates hf hg (hrank ▸ hdim)
  · rw [if_neg harm, if_neg harm]
    exact validates_error rfl

theorem scatterDispatch_validates {dst src : Tensor α} {add : α → α → α} {op : String} {acc : Bool} :
    Reachable dst → Reachable idx → Reachable src → idx.layout.dtype = .i64 →
      dst.shape.length = idx.shape.length → dst.shape.length = src.shape.length →
        dim < dst.shape.length →
          (Validates dst.shape dim idx (Scattered (scatterOp acc add) dst dim idx src)
              (scatterDispatch add dst dim idx src op acc) ↔
            (Scatterable dst idx src ∧ (Inside dst.shape dim idx ∨ Rejects dst.shape dim idx)) ∨
              (¬ Scatterable dst idx src ∧ ¬ Inside dst.shape dim idx)) := by
  intro hdst hidx hsrc hi64 hrank hrank' hdim
  have hranks : ¬ (dst.shape.length ≠ idx.shape.length ∨ dst.shape.length ≠ src.shape.length) := by
    simp [hrank.symm, hrank'.symm]
  by_cases hs : Scatterable dst idx src
  · obtain ⟨hdtype, hshape, harm⟩ := id hs
    obtain ⟨f, hf⟩ := reachable_holds hdst
    obtain ⟨g, hg⟩ := reachable_holds hidx
    obtain ⟨h, hh⟩ := reachable_holds hsrc
    rw [hi64] at hg
    rw [← hdtype, ← hshape] at hh
    rw [scatterDispatch, if_neg (not_not.2 hi64), if_neg (not_not.2 hdtype), if_neg hranks,
      if_neg (not_le.2 hdim), if_neg (not_not.2 hshape), if_pos harm,
      scatterTyped_validates hf hg hh (hrank ▸ hdim)]
    simp [hs]
  · have herr : ∃ e, scatterDispatch add dst dim idx src op acc = .err e := by
      rw [scatterDispatch, if_neg (not_not.2 hi64), if_neg hranks, if_neg (not_le.2 hdim)]
      split_ifs with hdtype hshape harm
      · exact ⟨_, rfl⟩
      · exact ⟨_, rfl⟩
      · exact absurd ⟨not_not.1 hdtype, not_not.1 hshape, harm⟩ hs
      · exact ⟨_, rfl⟩
    obtain ⟨e, he⟩ := herr
    rw [validates_error he]
    simp [hs]

/-- `gather`, `scatter` and `scatter_add` validate their indices exactly if all multi-indices are
inside, or an index value out of range comes before any position past the buffer. -/
theorem gather_scatter_validate_iff {t v : Tensor α} {dim : Nat} {idx : Tensor Int}
    {add : α → α → α} :
    Reachable t → Reachable idx → Reachable v → idx.layout.dtype = .i64 →
      t.shape.length = idx.shape.length → t.shape.length = v.shape.length →
        dim < t.shape.length →
          (Validates t.shape dim idx (Gathered t dim idx) (gather t dim idx) ↔
            if indexable t.layout.dtype = true then
              Inside t.shape dim idx ∨ Rejects t.shape dim idx
            else
              ¬ Inside t.shape dim idx) ∧
          (Validates t.shape dim idx (Scattered (fun _ b => b) t dim idx v)
              (scatter add t dim idx v) ↔
            (Scatterable t idx v ∧ (Inside t.shape dim idx ∨ Rejects t.shape dim idx)) ∨
              (¬ Scatterable t idx v ∧ ¬ Inside t.shape dim idx)) ∧
          (Validates t.shape dim idx (Scattered add t dim idx v) (scatterAdd add t dim idx v) ↔
            (Scatterable t idx v ∧ (Inside t.shape dim idx ∨ Rejects t.shape dim idx)) ∨
              (¬ Scatterable t idx v ∧ ¬ Inside t.shape dim idx)) := by
  intro ht hidx hv hi64 hrank hrank' hdim
  refine ⟨gather_validates ht hidx hi64 hrank hdim, ?_, ?_⟩
  · exact scatterDispatch_validates ht hidx hv hi64 hrank hrank' hdim
  · exact scatterDispatch_validates ht hidx hv hi64 hrank hrank' hdim

end Validation

/-! ## Indices past another axis -/

/-- The rows 1 2 and 3 4. -/
def square : Tensor Int where
  storage := [1, 2, 3, 4]
  layout := contiguous [2, 2] .f32

/-- Row 0, for three columns. -/
def wideIndex : Tensor Int where
  storage := [0, 0, 0]
  layout := contiguous [1, 3] .i64

def wideValues : Tensor Int where
  storage := [7, 8, 9]
  layout := contiguous [1, 3] .f32

theorem square_reachable : Reachable square :=
  @Reachable.fromVecTyped Int .f32 [2, 2] [1, 2, 3, 4] square (by decide) (by decide) rfl

theorem wideIndex_reachable : Reachable wideIndex :=
  @Reachable.fromVecTyped Int .i64 [1, 3] [0, 0, 0] wideIndex (by decide) (by decide) rfl

theorem wideValues_reachable : Reachable wideValues :=
  @Reachable.fromVecTyped Int .f32 [1, 3] [7, 8, 9] wideValues (by decide) (by decide) rfl

theorem wideIndex_outside : ¬ Inside square.shape 0 wideIndex := by
  intro h
  obtain ⟨j, hj, _, hin⟩ := h [0, 2] (by
    rw [show wideIndex.shape = [1, 3] from shape_contiguous _ _]
    exact .cons (by decide) (.cons (by decide) .nil))
  have hzero : elementAt wideIndex [0, 2] = some 0 := rfl
  rw [hzero] at hj
  cases hj
  rw [show square.shape = [2, 2] from shape_contiguous _ _] at hin
  rcases hin with _ | ⟨_, _ | ⟨hlt, _⟩⟩
  exact absurd hlt (by decide)

/-- The third column of a two-column tensor is read from the next row. -/
theorem gather_wide_not_validates :
    ¬ Validates square.shape 0 wideIndex (Gathered square 0 wideIndex)
      (gather square 0 wideIndex) := by
  intro h
  obtain ⟨e, he⟩ := h.2 wideIndex_outside
  have hok : gather square 0 wideIndex =
      .ok { storage := [1, 2, 3], layout := contiguous [1, 3] .f32 } := rfl
  rw [hok] at he
  cases he

theorem gather_scatter_wide :
    (Validates square.shape 0 wideIndex (Gathered square 0 wideIndex)
        (gather square 0 wideIndex) ↔
      if indexable square.layout.dtype = true then
        Inside square.shape 0 wideIndex ∨ Rejects square.shape 0 wideIndex
      else
        ¬ Inside square.shape 0 wideIndex) :=
  (@gather_scatter_validate_iff Int _ square wideValues 0 wideIndex (· + ·) square_reachable
    wideIndex_reachable wideValues_reachable rfl rfl rfl (by decide)).1

end Cpu
end Rustorch

/-!
# Scatter-add is the adjoint of gather

Gathering from a tensor and adding into a tensor of zeros use the same address for each index, so
each is the adjoint of the other, whether or not an index repeats (`scatterAdd_adjoint_gather`).
-/

namespace Rustorch
namespace Cpu

open Rustorch.Core

variable {R : Type}

/-- Zeros of the shape and element type of a tensor. -/
def zerosLike [Zero R] (t : Tensor R) : Option (Tensor R) :=
  zerosDtype 0 t.shape t.layout.dtype

theorem zerosDtype_fresh [Zero R] {S : Shape} {T : Dtype} (h : S.prod * T.byteSize < 2 ^ 63) :
    ∃ z, zerosDtype (0 : R) S T = some z ∧ Fresh z T S (fun _ => 0) := by
  have hlt : S.prod * T.byteSize < u64Size := lt_trans h (by decide)
  have hlen : S.prod * T.byteSize / T.byteSize = S.prod := Nat.mul_div_cancel _ T.byteSize_pos
  refine ⟨{ storage := List.replicate S.prod 0, layout := Layout.contiguous S T }, ?_, ?_⟩
  · simp only [zerosDtype, numel_of_bytes h, Nat.mod_eq_of_lt hlt, if_pos h, hlen]
  · refine ⟨⟨Layout.shape_contiguous S T, rfl, rfl, h, ?_⟩, rfl⟩
    intro i hi
    have hi64 : i < 2 ^ 64 := lt_trans hi (prod_lt_of_bytes h)
    simp only [Layout.contiguous, Nat.zero_add, Nat.mod_eq_of_lt hi64, List.getElem?_replicate,
      if_pos hi]

variable {src g : Tensor R} {idx : Tensor Int} {T : Dtype} {S K : Shape} {dim : Nat}
  {f v : Nat → R} {j : Nat → Int}

/-- Reading through the addresses. -/
theorem gather_values (harm : indexable T = true) (hsrc : Holds src T S f)
    (hidx : Holds idx .i64 K j) (hrank : S.length = K.length) (hdim : dim < S.length)
    (hin : Inside S dim idx) :
    ∃ y, gather src dim idx = .ok y ∧ Fresh y T K (fun l => f (flatAt S K dim j l)) := by
  obtain ⟨y, hy, hfresh⟩ := gatherTyped_inside hsrc hidx (hrank ▸ hdim) hin
  refine ⟨y, ?_, hfresh⟩
  rw [gather, if_neg (not_not.2 hidx.dtype), if_neg (by simp [hsrc.shape, hidx.shape, hrank]),
    if_neg (by rw [hsrc.shape]; exact not_le.2 hdim), hsrc.dtype, if_pos harm, hy]

variable [CommRing R]

theorem scatterAdd_zeros {z : Tensor R} (harm : indexable T = true)
    (hz : Holds z T S (fun _ => 0)) (hidx : Holds idx .i64 K j) (hg : Holds g T K v)
    (hrank : S.length = K.length) (hdim : dim < S.length) (hin : Inside S dim idx) :
    ∃ s, scatterAdd (· + ·) z dim idx g = .ok s ∧
      Fresh s T S (fun i => ∑ l ∈ (Finset.range K.prod).filter
        (fun l => flatAt S K dim j l = i), v l) := by
  obtain ⟨s, hs, hfresh⟩ := @scatterTyped_inside R z g idx T S K dim (fun _ => 0) v j "scatter_add"
    true (· + ·) hz hidx hg (hrank ▸ hdim) hin
  refine ⟨s, ?_, ⟨hfresh.toDense.of_eq ?_, hfresh.offset⟩⟩
  · have hranks : ¬ (z.shape.length ≠ idx.shape.length ∨ z.shape.length ≠ g.shape.length) := by
      simp [hz.shape, hidx.shape, hg.shape, hrank]
    rw [scatterAdd, scatterDispatch, if_neg (not_not.2 hidx.dtype),
      if_neg (not_not.2 (hz.dtype.trans hg.dtype.symm)), if_neg hranks,
      if_neg (by rw [hz.shape]; exact not_le.2 hdim),
      if_neg (not_not.2 (hidx.shape.trans hg.shape.symm)), hz.dtype, if_pos harm, hs]
  · intro i _
    rw [sentTo, show scatterOp true ((· + ·) : R → R → R) = (· + ·) from rfl, Update.foldl_add,
      zero_add, Update.sum_filter_range]

/-- `scatter_add` is the adjoint of `gather`: for elements of a type that both kernels have an arm
for, the values paired with the gathered elements sum to the scattered values paired with the
elements. -/
theorem scatterAdd_adjoint_gather :
    Reachable src → Reachable idx → Reachable g → idx.layout.dtype = .i64 →
      indexable src.layout.dtype = true → g.layout.dtype = src.layout.dtype →
        src.shape.length = idx.shape.length → dim < src.shape.length → g.shape = idx.shape →
          Inside src.shape dim idx →
            ∃ y z s r, gather src dim idx = .ok y ∧ y.shape = idx.shape ∧
              zerosLike src = some z ∧ scatterAdd (· + ·) z dim idx g = .ok s ∧
                s.shape = src.shape ∧ innerProduct g y = some r ∧ innerProduct s src = some r := by
  intro hsrc hidx hg hi64 harm hdtype hrank hdim hshape hin
  let _ : Inhabited R := ⟨0⟩
  obtain ⟨f, hf⟩ := reachable_holds hsrc
  obtain ⟨j, hj⟩ := reachable_holds hidx
  obtain ⟨v, hv⟩ := reachable_holds hg
  rw [hi64] at hj
  rw [hdtype, hshape] at hv
  obtain ⟨y, hy, hyfresh⟩ := gather_values harm hf hj hrank hdim hin
  obtain ⟨z, hz, hzfresh⟩ := @zerosDtype_fresh R _ src.shape src.layout.dtype hf.bytes
  obtain ⟨s, hs, hsfresh⟩ := scatterAdd_zeros harm hzfresh.holds hj hv hrank hdim hin
  refine ⟨y, z, s, _, hy, hyfresh.shape, hz, hs, hsfresh.shape,
    innerProduct_holds hv hyfresh.holds, ?_⟩
  rw [innerProduct_holds hsfresh.holds hf]
  refine congrArg some ?_
  refine Update.sum_addressed v f ?_
  intro l hl
  obtain ⟨hsign, hb⟩ := (inside_iff hj).1 hin l hl
  exact (lands_of_inside (prod_lt_of_bytes hf.bytes) (hrank ▸ hdim) hsign hb).1.2

/-! ## Examples -/

/-- The second element of the first row, twice. -/
def twiceIndex : Tensor Int where
  storage := [1, 1]
  layout := Layout.contiguous [1, 2] .i64

/-- A row of a given element type. -/
def rowOf (T : Dtype) (a b : Int) : Tensor Int where
  storage := [a, b]
  layout := Layout.contiguous [1, 2] T

theorem twiceIndex_reachable : Reachable twiceIndex :=
  @Reachable.fromVecTyped Int .i64 [1, 2] [1, 1] twiceIndex (by decide) (by decide) rfl

theorem rowOf_reachable (a b : Int) : Reachable (rowOf .f32 a b) :=
  @Reachable.fromVecTyped Int .f32 [1, 2] [a, b] (rowOf .f32 a b) (by decide)
    (by rw [show [a, b].length = 2 from rfl]; decide) rfl

theorem twiceIndex_inside (T : Dtype) (a b : Int) : Inside (rowOf T a b).shape 1 twiceIndex := by
  intro I hI
  rw [show twiceIndex.shape = [1, 2] from Layout.shape_contiguous _ _] at hI
  rcases hI with _ | ⟨hrow, _ | ⟨hcol, _ | _⟩⟩
  rename_i r c
  have hone : elementAt twiceIndex [r, c] = some 1 := by
    have hr : r = 0 := Nat.lt_one_iff.1 hrow
    have hc : c = 0 ∨ c = 1 := by omega
    subst hr
    rcases hc with rfl | rfl
    · rfl
    · rfl
  exact ⟨1, hone, by decide, .cons hrow (.cons (by decide) .nil)⟩

theorem scatterAdd_adjoint_gather_twice :
    ∃ y z s r, gather (rowOf .f32 5 7) 1 twiceIndex = .ok y ∧ y.shape = twiceIndex.shape ∧
      zerosLike (rowOf .f32 5 7) = some z ∧
        scatterAdd (· + ·) z 1 twiceIndex (rowOf .f32 2 3) = .ok s ∧
          s.shape = (rowOf .f32 5 7).shape ∧ innerProduct (rowOf .f32 2 3) y = some r ∧
            innerProduct s (rowOf .f32 5 7) = some r :=
  scatterAdd_adjoint_gather (rowOf_reachable 5 7) twiceIndex_reachable (rowOf_reachable 2 3) rfl rfl
    rfl rfl (by decide) rfl (twiceIndex_inside .f32 5 7)

/-- Neither kernel has an arm for `I8`. -/
theorem gather_i8_rejected :
    Inside (rowOf .i8 5 7).shape 1 twiceIndex ∧
      ¬ ∃ y, gather (rowOf .i8 5 7) 1 twiceIndex = .ok y := by
  refine ⟨twiceIndex_inside .i8 5 7, ?_⟩
  rintro ⟨y, hy⟩
  have herr : gather (rowOf .i8 5 7) 1 twiceIndex = .err (.dtypeMismatch "gather" .i8 .i8) := rfl
  rw [herr] at hy
  cases hy

end Cpu
end Rustorch
