import Mathlib.Data.List.TakeWhile
import Rustorch.Data.DataLoader

/-!
# Every row exactly once

The loaders of all ranks together yield every row of the dataset once, in batches of the stated
sizes, when the element types have an `index_select` arm and the rows are not empty.  Else the
first rank that has a row panics (`covers_iff`).
-/

namespace Rustorch
namespace Data

open Rustorch.Core Cpu List Outcome Rows Chunks Layout DataLoader

section Statement

variable {α β : Type}

/-! ## What an epoch is to yield -/

/-- The rows of a tensor along its first axis, each with its elements in shape order. -/
def rowsOf (t : Tensor α) : List (List α) :=
  (range (leadingDim t)).map fun i => row t.shape.tail.prod i (t.elements.getD [])

/-- The input rows of a batch with the target rows. -/
def pairs (b : Tensor α × Tensor β) : List (List α × List β) :=
  (rowsOf b.1).zip (rowsOf b.2)

/-- A batch of `k` rows of the dataset. -/
def BatchOf (ds : TensorDataset α β) (k : Nat) (b : Tensor α × Tensor β) : Prop :=
  (b.1.layout.dtype = ds.inputs.layout.dtype ∧ b.1.shape = k :: ds.inputs.shape.tail) ∧
    (b.2.layout.dtype = ds.targets.layout.dtype ∧ b.2.shape = k :: ds.targets.shape.tail)

/-- The epoch of a loader that keeps its last batch. -/
structure Epoch (shuffle : Shuffle) (ds : TensorDataset α β) (sampler : DistributedSampler)
    (batchSize : Nat) (batches : List (Tensor α × Tensor β)) : Prop where
  yields : iterEpoch shuffle ⟨ds, sampler, batchSize, false⟩ =
    some (batches.map Except.ok)
  count : numBatches ⟨ds, sampler, batchSize, false⟩ = some batches.length
  sizes : ∀ i b, batches[i]? = some b → ∃ k, BatchOf ds k b ∧
    (k = batchSize ∨ (i + 1 = batches.length ∧ 0 < k ∧ k ≤ batchSize))

/-- The epoch of a loader that drops its last batch, given the rows of the epoch that keeps it. -/
structure FullEpoch (shuffle : Shuffle) (ds : TensorDataset α β) (sampler : DistributedSampler)
    (batchSize : Nat) (rows : List (List α × List β)) (batches : List (Tensor α × Tensor β)) :
    Prop where
  yields : iterEpoch shuffle ⟨ds, sampler, batchSize, true⟩ =
    some (batches.map Except.ok)
  count : numBatches ⟨ds, sampler, batchSize, true⟩ = some batches.length
  sizes : ∀ b ∈ batches, BatchOf ds batchSize b
  leading : batches.flatMap pairs = rows.take (batches.length * batchSize)

/-- What the ranks of a world are to yield in one epoch. -/
structure Covers (shuffle : Shuffle) (ds : TensorDataset α β) (worldSize : Nat)
    (hworld : 0 < worldSize) (epoch batchSize : Nat)
    (batches : Nat → List (Tensor α × Tensor β)) : Prop where
  epochs : ∀ (rank : Nat) (hrank : rank < worldSize),
    Epoch shuffle ds ⟨ds.len, rank, worldSize, epoch, hworld, hrank⟩ batchSize (batches rank)
  rows : ((range worldSize).flatMap fun rank => (batches rank).flatMap pairs).Perm
    ((rowsOf ds.inputs).zip (rowsOf ds.targets))
  full : ∀ (rank : Nat) (hrank : rank < worldSize), ∃ kept,
    FullEpoch shuffle ds ⟨ds.len, rank, worldSize, epoch, hworld, hrank⟩ batchSize
      ((batches rank).flatMap pairs) kept

/-- Both tensors have an element type that `index_select` knows and rows that are not empty. -/
def Collatable (ds : TensorDataset α β) : Prop :=
  (selectable ds.inputs.layout.dtype = true ∧ selectable ds.targets.layout.dtype = true) ∧
    0 ∉ ds.inputs.shape.tail ∧ 0 ∉ ds.targets.shape.tail

end Statement

/-! ## One row -/

section Row

variable {α : Type} [Inhabited α] {t : Tensor α} {xs : List α} {n : Nat} {S : Shape}

variable {T : Dtype}

theorem catable_of_selectable : selectable T = true → catable T = true := by
  intro h
  cases T <;> simp_all [selectable, catable]

/-- A tensor with its element type, shape and elements. -/
structure Holds (t : Tensor α) (T : Dtype) (S : Shape) (xs : List α) : Prop where
  dtype : t.layout.dtype = T
  shape : t.shape = S
  elements : t.elements = some xs

theorem indexTensor (i : Nat) :
    ∃ idx, fromVecTyped .i64 [1] [asI64 i] = .ok idx ∧ Dense idx .i64 [1] fun _ => asI64 i := by
  obtain ⟨idx, hidx, hfresh⟩ :=
    @fromVecTyped_fresh Int .i64 [1] (fun _ => asI64 i) (by decide)
  exact ⟨idx, hidx, hfresh.toDense⟩

theorem indexSelect_row {idx : Tensor Int} {i : Nat} (ht : Reachable t)
    (hsel : selectable t.layout.dtype = true) (hshape : t.shape = n :: S)
    (hxs : t.elements = some xs) (hidx : Dense idx .i64 [1] fun _ => asI64 i) (hi : i < n) :
    ∃ out, indexSelect t 0 idx = .ok out ∧
      Holds out t.layout.dtype (1 :: S) (row S.prod i xs) := by
  have hbytes := reachable_shape_bytes ht
  rw [hshape, prod_cons] at hbytes
  have hlen : xs.length = (n :: S).prod := by
    obtain ⟨ys, hys, hlen⟩ := reachable_elements ht
    rw [hxs, Option.some.injEq] at hys
    rw [hys, hlen, hshape]
  have hrow : (1 :: S).prod * t.layout.dtype.byteSize < 2 ^ 63 := by
    rw [prod_cons, Nat.one_mul]
    refine lt_of_le_of_lt (Nat.mul_le_mul_right _ ?_) hbytes
    exact Nat.le_mul_of_pos_left _ (by omega)
  have hsmall : 0 < S.prod → asI64 i = i := by
    intro hpos
    apply asI64_eq_self
    calc
      i < n := hi
      _ ≤ n * S.prod := Nat.le_mul_of_pos_right _ hpos
      _ ≤ n * S.prod * t.layout.dtype.byteSize := Nat.le_mul_of_pos_right _ (Dtype.byteSize_pos _)
      _ < 2 ^ 63 := hbytes
  have hselects : Selects n 1 S (fun _ => asI64 i) := by
    intro hpos j _
    rw [hsmall hpos]
    exact ⟨Int.natCast_nonneg i, by simpa using hi⟩
  obtain ⟨out, hout, hfresh⟩ :=
    indexSelect_rows default hsel hshape hxs hlen hidx hselects hrow
  refine ⟨out, hout, hfresh.dtype, hfresh.shape, ?_⟩
  rw [hfresh.elements, prod_cons, Nat.one_mul]
  refine congrArg some (ext_getElem? ?_)
  intro l
  rw [getElem?_map, getElem?_row]
  by_cases hl : l < S.prod
  · have hlt : i * S.prod + l < xs.length := by
      rw [hlen, prod_cons]
      exact cell_lt hi hl
    rw [getElem?_range hl, if_pos hl, Option.map_some, hsmall (by omega), Int.toNat_natCast,
      Nat.mod_eq_of_lt hl, getElem?_eq_getElem hlt, getD_eq_getElem _ _ hlt]
  · rw [if_neg hl, getElem?_eq_none (by simpa using hl)]
    rfl

omit [Inhabited α] in
theorem rowsOf_eq {rs : List (List α)} :
    Holds t T (rs.length :: S) rs.flatten → (∀ r ∈ rs, r.length = S.prod) → rowsOf t = rs := by
  intro ht hrs
  rw [rowsOf, leadingDim, ht.shape, ht.elements]
  exact map_row_flatten hrs

/-- Tensors that hold one row each. -/
def HoldRows (T : Dtype) (S : Shape) (ts : List (Tensor α)) (rs : List (List α)) : Prop :=
  Forall₂ (fun t r => Holds t T (1 :: S) r) ts rs

variable {ts : List (Tensor α)} {rs : List (List α)} {T : Dtype}

omit [Inhabited α] in
theorem HoldRows.exists_mem : HoldRows T S ts rs → ∀ t ∈ ts, ∃ r ∈ rs, Holds t T (1 :: S) r := by
  intro h
  induction h with
  | nil => simp
  | @cons t r ts rs htr _ ih =>
    intro u hu
    rcases mem_cons.1 hu with rfl | hu
    · exact ⟨r, mem_cons_self, htr⟩
    · obtain ⟨q, hq, hholds⟩ := ih u hu
      exact ⟨q, mem_cons_of_mem r hq, hholds⟩

omit [Inhabited α] in
theorem HoldRows.stackable : HoldRows T S ts rs → Stackable T S (fun _ => 1) ts := by
  intro h
  constructor
  · intro t ht
    obtain ⟨_, _, hholds⟩ := h.exists_mem t ht
    exact hholds.dtype
  · intro t ht
    obtain ⟨_, _, hholds⟩ := h.exists_mem t ht
    exact hholds.shape

omit [Inhabited α] in
theorem HoldRows.flatMap : HoldRows T S ts rs →
    (ts.flatMap fun t => t.elements.getD []) = rs.flatten := by
  intro h
  induction h with
  | nil => rfl
  | cons htr _ ih => rw [flatMap_cons, ih, htr.elements, flatten_cons, Option.getD_some]

theorem cat_fetched (hcat : catable T = true) (hne : rs ≠ []) (hts : HoldRows T S ts rs)
    (hrs : ∀ r ∈ rs, r.length = S.prod) (h0 : 0 ∉ S)
    (hbytes : rs.length * S.prod * T.byteSize < 2 ^ 63) :
    ∃ out, cat ts 0 = .ok out ∧ Holds out T (rs.length :: S) rs.flatten := by
  have hlen : ts.length = rs.length := Forall₂.length_eq hts
  have hpos : 0 < S.prod := prod_pos fun d hd => Nat.pos_of_ne_zero fun h => h0 (h ▸ hd)
  have hcount : 0 < rs.length := length_pos_iff.2 hne
  have hS : S.prod < u64Size := by
    calc
      S.prod ≤ rs.length * S.prod := Nat.le_mul_of_pos_left _ hcount
      _ ≤ rs.length * S.prod * T.byteSize := Nat.le_mul_of_pos_right _ T.byteSize_pos
      _ < 2 ^ 63 := hbytes
      _ < u64Size := by decide
  have hsum : (ts.map fun _ => 1).sum = rs.length := by
    simp [hlen]
  have hread : ∀ t ∈ ts, t.elements = some (t.elements.getD []) ∧
      (t.elements.getD []).length = 1 * S.prod := by
    intro t ht
    obtain ⟨r, hr, hholds⟩ := hts.exists_mem t ht
    rw [hholds.elements, Option.getD_some, hrs r hr, Nat.one_mul]
    exact ⟨rfl, rfl⟩
  have hne' : ts ≠ [] := length_pos_iff.1 (by omega)
  obtain ⟨out, hout, hdtype, hshape, helems⟩ :=
    cat_rows hcat hts.stackable hne' hread hpos hS (by rwa [hsum])
  rw [hsum] at hshape
  rw [hts.flatMap] at helems
  exact ⟨out, hout, hdtype, hshape, helems⟩

end Row

theorem exists_of_forall₂ {γ δ : Type} {R : γ → δ → Prop} {xs : List γ} {ys : List δ} {i : Nat}
    {y : δ} : Forall₂ R xs ys → ys[i]? = some y → ∃ x, xs[i]? = some x ∧ R x y := by
  intro h hy
  obtain ⟨hi, rfl⟩ := List.getElem?_eq_some_iff.1 hy
  have hi' : i < xs.length := by rwa [h.length_eq]
  exact ⟨xs[i], getElem?_eq_getElem hi', (forall₂_iff_get.1 h).2 i hi' hi⟩

/-! ## One batch -/

section Batch

variable {α β : Type} [Inhabited β] {ds : TensorDataset α β}

/-- The reachable datasets with rows. -/
structure Rowed (ds : TensorDataset α β) (S S' : Shape) : Prop where
  inputs : Reachable ds.inputs
  targets : Reachable ds.targets
  shape_inputs : ds.inputs.shape = ds.len :: S
  shape_targets : ds.targets.shape = ds.len :: S'

/-- Row `i` of the inputs with row `i` of the targets. -/
def rowPair (ds : TensorDataset α β) (i : Nat) : List α × List β :=
  (row ds.inputs.shape.tail.prod i (ds.inputs.elements.getD []),
    row ds.targets.shape.tail.prod i (ds.targets.elements.getD []))

variable {S S' : Shape}

variable {t : Tensor α} {n i : Nat} {chunk : List Nat} {b : Tensor α × Tensor β}

theorem length_row_of_reachable : Reachable t → t.shape = n :: S → i < n →
      (row S.prod i (t.elements.getD [])).length = S.prod := by
  intro ht hshape hi
  obtain ⟨xs, hxs, hlen⟩ := reachable_elements ht
  rw [hxs, Option.getD_some]
  refine length_row ?_
  rw [hlen, hshape, prod_cons]
  exact Nat.mul_le_mul_right _ hi

theorem row_lengths (ht : Reachable t) (hshape : t.shape = n :: S) (hlt : ∀ i ∈ chunk, i < n) :
    ∀ r ∈ chunk.map (fun i => row t.shape.tail.prod i (t.elements.getD [])),
      r.length = S.prod := by
  intro r hr
  obtain ⟨i, hi, rfl⟩ := mem_map.1 hr
  rw [hshape, tail_cons]
  exact length_row_of_reachable ht hshape (hlt i hi)

/-- The tensors of a fetched item hold the item's rows. -/
def Fetches (ds : TensorDataset α β) (S S' : Shape) (i : Nat) (xy : Tensor α × Tensor β) : Prop :=
  Holds xy.1 ds.inputs.layout.dtype (1 :: S) (rowPair ds i).1 ∧
    Holds xy.2 ds.targets.layout.dtype (1 :: S') (rowPair ds i).2

variable [Inhabited α]

variable (h : Rowed ds S S')

include h

theorem get_ok (hin : selectable ds.inputs.layout.dtype = true)
    (htgt : selectable ds.targets.layout.dtype = true) :
    i < ds.len → ∃ xy, ds.get i = .ok xy ∧ Fetches ds S S' i xy := by
  intro hi
  obtain ⟨xs, hxs, _⟩ := reachable_elements h.inputs
  obtain ⟨ys, hys, _⟩ := reachable_elements h.targets
  obtain ⟨idx, hidx, hdense⟩ := indexTensor i
  obtain ⟨x, hx, hholdsx⟩ := indexSelect_row h.inputs hin h.shape_inputs hxs hdense hi
  obtain ⟨y, hy, hholdsy⟩ := indexSelect_row h.targets htgt h.shape_targets hys hdense hi
  refine ⟨(x, y), ?_, ?_⟩
  · simp only [TensorDataset.get, if_neg (not_le.2 hi), hidx, ofExcept_ok,
      unwrap_ok, ok_bind, hx, hy]
    rfl
  · rw [Fetches, rowPair, hxs, hys, h.shape_inputs, h.shape_targets]
    exact ⟨hholdsx, hholdsy⟩

omit h [Inhabited α] [Inhabited β] in
theorem get_panic : i < ds.len →
      ¬ (selectable ds.inputs.layout.dtype = true ∧ selectable ds.targets.layout.dtype = true) →
        ds.get i = .panic := by
  intro hi hsel
  obtain ⟨idx, hidx, hdense⟩ := indexTensor i
  have herr : ∀ {γ : Type} (t : Tensor γ), selectable t.layout.dtype ≠ true →
      (unwrap (indexSelect t 0 idx) : Outcome DatasetError (Tensor γ)) = .panic := by
    intro γ t ht
    unfold indexSelect
    split_ifs
    all_goals rfl
  simp only [TensorDataset.get, if_neg (not_le.2 hi), hidx, ofExcept_ok, unwrap_ok, ok_bind]
  by_cases hin : selectable ds.inputs.layout.dtype = true
  · have htgt := herr ds.targets (fun h => hsel ⟨hin, h⟩)
    cases hx : indexSelect ds.inputs 0 idx with
    | ok x =>
      rw [unwrap_ok, ok_bind, htgt]
      rfl
    | err e => rfl
    | panic => rfl
  · rw [herr ds.inputs hin]
    rfl

theorem get_mapM (hin : selectable ds.inputs.layout.dtype = true)
    (htgt : selectable ds.targets.layout.dtype = true) : (∀ i ∈ chunk, i < ds.len) →
      ∃ items, chunk.mapM ds.get = .ok items ∧ Forall₂ (Fetches ds S S') chunk items := by
  intro hlt
  exact exists_mapM (fun i hi => get_ok h hin htgt (hlt i hi))

omit h [Inhabited α] [Inhabited β] in
theorem holdRows_of_fetches {items : List (Tensor α × Tensor β)} :
    Forall₂ (Fetches ds S S') chunk items →
      HoldRows ds.inputs.layout.dtype S (items.map Prod.fst)
          (chunk.map fun i => (rowPair ds i).1) ∧
        HoldRows ds.targets.layout.dtype S' (items.map Prod.snd)
          (chunk.map fun i => (rowPair ds i).2) := by
  intro h
  induction h with
  | nil => exact ⟨Forall₂.nil, Forall₂.nil⟩
  | cons hxy _ ih => exact ⟨Forall₂.cons hxy.1 ih.1, Forall₂.cons hxy.2 ih.2⟩

/-- The batch of a chunk holds the rows of the chunk. -/
def Batches (ds : TensorDataset α β) (S S' : Shape) (chunk : List Nat)
    (b : Tensor α × Tensor β) : Prop :=
  Holds b.1 ds.inputs.layout.dtype (chunk.length :: S)
      (chunk.map fun i => (rowPair ds i).1).flatten ∧
    Holds b.2 ds.targets.layout.dtype (chunk.length :: S')
      (chunk.map fun i => (rowPair ds i).2).flatten

omit h [Inhabited α] in
theorem chunk_bytes {k : Nat} :
    Reachable t → t.shape = n :: S → k ≤ n → k * S.prod * t.layout.dtype.byteSize < 2 ^ 63 := by
  intro ht hshape hk
  have hbytes := reachable_shape_bytes ht
  rw [hshape, prod_cons] at hbytes
  exact lt_of_le_of_lt (Nat.mul_le_mul_right _ (Nat.mul_le_mul_right _ hk)) hbytes

theorem batch_ok (hcoll : Collatable ds) :
    chunk ≠ [] → (∀ i ∈ chunk, i < ds.len) → chunk.length ≤ ds.len →
      ∃ b, batch ds chunk = .ok b ∧ Batches ds S S' chunk b := by
  intro hne hlt hlen
  obtain ⟨⟨hin, htgt⟩, h0, h0'⟩ := hcoll
  obtain ⟨items, hitems, hall⟩ := get_mapM h hin htgt hlt
  obtain ⟨hrows, hrows'⟩ := holdRows_of_fetches hall
  rw [h.shape_inputs] at h0
  rw [h.shape_targets] at h0'
  obtain ⟨x, hx, hholdsx⟩ := cat_fetched (catable_of_selectable hin) (by simpa using hne) hrows
    (row_lengths h.inputs h.shape_inputs hlt) h0 (by rw [length_map]; exact chunk_bytes h.inputs h.shape_inputs hlen)
  obtain ⟨y, hy, hholdsy⟩ := cat_fetched (catable_of_selectable htgt) (by simpa using hne) hrows'
    (row_lengths h.targets h.shape_targets hlt) h0' (by rw [length_map]; exact chunk_bytes h.targets h.shape_targets hlen)
  rw [length_map] at hholdsx hholdsy
  refine ⟨(x, y), ?_, hholdsx, hholdsy⟩
  rw [batch, hitems]
  simp only [mapErr, ok_bind, collate, hx, hy]

theorem batch_panic (hcoll : ¬ Collatable ds) {rest : List Nat} :
    (∀ j ∈ i :: rest, j < ds.len) → batch ds (i :: rest) = .panic := by
  intro hlt
  by_cases hsel : selectable ds.inputs.layout.dtype = true ∧
      selectable ds.targets.layout.dtype = true
  · obtain ⟨items, hitems, hall⟩ := get_mapM h hsel.1 hsel.2 hlt
    obtain ⟨hrows, hrows'⟩ := holdRows_of_fetches hall
    have hne : items ≠ [] := by
      rintro rfl
      cases hall
    rw [batch, hitems]
    simp only [mapErr, ok_bind, collate]
    by_cases h0 : 0 ∈ S
    · have hpanic := cat_empty_rows (catable_of_selectable hsel.1) hrows.stackable
        (by simpa using hne) h0 (fun _ _ => rfl)
      rw [hpanic]
    · have h0' : 0 ∈ S' := by
        by_contra h0'
        refine hcoll ⟨hsel, ?_, ?_⟩
        · rwa [h.shape_inputs]
        · rwa [h.shape_targets]
      have hpanic := cat_empty_rows (catable_of_selectable hsel.2) hrows'.stackable
        (by simpa using hne) h0' (fun _ _ => rfl)
      rw [hpanic]
      cases cat (items.map Prod.fst) 0 <;> rfl
  · have hget := get_panic (hlt i mem_cons_self) hsel
    rw [batch, mapM_panic hget]
    rfl

omit [Inhabited α] [Inhabited β] in
theorem Batches.batchOf :
    Batches ds S S' chunk b → BatchOf ds chunk.length b := by
  rintro ⟨hx, hy⟩
  refine ⟨⟨hx.dtype, ?_⟩, hy.dtype, ?_⟩
  · rw [hx.shape, h.shape_inputs, tail_cons]
  · rw [hy.shape, h.shape_targets, tail_cons]

omit [Inhabited α] [Inhabited β] in
theorem Batches.pairs : (∀ i ∈ chunk, i < ds.len) → Batches ds S S' chunk b →
      Data.pairs b = chunk.map (rowPair ds) := by
  rintro hlt ⟨hx, hy⟩
  have hrows : rowsOf b.1 = chunk.map fun i => (rowPair ds i).1 := by
    refine rowsOf_eq (by rwa [length_map]) ?_
    exact row_lengths h.inputs h.shape_inputs hlt
  have hrows' : rowsOf b.2 = chunk.map fun i => (rowPair ds i).2 := by
    refine rowsOf_eq (by rwa [length_map]) ?_
    exact row_lengths h.targets h.shape_targets hlt
  rw [Data.pairs, hrows, hrows', zip_map']

end Batch

/-! ## One epoch -/

section Epoch

variable {α β : Type} [Inhabited α] [Inhabited β] {ds : TensorDataset α β} {S S' : Shape}

/-- A chunk's entry is a batch of its rows. -/
structure Yields (ds : TensorDataset α β) (chunk : List Nat) (b : Tensor α × Tensor β) : Prop where
  batch : batch ds chunk = .ok b
  batchOf : BatchOf ds chunk.length b
  pairs : pairs b = chunk.map (rowPair ds)

variable {chunks : List (List Nat)} {batches : List (Tensor α × Tensor β)} {batchSize : Nat}

omit [Inhabited α] [Inhabited β] in
theorem flatMap_pairs : Forall₂ (Yields ds) chunks batches →
      batches.flatMap pairs = chunks.flatten.map (rowPair ds) := by
  intro h
  induction h with
  | nil => rfl
  | cons hb _ ih => rw [flatMap_cons, ih, hb.pairs, flatten_cons, map_append]

omit [Inhabited α] [Inhabited β] in
theorem mapM_entry : Forall₂ (Yields ds) chunks batches →
      chunks.mapM (fun chunk => entry (batch ds chunk)) = some (batches.map Except.ok) := by
  intro h
  rw [Traversal.mapM_eq_some, forall₂_map_right_iff]
  refine h.imp ?_
  intro chunk b hb
  rw [hb.batch]
  rfl

/-- The datasets whose epochs do not panic. -/
def Loadable (ds : TensorDataset α β) (S S' : Shape) : Prop :=
  ds.len = 0 ∨ Rowed ds S S' ∧ Collatable ds

theorem chunks_yield (hload : Loadable ds S S') {indices : List Nat} :
    0 < batchSize → indices.Subperm (range ds.len) →
      ∃ batches, Forall₂ (Yields ds) (Chunks.chunks batchSize indices) batches := by
  intro hbs hsub
  rcases hload with h0 | ⟨h, hcoll⟩
  · rw [h0, range_zero, subperm_nil] at hsub
    rw [hsub, chunks_nil]
    exact ⟨[], Forall₂.nil⟩
  have hyield : ∀ chunk ∈ Chunks.chunks batchSize indices,
      ∃ b, batch ds chunk = .ok b ∧ Yields ds chunk b := by
    intro chunk hmem
    have hin : chunk.Sublist indices := by
      have hflat := sublist_flatten_of_mem hmem
      rwa [flatten_chunks hbs] at hflat
    have hlt : ∀ i ∈ chunk, i < ds.len := by
      intro i hi
      exact mem_range.1 (hsub.subset (hin.subset hi))
    have hlen : chunk.length ≤ ds.len := by
      calc
        chunk.length ≤ indices.length := hin.length_le
        _ ≤ (range ds.len).length := hsub.length_le
        _ = ds.len := length_range
    obtain ⟨b, hb, hholds⟩ :=
      batch_ok h hcoll (ne_nil_of_mem_chunks hbs hmem) hlt hlen
    exact ⟨b, hb, hb, hholds.batchOf h, hholds.pairs h hlt⟩
  obtain ⟨batches, _, hall⟩ := exists_mapM hyield
  exact ⟨batches, hall⟩

omit [Inhabited α] [Inhabited β] in
theorem keptChunks_false (batchSize : Nat) (indices : List Nat) :
    keptChunks batchSize false indices = Chunks.chunks batchSize indices :=
  takeWhile_eq_self_iff.2 (fun _ _ => rfl)

theorem keptChunks_true (hbs : 0 < batchSize) (indices : List Nat) :
    keptChunks batchSize true indices =
      Chunks.chunks batchSize (indices.take (indices.length / batchSize * batchSize)) := by
  rw [← takeWhile_chunks hbs]
  simp [keptChunks]

variable {shuffle : Shuffle} {sampler : DistributedSampler} {batchSize : Nat}

theorem epoch_ok (hshuffle : shuffle.Permutes) (hload : Loadable ds S S')
    (hbs : 0 < batchSize) (hn : sampler.n = ds.len) :
    ∃ batches, Epoch shuffle ds sampler batchSize batches ∧
      batches.flatMap pairs = (sampler.iter shuffle).map (rowPair ds) := by
  have hsub := sampler.iter_subperm hshuffle
  rw [hn] at hsub
  obtain ⟨batches, hall⟩ := chunks_yield hload hbs hsub
  have hlength := hall.length_eq
  refine ⟨batches, ⟨?_, ?_, ?_⟩, ?_⟩
  · rw [iterEpoch, if_neg hbs.ne', keptChunks_false]
    exact mapM_entry hall
  · have hcount : divCeil sampler.len batchSize = batches.length := by
      rw [← hlength, length_chunks hbs, sampler.length_iter hshuffle, divCeil]
      split <;> rfl
    rw [numBatches, if_neg hbs.ne', ← hcount]
    rfl
  · intro i b hb
    obtain ⟨chunk, hchunk, hyield⟩ := exists_of_forall₂ hall hb
    refine ⟨chunk.length, hyield.batchOf, ?_⟩
    rcases length_of_getElem?_chunks hbs _ i chunk hchunk with hfull | ⟨hlast, hsize⟩
    · exact Or.inl hfull
    · exact Or.inr ⟨hlast.trans hlength, hsize⟩
  · rw [flatMap_pairs hall, flatten_chunks hbs]

theorem fullEpoch_ok (hshuffle : shuffle.Permutes) (hload : Loadable ds S S')
    (hbs : 0 < batchSize) (hn : sampler.n = ds.len) :
    ∃ batches, FullEpoch shuffle ds sampler batchSize
      ((sampler.iter shuffle).map (rowPair ds)) batches := by
  have hsub := sampler.iter_subperm hshuffle
  rw [hn] at hsub
  have hle : (sampler.iter shuffle).length / batchSize * batchSize ≤
      (sampler.iter shuffle).length := Nat.div_mul_le_self _ _
  have htake : ((sampler.iter shuffle).take
      ((sampler.iter shuffle).length / batchSize * batchSize)).length =
        (sampler.iter shuffle).length / batchSize * batchSize := by
    rw [length_take, Nat.min_eq_left hle]
  obtain ⟨batches, hall⟩ := chunks_yield hload hbs
    ((take_sublist _ _).subperm.trans hsub)
  have hlength : batches.length = (sampler.iter shuffle).length / batchSize := by
    rw [← hall.length_eq, length_chunks hbs, htake, Nat.mul_div_cancel _ hbs, Nat.mul_mod_left]
    rfl
  refine ⟨batches, ⟨?_, ?_, ?_, ?_⟩⟩
  · rw [iterEpoch, if_neg hbs.ne', keptChunks_true hbs]
    exact mapM_entry hall
  · rw [numBatches, if_neg hbs.ne', hlength, sampler.length_iter hshuffle]
    rfl
  · intro b hb
    obtain ⟨i, hi⟩ := mem_iff_getElem?.1 hb
    obtain ⟨chunk, hchunk, hyield⟩ := exists_of_forall₂ hall hi
    have hfull := length_of_mem_chunks hbs htake (mem_of_getElem? hchunk)
    rw [← hfull]
    exact hyield.batchOf
  · rw [flatMap_pairs hall, flatten_chunks hbs, map_take, hlength]

theorem epoch_panic (hshuffle : shuffle.Permutes) (h : Rowed ds S S') (hcoll : ¬ Collatable ds)
    (hbs : 0 < batchSize) (hn : sampler.n = ds.len) :
    0 < sampler.len → iterEpoch shuffle ⟨ds, sampler, batchSize, false⟩ = none := by
  intro hpos
  rw [← sampler.length_iter hshuffle] at hpos
  rw [iterEpoch, if_neg hbs.ne', keptChunks_false, chunks_of_ne_nil hbs (length_pos_iff.1 hpos)]
  refine Traversal.mapM_eq_none mem_cons_self ?_
  cases hfirst : (sampler.iter shuffle).take batchSize with
  | nil =>
    have hlen := congrArg length hfirst
    rw [length_take, length_nil] at hlen
    omega
  | cons i rest =>
    rw [batch_panic h hcoll]
    · rfl
    · intro j hj
      rw [← hfirst] at hj
      rw [← hn]
      exact sampler.lt_of_mem_iter hshuffle (mem_of_mem_take hj)

end Epoch

/-! ## All ranks -/

section World

variable {α β : Type}

theorem shape_eq_cons {t : Tensor α} : leadingDim t ≠ 0 → t.shape = leadingDim t :: t.shape.tail := by
  intro h
  unfold leadingDim at h ⊢
  cases hs : t.shape with
  | nil => simp [hs] at h
  | cons n S => rfl

theorem rowed {ds : TensorDataset α β} :
    Reachable ds.inputs → Reachable ds.targets → ds.len ≠ 0 →
      Rowed ds ds.inputs.shape.tail ds.targets.shape.tail := by
  intro hin htgt hlen
  refine ⟨hin, htgt, ?_, ?_⟩
  · rw [ds.len_inputs] at hlen ⊢
    exact shape_eq_cons hlen
  · rw [ds.len_targets] at hlen ⊢
    exact shape_eq_cons hlen

theorem zip_rowsOf (ds : TensorDataset α β) :
    (rowsOf ds.inputs).zip (rowsOf ds.targets) = (range ds.len).map (rowPair ds) := by
  rw [rowsOf, rowsOf, ← ds.len_inputs, ← ds.len_targets, zip_map']
  rfl

variable [Inhabited α] [Inhabited β]

/-- The loaders of a world yield every row of a reachable dataset once exactly when the dataset has
no rows, or the element types have an arm and no row is empty. -/
theorem covers_iff {shuffle : Shuffle} (hshuffle : shuffle.Permutes) {ds : TensorDataset α β}
    (hin : Reachable ds.inputs) (htgt : Reachable ds.targets) {worldSize : Nat}
    (hworld : 0 < worldSize) (epoch : Nat) {batchSize : Nat} (hbs : 0 < batchSize) :
    (∃ batches, Covers shuffle ds worldSize hworld epoch batchSize batches) ↔
      ds.len = 0 ∨ Collatable ds := by
  constructor
  · rintro ⟨batches, hcovers⟩
    by_contra hcoll
    rw [not_or] at hcoll
    have hyields := (hcovers.epochs 0 hworld).yields
    -- Rank 0 always has a row.
    have hpos : 0 < DistributedSampler.len ⟨ds.len, 0, worldSize, epoch, hworld, hworld⟩ := by
      have hlen : 0 < ds.len := Nat.pos_of_ne_zero hcoll.1
      simp only [DistributedSampler.len]
      by_cases hmod : 0 < ds.len % worldSize
      · rw [if_pos hmod]
        exact Nat.succ_pos _
      · have hdvd : worldSize ∣ ds.len := Nat.dvd_of_mod_eq_zero (by omega)
        have hquot := Nat.div_pos (Nat.le_of_dvd hlen hdvd) hworld
        omega
    rw [epoch_panic hshuffle (rowed hin htgt hcoll.1) hcoll.2 hbs rfl hpos] at hyields
    cases hyields
  · intro hok
    have hload : Loadable ds ds.inputs.shape.tail ds.targets.shape.tail := by
      by_cases h0 : ds.len = 0
      · exact Or.inl h0
      · exact Or.inr ⟨rowed hin htgt h0, hok.resolve_left h0⟩
    have hrank : ∀ rank, ∃ batches, ∀ h : rank < worldSize,
        Epoch shuffle ds ⟨ds.len, rank, worldSize, epoch, hworld, h⟩ batchSize batches ∧
          batches.flatMap pairs =
            (Stride.stride worldSize rank (shuffle epoch (range ds.len))).map (rowPair ds) := by
      intro rank
      by_cases h : rank < worldSize
      · obtain ⟨batches, hepoch, hrows⟩ := @epoch_ok _ _ _ _ ds _ _ shuffle
          ⟨ds.len, rank, worldSize, epoch, hworld, h⟩ _ hshuffle hload hbs rfl
        exact ⟨batches, fun _ => ⟨hepoch, hrows⟩⟩
      · exact ⟨[], fun h' => absurd h' h⟩
    choose batches hbatches using hrank
    refine ⟨batches, ?_, ?_, ?_⟩
    · intro rank h
      exact (hbatches rank h).1
    · have hflat : ((range worldSize).flatMap fun rank => (batches rank).flatMap pairs) =
          ((range worldSize).flatMap fun rank =>
            Stride.stride worldSize rank (shuffle epoch (range ds.len))).map
              (rowPair ds) := by
        rw [map_flatMap]
        refine flatMap_congr ?_
        intro rank hmem
        exact (hbatches rank (mem_range.1 hmem)).2
      rw [hflat, zip_rowsOf]
      exact (DistributedSampler.flatMap_iter_perm hshuffle hworld).map _
    · intro rank h
      obtain ⟨kept, hkept⟩ := @fullEpoch_ok _ _ _ _ ds _ _ shuffle
        ⟨ds.len, rank, worldSize, epoch, hworld, h⟩ _ hshuffle hload hbs rfl
      rw [(hbatches rank h).2]
      exact ⟨kept, hkept⟩

/-! ### Two small datasets -/

/-- Three rows of two inputs, each with one target. -/
def threeRows : TensorDataset Nat Nat where
  inputs := { storage := [0, 1, 2, 3, 4, 5], layout := contiguous [3, 2] .f32 }
  targets := { storage := [7, 8, 9], layout := contiguous [3] .i64 }
  len := 3
  len_inputs := rfl
  len_targets := rfl

def reversing : Shuffle := fun _ xs => xs.reverse

theorem reversing_permutes : reversing.Permutes := fun _ xs => reverse_perm xs

theorem threeRows_reachable : Reachable threeRows.inputs ∧ Reachable threeRows.targets := by
  refine ⟨@Reachable.fromVecTyped _ .f32 [3, 2] [0, 1, 2, 3, 4, 5] _ ?_ ?_ rfl,
    @Reachable.fromVecTyped _ .i64 [3] [7, 8, 9] _ ?_ ?_ rfl⟩ <;> decide

theorem threeRows_covered :
    ∃ batches, Covers reversing threeRows 2 (by decide) 0 2 batches := by
  refine (covers_iff reversing_permutes threeRows_reachable.1 threeRows_reachable.2 (by decide) 0
    (by decide)).2 (Or.inr ⟨⟨rfl, rfl⟩, ?_, ?_⟩) <;> decide

/-- One row without inputs, and its target. -/
def emptyRow : TensorDataset Nat Nat where
  inputs := { storage := [], layout := contiguous [1, 0] .f32 }
  targets := { storage := [7], layout := contiguous [1] .i64 }
  len := 1
  len_inputs := rfl
  len_targets := rfl

/-- The single rank panics when it joins the row. -/
theorem emptyRow_not_covered :
    (Reachable emptyRow.inputs ∧ Reachable emptyRow.targets) ∧
      ¬ ∃ batches, Covers reversing emptyRow 1 (by decide) 0 1 batches := by
  have hreach : Reachable emptyRow.inputs ∧ Reachable emptyRow.targets := by
    refine ⟨@Reachable.fromVecTyped _ .f32 [1, 0] [] _ ?_ ?_ rfl,
      @Reachable.fromVecTyped _ .i64 [1] [7] _ ?_ ?_ rfl⟩ <;> decide
  refine ⟨hreach, ?_⟩
  rintro ⟨batches, hcovers⟩
  have hyields := (hcovers.epochs 0 (by decide)).yields
  have hcoll : ¬ Collatable emptyRow := by
    rintro ⟨_, h0, _⟩
    exact h0 (by decide)
  rw [epoch_panic reversing_permutes (rowed hreach.1 hreach.2 (by decide)) hcoll (by decide) rfl
    (by decide)] at hyields
  cases hyields

end World

end Data
end Rustorch
