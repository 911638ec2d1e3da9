import Rustorch.Lib.FirstFit
import Rustorch.Lib.Machine
import Rustorch.Planner.Lifetime

/-!
# Interval-disjoint allocator

`plan` sorts the tensors of a lifetime table (largest first) and packs them first-fit into
slots, so that the tenants of one slot have pairwise disjoint lifetimes.

Byte counts are `u64`.  `round_up` multiplies in `u64`, which wraps in a release build, so the
model carries the `% 2^64`; `AddInRange` and `NewInRange` are the guards under which one packing
step does not wrap.
-/

namespace Rustorch
namespace Planner

open List LifetimeTable Prod

/-! ## Slots -/

def divCeil (a b : Nat) : Nat :=
  if a % b = 0 then a / b else a / b + 1

/-- `bytes` rounded up to a multiple of `align`, before the result is cut to 64 bits. -/
def roundUpExact (bytes align : Nat) : Nat :=
  divCeil bytes (max align 1) * max align 1

def roundUp (bytes align : Nat) : Nat :=
  roundUpExact bytes align % u64Size

structure Slot where
  bytes : Nat
  align : Nat
  tenants : List TensorId
  intervals : List Interval
  deriving DecidableEq, Repr

/-- A row of the sorted table: a tensor and its interval. -/
abbrev Row : Type := TensorId × Interval

namespace Slot

def new (r : Row) : Slot :=
  let align := max r.2.align 1
  { bytes := roundUp r.2.bytes align
    align := align
    tenants := [r.1]
    intervals := [r.2] }

/-- No interval of the slot overlaps the new one. -/
def fits (s : Slot) (r : Row) : Bool :=
  s.intervals.all (fun existing => !existing.overlaps r.2)

def add (s : Slot) (r : Row) : Slot :=
  let align := max s.align (max r.2.align 1)
  { bytes := roundUp (max s.bytes r.2.bytes) align
    align := align
    tenants := s.tenants ++ [r.1]
    intervals := s.intervals ++ [r.2] }

/-- Register an output that shares storage with an already placed input. -/
def pushAliasedTenant (s : Slot) (id : TensorId) : Slot :=
  { s with tenants := s.tenants ++ [id] }

/-- Opening a slot for `r` does not wrap. -/
def NewInRange (r : Row) : Prop :=
  roundUpExact r.2.bytes (max r.2.align 1) < u64Size

/-- Adding `r` to `s` does not wrap. -/
def AddInRange (s : Slot) (r : Row) : Prop :=
  roundUpExact (max s.bytes r.2.bytes) (max s.align (max r.2.align 1)) < u64Size

instance : DecidablePred NewInRange := fun _ => inferInstanceAs (Decidable (_ < _))

instance (s : Slot) (r : Row) : Decidable (s.AddInRange r) := inferInstanceAs (Decidable (_ < _))

end Slot

structure PlanResult where
  slots : List Slot
  assignment : List (TensorId × Nat)
  deriving DecidableEq, Repr

namespace PlanResult

/-- Sum of every slot's `bytes`, in `u64`. -/
def peakBytes (p : PlanResult) : Nat :=
  p.slots.foldl (fun acc s => (acc + s.bytes) % u64Size) 0

def slotOf (p : PlanResult) (id : TensorId) : Option Nat :=
  (p.assignment.find? (fun e => e.1 == id)).map snd

end PlanResult

inductive PlanError
  | budgetExceeded (required budget : Nat)
  deriving DecidableEq, Repr

/-! ## The packing run -/

/-- The sort order: bytes descending, then `def` ascending, then id ascending. -/
def rowLe (a b : Row) : Bool :=
  if a.2.bytes = b.2.bytes then
    if a.2.defStep = b.2.defStep then
      decide (a.1.val ≤ b.1.val)
    else
      decide (a.2.defStep < b.2.defStep)
  else
    decide (b.2.bytes < a.2.bytes)

/-- The table's rows in packing order. -/
def packingOrder (table : LifetimeTable) : List Row :=
  table.iter.insertionSort (fun a b => rowLe a b = true)

def packRows (rows : List Row) : List Slot × List (Row × Nat) :=
  FirstFit.pack Slot.fits Slot.new Slot.add rows

def plan (table : LifetimeTable) : PlanResult :=
  let packed := packRows (packingOrder table)
  { slots := packed.1
    assignment := packed.2.map (fun e => (e.1.1, e.2)) }

/-- No `round_up` of the packing run wraps: a condition on each packing step, read off the slots
before the step and the row it places. -/
def PackInRange (table : LifetimeTable) : Prop :=
  FirstFit.RunOk Slot.fits Slot.new Slot.add Slot.NewInRange Slot.AddInRange []
    (packingOrder table)

instance (table : LifetimeTable) : Decidable (PackInRange table) :=
  FirstFit.decidableRunOk Slot.fits Slot.new Slot.add Slot.NewInRange Slot.AddInRange []
    (packingOrder table)

/-! ## Rounding -/

theorem le_roundUpExact (bytes align : Nat) : bytes ≤ roundUpExact bytes align := by
  have hpos : 0 < max align 1 := by
    omega
  have hdiv : max align 1 * (bytes / max align 1) + bytes % max align 1 = bytes :=
    Nat.div_add_mod bytes (max align 1)
  have hmod : bytes % max align 1 < max align 1 := Nat.mod_lt bytes hpos
  unfold roundUpExact divCeil
  split
  · rw [Nat.mul_comm]
    omega
  · rw [Nat.add_mul, Nat.mul_comm]
    omega

theorem le_roundUp {bytes align : Nat} :
    roundUpExact bytes align < u64Size → bytes ≤ roundUp bytes align := by
  intro h
  rw [roundUp, Nat.mod_eq_of_lt h]
  exact le_roundUpExact bytes align

/-! ## What a filled slot holds -/

/-- Every slot the packer can build from `rows`. -/
abbrev FilledSlot : List Row → Slot → Prop :=
  FirstFit.Filled Slot.new Slot.add (fun _ => True) (fun s r => s.fits r = true)

/-- Every slot the packer can build without a wrapping `round_up`. -/
abbrev FilledSlotInRange : List Row → Slot → Prop :=
  FirstFit.Filled Slot.new Slot.add Slot.NewInRange Slot.AddInRange

section Filled

variable {openOk : Row → Prop} {addOk : Slot → Row → Prop} {rows : List Row} {s : Slot}

theorem filled_tenants :
    FirstFit.Filled Slot.new Slot.add openOk addOk rows s → s.tenants = rows.map fst := by
  intro h
  induction h with
  | fresh _ =>
    rfl
  | add _ _ ih =>
    simp [Slot.add, ih]

theorem filled_intervals :
    FirstFit.Filled Slot.new Slot.add openOk addOk rows s → s.intervals = rows.map snd := by
  intro h
  induction h with
  | fresh _ =>
    rfl
  | add _ _ ih =>
    simp [Slot.add, ih]

theorem filledSlot_pairwise :
    FilledSlot rows s → rows.Pairwise (fun a b => a.2.overlaps b.2 = false) := by
  intro h
  refine FirstFit.Filled.pairwise ?_ h
  intro l s a hl hfit b hb
  have hall : ∀ iv ∈ s.intervals, iv.overlaps a.2 = false := by
    simpa [Slot.fits] using hfit
  refine hall b.2 ?_
  rw [filled_intervals hl]
  exact mem_map_of_mem hb

/-- Without wrapping, a slot is at least as large as each of its tenants. -/
theorem filledSlotInRange_bytes :
    FilledSlotInRange rows s → ∀ r ∈ rows, r.2.bytes ≤ s.bytes := by
  intro h
  induction h with
  | @fresh a hnew =>
    intro r hr
    have hra : r = a := by
      simpa using hr
    subst hra
    exact le_roundUp hnew
  | @add l s a _ hadd ih =>
    intro r hr
    have hmax : max s.bytes a.2.bytes ≤ (s.add a).bytes := le_roundUp hadd
    rcases mem_append.1 hr with hl | ha
    · exact le_trans (ih r hl) (le_trans (le_max_left _ _) hmax)
    · have hra : r = a := by
        simpa using ha
      subst hra
      exact le_trans (le_max_right _ _) hmax

end Filled

/-! ## What a plan gives -/

theorem packingOrder_perm (table : LifetimeTable) : (packingOrder table).Perm table.iter :=
  perm_insertionSort _ _

theorem rowLe_iff {a b : Row} :
    rowLe a b = true ↔ b.2.bytes < a.2.bytes ∨ (b.2.bytes = a.2.bytes ∧
      (a.2.defStep < b.2.defStep ∨ (a.2.defStep = b.2.defStep ∧ a.1.val ≤ b.1.val))) := by
  unfold rowLe
  split
  · split
    · simp only [decide_eq_true_eq]
      omega
    · simp only [decide_eq_true_eq]
      omega
  · simp only [decide_eq_true_eq]
    omega

instance : Std.Total (fun a b : Row => rowLe a b = true) where
  total := by
    intro a b
    rw [rowLe_iff, rowLe_iff]
    omega

instance : IsTrans Row (fun a b => rowLe a b = true) where
  trans := by
    intro a b c hab hbc
    rw [rowLe_iff] at hab hbc ⊢
    omega

theorem rowLe_antisymm_id {a b : Row} :
    rowLe a b = true → rowLe b a = true → a.1 = b.1 := by
  intro hab hba
  rw [rowLe_iff] at hab hba
  have hval : a.1.val = b.1.val := by
    omega
  cases ha : a.1 with
  | mk x =>
    cases hb : b.1 with
    | mk y =>
      simp only [ha, hb] at hval
      rw [hval]

theorem LifetimeTable.rowLe_antisymm (t : LifetimeTable) :
    ∀ a ∈ t.iter, ∀ b ∈ t.iter, rowLe a b = true → rowLe b a = true → a = b := by
  intro a ha b hb hab hba
  have hid : a.1 = b.1 := rowLe_antisymm_id hab hba
  have hga := mem_iter.1 ha
  have hgb := mem_iter.1 hb
  rw [hid, hgb] at hga
  exact Prod.ext hid (Option.some.inj hga).symm

/-- The sort key is total on a table's rows, so the plan does not depend on the iteration order
of the table's hash map. -/
theorem plan_eq_of_perm {t t' : LifetimeTable} :
    t.intervals.entries.Perm t'.intervals.entries → plan t = plan t' := by
  intro hperm
  have hiter : t.iter.Perm t'.iter := hperm.map _
  have horder : packingOrder t = packingOrder t' :=
    FirstFit.insertionSort_eq_of_perm hiter t'.rowLe_antisymm
  simp only [plan, horder]

theorem packRows_packed (rows : List Row) :
    FirstFit.Packed Slot.new Slot.add (fun _ => True) (fun s r => s.fits r = true)
      (packRows rows) :=
  FirstFit.pack_packed (FirstFit.runOk_fits Slot.fits Slot.new Slot.add rows [])

variable {table : LifetimeTable} {id : TensorId} {k : Nat} {iv : Interval} {s : Slot}

theorem packRows_packed_inRange : PackInRange table →
      FirstFit.Packed Slot.new Slot.add Slot.NewInRange Slot.AddInRange
        (packRows (packingOrder table)) := by
  intro h
  exact FirstFit.pack_packed h

theorem plan_assignment_ids (table : LifetimeTable) :
    (plan table).assignment.map fst = (packingOrder table).map fst := by
  have h := @FirstFit.pack_items _ _ Slot.fits Slot.new Slot.add (packingOrder table)
  calc
    (plan table).assignment.map fst
        = ((packRows (packingOrder table)).2.map fst).map fst := by
          simp [plan, Function.comp_def]
    _ = (packingOrder table).map fst := by
          rw [packRows, h]

theorem plan_assignment_nodup (table : LifetimeTable) :
    ((plan table).assignment.map fst).Nodup := by
  rw [plan_assignment_ids]
  exact ((packingOrder_perm table).map fst).nodup_iff.2 table.nodup_iter_ids

/-- A list of pairs with distinct keys is looked up by membership. -/
theorem find?_key_eq_some {β : Type} {l : List (TensorId × β)} {b : β} : (l.map fst).Nodup →
      ((l.find? (fun e => e.1 == id)).map snd = some b ↔ (id, b) ∈ l) := by
  intro hnodup
  induction l with
  | nil =>
    simp
  | cons e l ih =>
    have hcons := nodup_cons.1 (by simpa using hnodup :
      (e.1 :: l.map fst).Nodup)
    by_cases he : e.1 = id
    · have hnot : (id, b) ∉ l := by
        intro hmem
        exact hcons.1 (he ▸ mem_map_of_mem (f := fst) hmem)
      constructor
      · intro h
        have hb : e.2 = b := by
          simpa [he] using h
        exact mem_cons.2 (Or.inl (by rw [← he, ← hb]))
      · intro h
        rcases mem_cons.1 h with heq | hmem
        · simp [← heq]
        · exact absurd hmem hnot
    · have hne : (id, b) ≠ e := by
        intro h
        exact he (by rw [← h])
      rw [find?_cons_of_neg (by simpa using he), ih hcons.2]
      simp [hne]

theorem slotOf_eq_some : (plan table).slotOf id = some k ↔ (id, k) ∈ (plan table).assignment :=
  find?_key_eq_some (plan_assignment_nodup table)

theorem mem_assignment : (id, k) ∈ (plan table).assignment ↔
      ∃ iv, table.get id = some iv ∧
        (id, iv) ∈ FirstFit.contents (packRows (packingOrder table)).2 k := by
  constructor
  · intro h
    rcases mem_map.1 h with ⟨⟨⟨id', iv⟩, k'⟩, hmem, heq⟩
    cases heq
    refine ⟨iv, ?_, FirstFit.mem_contents.2 hmem⟩
    have hrow : (id', iv) ∈ (packRows (packingOrder table)).2.map fst :=
      mem_map_of_mem (f := fst) hmem
    rw [packRows, FirstFit.pack_items] at hrow
    exact mem_iter.1 ((packingOrder_perm table).mem_iff.1 hrow)
  · rintro ⟨iv, _, hmem⟩
    exact mem_map.2 ⟨((id, iv), k), FirstFit.mem_contents.1 hmem, rfl⟩

theorem exists_slotOf : table.get id = some iv →
      ∃ k, (plan table).slotOf id = some k ∧ k < (plan table).slots.length := by
  intro h
  have hrow : (id, iv) ∈ (packRows (packingOrder table)).2.map fst := by
    rw [packRows, FirstFit.pack_items]
    exact (packingOrder_perm table).mem_iff.2 (mem_iter.2 h)
  rcases mem_map.1 hrow with ⟨⟨r, k⟩, hmem, heq⟩
  cases heq
  refine ⟨k, slotOf_eq_some.2 (mem_map.2 ⟨_, hmem, rfl⟩), ?_⟩
  exact (packRows_packed (packingOrder table)).bound _ hmem

theorem plan_disjoint {a b : TensorId} {ia ib : Interval} :
    table.get a = some ia → table.get b = some ib → a ≠ b →
      (a, k) ∈ (plan table).assignment → (b, k) ∈ (plan table).assignment →
        ia.overlaps ib = false := by
  intro ha hb hne hak hbk
  rcases mem_assignment.1 hak with ⟨ia', ha', hma⟩
  rcases mem_assignment.1 hbk with ⟨ib', hb', hmb⟩
  cases ha.symm.trans ha'
  cases hb.symm.trans hb'
  have hpacked := packRows_packed (packingOrder table)
  have hlt : k < (packRows (packingOrder table)).1.length :=
    hpacked.bound _ (FirstFit.mem_contents.1 hma)
  have hpair := filledSlot_pairwise (hpacked.filled k _ (getElem?_eq_getElem hlt))
  have hsymm : Std.Symm (fun x y : Row => x.2.overlaps y.2 = false) :=
    ⟨fun x y hxy => by rw [Interval.overlaps_comm]; exact hxy⟩
  exact hpair.forall hma hmb (by
    intro heq
    exact hne (congrArg fst heq))

theorem mem_tenants : (plan table).slots[k]? = some s →
      (id ∈ s.tenants ↔ (id, k) ∈ (plan table).assignment) := by
  intro hs
  have hfilled := (packRows_packed (packingOrder table)).filled k s hs
  rw [filled_tenants hfilled, mem_map]
  constructor
  · rintro ⟨⟨id', iv⟩, hmem, rfl⟩
    exact mem_map.2 ⟨((id', iv), k), FirstFit.mem_contents.1 hmem, rfl⟩
  · intro h
    rcases mem_assignment.1 h with ⟨iv, _, hmem⟩
    exact ⟨(id, iv), hmem, rfl⟩

theorem plan_slot_bytes :
    PackInRange table → s ∈ (plan table).slots → id ∈ s.tenants → table.get id = some iv →
      iv.bytes ≤ s.bytes := by
  intro hrange hs hid hiv
  rcases getElem?_of_mem hs with ⟨k, hk⟩
  have hassigned := (mem_tenants hk).1 hid
  rcases mem_assignment.1 hassigned with ⟨iv', hiv', hmem⟩
  cases hiv.symm.trans hiv'
  have hfilled := (packRows_packed_inRange hrange).filled k s hk
  exact filledSlotInRange_bytes hfilled _ hmem

end Planner
end Rustorch
