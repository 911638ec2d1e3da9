import Rustorch.Planner.Allocator

/-!
# The peak against one buffer for each tensor

A slot's size is rounded up again whenever a tenant joins it.  The tenants arrive largest first,
so a tensor of at least one byte brings at least as much padding of its own as the slot gains.  A
tensor of no bytes brings none: when its alignment is stricter than the slot's, the slot grows for
it.  `plan_peak_le` is the bound for every run in which no such tensor makes its slot grow.
-/

namespace Rustorch
namespace Planner

open List

/-! ## Rounding to a multiple -/

theorem dvd_roundUpExact (bytes align : Nat) : max align 1 ∣ roundUpExact bytes align :=
  Dvd.intro_left _ rfl

theorem roundUpExact_of_dvd {bytes align : Nat} :
    max align 1 ∣ bytes → roundUpExact bytes align = bytes := by
  intro h
  have hmod : bytes % max align 1 = 0 := Nat.mod_eq_zero_of_dvd h
  rw [roundUpExact, divCeil, if_pos hmod]
  exact Nat.div_mul_cancel h

theorem roundUpExact_lt (bytes align : Nat) :
    roundUpExact bytes align < bytes + max align 1 := by
  have hdiv : max align 1 * (bytes / max align 1) + bytes % max align 1 = bytes :=
    Nat.div_add_mod bytes (max align 1)
  by_cases hmod : bytes % max align 1 = 0
  · have hdvd : max align 1 ∣ bytes := Nat.dvd_of_mod_eq_zero hmod
    rw [roundUpExact_of_dvd hdvd]
    omega
  · calc
      roundUpExact bytes align = (bytes / max align 1 + 1) * max align 1 := by
            rw [roundUpExact, divCeil, if_neg hmod]
      _ = max align 1 * (bytes / max align 1) + max align 1 := by
            rw [Nat.add_mul, Nat.one_mul, Nat.mul_comm]
      _ < bytes + max align 1 := by
            omega

theorem align_le_roundUpExact {bytes align : Nat} :
    1 ≤ bytes → max align 1 ≤ roundUpExact bytes align := by
  intro h
  exact Nat.le_of_dvd (le_trans h (le_roundUpExact bytes align)) (dvd_roundUpExact bytes align)

theorem roundUpExact_max_one (bytes align : Nat) :
    roundUpExact bytes (max align 1) = roundUpExact bytes align := by
  have hmax : max (max align 1) 1 = max align 1 := by
    omega
  rw [roundUpExact, roundUpExact, hmax]

/-! ## The naive baseline -/

/-- The bytes of a buffer of the tensor's own, rounded up to its alignment. -/
def naiveCost (r : Row) : Nat :=
  roundUpExact r.2.bytes r.2.align

/-- One buffer for each tensor. -/
def naiveTotal (table : LifetimeTable) : Nat :=
  (table.iter.map naiveCost).sum

/-- A tensor of no bytes is at home in the slot: the slot's size is a multiple of the alignment
the slot has afterwards. -/
def Slot.ZeroAligned (s : Slot) (r : Row) : Prop :=
  r.2.bytes = 0 → max s.align (max r.2.align 1) ∣ s.bytes

instance (s : Slot) (r : Row) : Decidable (s.ZeroAligned r) := inferInstanceAs (Decidable (_ → _))

/-- No tensor of no bytes makes the slot it joins grow: a condition on each packing step, read
off the slot before the step and the row it places. -/
def ZeroRowsAligned (table : LifetimeTable) : Prop :=
  FirstFit.RunOk Slot.fits Slot.new Slot.add (fun _ => True) Slot.ZeroAligned []
    (packingOrder table)

instance (table : LifetimeTable) : Decidable (ZeroRowsAligned table) :=
  FirstFit.decidableRunOk Slot.fits Slot.new Slot.add (fun _ => True) Slot.ZeroAligned []
    (packingOrder table)

/-! ## One slot -/

/-- The size of a slot is at most the sum over its tenants; and either a rounding has wrapped, so
that the sum is past the range of sizes, or the slot is a multiple of its alignment and holds
every tenant. -/
structure Slot.Bounded (rows : List Row) (s : Slot) : Prop where
  le : s.bytes ≤ (rows.map naiveCost).sum
  exact : u64Size ≤ (rows.map naiveCost).sum ∨
    (1 ≤ s.align ∧ s.align ∣ s.bytes ∧ ∀ r ∈ rows, r.2.bytes ≤ s.bytes)

variable {s : Slot} {rows : List Row}

theorem roundUp_join_le {r : Row} : 1 ≤ s.align → s.align ∣ s.bytes → s.ZeroAligned r →
      roundUpExact s.bytes (max s.align (max r.2.align 1)) ≤ s.bytes + naiveCost r := by
  intro hpos hdvd hzero
  rcases le_total (max r.2.align 1) s.align with hle | hle
  · have hmax : max (max s.align (max r.2.align 1)) 1 = s.align := by
      omega
    have hsame : roundUpExact s.bytes (max s.align (max r.2.align 1)) = s.bytes :=
      roundUpExact_of_dvd (by rw [hmax]; exact hdvd)
    rw [hsame]
    exact Nat.le_add_right _ _
  · have hmax : max s.align (max r.2.align 1) = max r.2.align 1 := max_eq_right hle
    rcases Nat.eq_zero_or_pos r.2.bytes with hnone | hsome
    · have hdvd' : max (max s.align (max r.2.align 1)) 1 ∣ s.bytes := by
        have hone : max (max s.align (max r.2.align 1)) 1 = max s.align (max r.2.align 1) := by
          omega
        rw [hone]
        exact hzero hnone
      rw [roundUpExact_of_dvd hdvd']
      exact Nat.le_add_right _ _
    · -- The padding is less than the alignment, which the tensor's own buffer is as large as.
      calc
        roundUpExact s.bytes (max s.align (max r.2.align 1))
            = roundUpExact s.bytes r.2.align := by
              rw [hmax, roundUpExact_max_one]
        _ ≤ s.bytes + max r.2.align 1 := le_of_lt (roundUpExact_lt _ _)
        _ ≤ s.bytes + naiveCost r := Nat.add_le_add_left (align_le_roundUpExact hsome) _

theorem roundUp_lt (bytes align : Nat) : roundUp bytes align < u64Size :=
  Nat.mod_lt _ (by decide)

theorem roundUp_le (bytes align : Nat) : roundUp bytes align ≤ roundUpExact bytes align :=
  Nat.mod_le _ _

theorem bounded_new (r : Row) : (Slot.new r).Bounded [r] := by
  have hcost : ([r].map naiveCost).sum = roundUpExact r.2.bytes (max r.2.align 1) := by
    simp [naiveCost, roundUpExact_max_one]
  refine ⟨?_, ?_⟩
  · rw [hcost]
    exact roundUp_le _ _
  · rw [hcost]
    rcases Nat.lt_or_ge (roundUpExact r.2.bytes (max r.2.align 1)) u64Size with hlt | hge
    · have hbytes : (Slot.new r).bytes = roundUpExact r.2.bytes (max r.2.align 1) :=
        Nat.mod_eq_of_lt hlt
      refine Or.inr ⟨le_max_right _ _, ?_, ?_⟩
      · have hdvd := dvd_roundUpExact r.2.bytes (max r.2.align 1)
        rw [max_eq_left (le_max_right r.2.align 1)] at hdvd
        exact hbytes ▸ hdvd
      · intro r' hr'
        rw [mem_singleton.1 hr', hbytes]
        exact le_roundUpExact _ _
    · exact Or.inl hge

/-- One join keeps the bound, when the tensor is no larger than the tenants before it. -/
theorem bounded_add {r : Row} :
    s.Bounded rows → (∃ a ∈ rows, r.2.bytes ≤ a.2.bytes) → s.ZeroAligned r →
      (s.add r).Bounded (rows ++ [r]) := by
  intro hs hlargest hzero
  have hsum : ((rows ++ [r]).map naiveCost).sum = (rows.map naiveCost).sum + naiveCost r := by
    simp
  have hlt : (s.add r).bytes < u64Size := roundUp_lt _ _
  -- an overflow of the naive sum bounds everything; else the slot is rounded exactly
  rcases hs.exact with hover | ⟨hpos, hdvd, hall⟩
  · have hover' : u64Size ≤ ((rows ++ [r]).map naiveCost).sum := by
      rw [hsum]
      exact le_trans hover (Nat.le_add_right _ _)
    exact ⟨le_trans (le_of_lt hlt) hover', Or.inl hover'⟩
  · rcases hlargest with ⟨a, ha, hra⟩
    have hmax : max s.bytes r.2.bytes = s.bytes := max_eq_left (le_trans hra (hall a ha))
    have hgrow : roundUpExact s.bytes (max s.align (max r.2.align 1)) ≤
        ((rows ++ [r]).map naiveCost).sum := by
      rw [hsum]
      exact le_trans (roundUp_join_le hpos hdvd hzero) (Nat.add_le_add_right hs.le _)
    have hbytes : (s.add r).bytes = roundUp s.bytes (max s.align (max r.2.align 1)) := by
      simp only [Slot.add, hmax]
    refine ⟨?_, ?_⟩
    · rw [hbytes]
      exact le_trans (roundUp_le _ _) hgrow
    · rcases Nat.lt_or_ge (roundUpExact s.bytes (max s.align (max r.2.align 1))) u64Size with
        hin | hout
      · have hexact : (s.add r).bytes = roundUpExact s.bytes (max s.align (max r.2.align 1)) := by
          rw [hbytes, roundUp, Nat.mod_eq_of_lt hin]
        have hle : s.bytes ≤ (s.add r).bytes := by
          rw [hexact]
          exact le_roundUpExact _ _
        refine Or.inr ⟨le_trans hpos (le_max_left _ _), ?_, ?_⟩
        · have hdvd' := dvd_roundUpExact s.bytes (max s.align (max r.2.align 1))
          have hone : max (max s.align (max r.2.align 1)) 1 = max s.align (max r.2.align 1) := by
            omega
          rw [hone] at hdvd'
          exact hexact ▸ hdvd'
        · intro b hb
          rcases mem_append.1 hb with hb | hb
          · exact le_trans (hall b hb) hle
          · rw [mem_singleton.1 hb]
            exact le_trans (le_trans hra (hall a ha)) hle
      · exact Or.inl (le_trans hout hgrow)

theorem filled_bounded : FirstFit.Filled Slot.new Slot.add (fun _ => True) Slot.ZeroAligned rows s →
      rows.Pairwise (fun a b => b.2.bytes ≤ a.2.bytes) → s.Bounded rows := by
  intro h
  induction h with
  | @fresh a _ =>
    intro _
    exact bounded_new a
  | @add l s a hl hzero ih =>
    intro hsorted
    rcases pairwise_append.1 hsorted with ⟨hleft, _, hlast⟩
    have hne : l ≠ [] := by
      cases hl with
      | fresh _ =>
        exact cons_ne_nil _ _
      | add _ _ =>
        exact append_ne_nil_of_right_ne_nil _ (cons_ne_nil _ _)
    rcases exists_mem_of_ne_nil l hne with ⟨b, hb⟩
    exact bounded_add (ih hleft) ⟨b, hb, hlast b hb a (mem_singleton_self a)⟩ hzero

/-! ## The whole plan -/

theorem packingOrder_sorted (table : LifetimeTable) :
    (packingOrder table).Pairwise (fun a b => b.2.bytes ≤ a.2.bytes) := by
  refine (pairwise_insertionSort _ table.iter).imp ?_
  intro a b hab
  rcases rowLe_iff.1 hab with hlt | ⟨heq, _⟩
  · exact le_of_lt hlt
  · exact le_of_eq heq

/-- At every point of a guarded packing run, the slots take at most one buffer for each tensor
placed so far. -/
theorem packRows_le {done rest : List Row} :
    FirstFit.RunOk Slot.fits Slot.new Slot.add (fun _ => True) Slot.ZeroAligned []
        (done ++ rest) →
      (done ++ rest).Pairwise (fun a b => b.2.bytes ≤ a.2.bytes) →
        ((packRows done).1.map Slot.bytes).sum ≤ (done.map naiveCost).sum := by
  intro hrun hsorted
  have hpacked := FirstFit.pack_packed hrun.left
  have hitems : (packRows done).2.map Prod.fst = done := FirstFit.pack_items done
  have hslots : ∀ k s, (packRows done).1[k]? = some s →
      s.bytes ≤ ((FirstFit.contents (packRows done).2 k).map naiveCost).sum := by
    intro k s hs
    refine (filled_bounded (hpacked.filled k s hs) ?_).le
    have hsub := FirstFit.contents_sublist (packRows done).2 k
    rw [hitems] at hsub
    exact ((pairwise_append.1 hsorted).1).sublist hsub
  calc
    ((packRows done).1.map Slot.bytes).sum
        ≤ ((packRows done).2.map (fun p => naiveCost p.1)).sum :=
          hpacked.sum_le Slot.bytes naiveCost hslots
    _ = (((packRows done).2.map Prod.fst).map naiveCost).sum := by
          simp [Function.comp_def]
    _ = (done.map naiveCost).sum := by
          rw [hitems]

theorem peakBytes_le (p : PlanResult) : p.peakBytes ≤ (p.slots.map Slot.bytes).sum := by
  have hfold : ∀ (slots : List Slot) (acc : Nat),
      slots.foldl (fun acc s => (acc + s.bytes) % u64Size) acc ≤
        acc + (slots.map Slot.bytes).sum := by
    intro slots
    induction slots with
    | nil =>
      intro acc
      simp
    | cons s slots ih =>
      intro acc
      calc
        slots.foldl (fun acc s => (acc + s.bytes) % u64Size) ((acc + s.bytes) % u64Size)
            ≤ (acc + s.bytes) % u64Size + (slots.map Slot.bytes).sum := ih _
        _ ≤ acc + s.bytes + (slots.map Slot.bytes).sum :=
              Nat.add_le_add_right (Nat.mod_le _ _) _
        _ = acc + ((s :: slots).map Slot.bytes).sum := by
              rw [map_cons, sum_cons, Nat.add_assoc]
  simpa [PlanResult.peakBytes] using hfold p.slots 0

/-- In every packing run in which no tensor of no bytes makes its slot grow, the slots take at
every point at most one buffer for each tensor placed so far, and the peak is at most one buffer
for each tensor of the table. -/
theorem plan_peak_le (table : LifetimeTable) :
    ZeroRowsAligned table →
      (∀ done rest, packingOrder table = done ++ rest →
        ((packRows done).1.map Slot.bytes).sum ≤ (done.map naiveCost).sum) ∧
      (plan table).peakBytes ≤ naiveTotal table := by
  intro hrun
  have hpoint : ∀ done rest, packingOrder table = done ++ rest →
      ((packRows done).1.map Slot.bytes).sum ≤ (done.map naiveCost).sum := by
    intro done rest heq
    have hsorted := packingOrder_sorted table
    rw [ZeroRowsAligned, heq] at hrun
    rw [heq] at hsorted
    exact packRows_le hrun hsorted
  refine ⟨hpoint, ?_⟩
  calc
    (plan table).peakBytes ≤ ((plan table).slots.map Slot.bytes).sum := peakBytes_le _
    _ ≤ ((packingOrder table).map naiveCost).sum :=
          hpoint (packingOrder table) [] (append_nil _).symm
    _ = naiveTotal table := ((packingOrder_perm table).map naiveCost).sum_eq

/-- Two tensors of 10 bytes, alive one after the other, and an empty tensor after them that the
shared slot already has the alignment for. -/
def alignedTable : LifetimeTable :=
  ((LifetimeTable.new.recordDefWithAlign ⟨0⟩ 0 10 8).recordDefWithAlign ⟨1⟩ 1 10
    4).recordDefWithAlign ⟨2⟩ 2 0 8

theorem plan_peak_aligned :
    (plan alignedTable).peakBytes ≤ naiveTotal alignedTable :=
  (plan_peak_le alignedTable (by decide)).2

/-- A tensor of 10 bytes, and after it an empty tensor of alignment 16. -/
def emptyTensorTable : LifetimeTable :=
  (LifetimeTable.new.recordDefWithAlign ⟨0⟩ 0 10 1).recordDefWithAlign ⟨1⟩ 1 0 16

/-- The empty tensor joins the slot and makes it 16 bytes large; one buffer for each tensor takes
10 bytes. -/
theorem plan_peak_empty_tensor :
    ¬ (plan emptyTensorTable).peakBytes ≤ naiveTotal emptyTensorTable := by
  decide

end Planner
end Rustorch
