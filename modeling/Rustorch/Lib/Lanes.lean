import Mathlib.Algebra.BigOperators.Fin
import Mathlib.Algebra.BigOperators.Intervals
import Mathlib.Tactic.Abel
import Rustorch.Lib.Traversal

/-!
# Four-lane registers

A vector loop over a row takes eight cells at a time in two registers of four lanes, and a scalar
loop takes the cells that are left.  Over exact scalars the two loops together give the sum that one
scalar loop gives (`groupSum_eq`), and store the cells that it stores (`groupMap_eq`).
-/

namespace Lanes

open List

/-- A register. -/
abbrev Register (F : Type) : Type := Fin 4 → F

section Operations

variable {F : Type}

/-- `vdupq_n`. -/
def dup (c : F) : Register F := fun _ => c

/-- `vld1q`: four cells from `off` on.  The loops load inside the row only. -/
def load [Zero F] (xs : List F) (off : Nat) : Register F := fun lane => xs.getD (off + lane) 0

/-- `vst1q`: the four cells written. -/
def store (v : Register F) : List F :=
  [v 0, v 1, v 2, v 3]

/-- `vfmaq`. -/
def fma [Add F] [Mul F] (acc a b : Register F) : Register F := fun lane => acc lane + a lane * b lane

/-- `vaddvq`. -/
def sumLanes [AddCommMonoid F] (v : Register F) : F :=
  ∑ lane, v lane

theorem load_map_range [Zero F] {f : Nat → F} {d off : Nat} :
    off + 4 ≤ d → load ((range d).map f) off = fun lane : Fin 4 => f (off + lane) := by
  intro h
  funext lane
  have hlt : off + lane < d := by omega
  simp [load, hlt]

end Operations

/-! ## Sums -/

section Sums

variable {F : Type} [AddCommMonoid F]

/-- The accumulators of two registers after `c` groups of eight cells. -/
def accumulate (update : Register F → Register F → Register F) (row : List F) (c : Nat) :
    Register F × Register F :=
  (range c).foldl
    (fun acc i => (update acc.1 (load row (i * 8)), update acc.2 (load row (i * 8 + 4))))
    (dup 0, dup 0)

/-- The groups of eight by registers, the lanes added up, and the cells that are left one by one. -/
def groupSum (update : Register F → Register F → Register F) (scalar : F → F → F) (d : Nat)
    (row : List F) : F :=
  let acc := accumulate update row (d / 8)
  (row.drop (d / 8 * 8)).foldl scalar (sumLanes (acc.1 + acc.2))

variable {update : Register F → Register F → Register F} {scalar : F → F → F} {g : F → F}

theorem foldl_scalar (hscalar : ∀ s v, scalar s v = s + g v) (xs : List F) :
    ∀ acc : F, xs.foldl scalar acc = acc + (xs.map g).sum := by
  induction xs with
  | nil =>
    intro acc
    simp
  | cons x xs ih =>
    intro acc
    rw [foldl_cons, ih, hscalar, map_cons, sum_cons, add_assoc]

variable {f : Nat → F} {d : Nat}

theorem accumulate_eq
    (hupdate : ∀ acc v : Register F, update acc v = fun lane => acc lane + g (v lane)) (c : Nat) :
    c * 8 ≤ d → accumulate update ((range d).map f) c =
      (fun lane : Fin 4 => ∑ i ∈ Finset.range c, g (f (i * 8 + lane)),
        fun lane : Fin 4 => ∑ i ∈ Finset.range c, g (f (i * 8 + 4 + lane))) := by
  induction c with
  | zero =>
    intro _
    rfl
  | succ c ih =>
    intro h
    have hprev := ih (by omega)
    unfold accumulate at hprev ⊢
    rw [range_succ, foldl_append, hprev]
    simp only [foldl_cons, foldl_nil, hupdate, Finset.sum_range_succ,
      load_map_range (by omega : c * 8 + 4 ≤ d), load_map_range (by omega : c * 8 + 4 + 4 ≤ d)]

theorem sumLanes_groups (f : Nat → F) (c : Nat) :
    sumLanes ((fun lane : Fin 4 => ∑ i ∈ Finset.range c, f (i * 8 + lane)) +
        fun lane : Fin 4 => ∑ i ∈ Finset.range c, f (i * 8 + 4 + lane)) =
      ∑ j ∈ Finset.range (c * 8), f j := by
  induction c with
  | zero => simp [sumLanes]
  | succ c ih =>
    have hrow : ∑ j ∈ Finset.range ((c + 1) * 8), f j =
        (∑ j ∈ Finset.range (c * 8), f j) + ∑ j ∈ Finset.range 8, f (c * 8 + j) := by
      rw [Nat.succ_mul, Finset.sum_range_add]
    rw [hrow, ← ih]
    simp only [sumLanes, Fin.sum_univ_four, Pi.add_apply, Finset.sum_range_succ,
      Finset.sum_range_zero, Nat.add_assoc]
    simp
    abel

theorem drop_map_range {α : Type} {f : Nat → α} {t : Nat} :
    t ≤ d → ((range d).map f).drop t = (range (d - t)).map (fun i => f (t + i)) := by
  intro h
  obtain ⟨n, rfl⟩ := Nat.exists_eq_add_of_le h
  rw [range_add, map_append, drop_left' (by simp), Nat.add_sub_cancel_left, map_map]
  rfl

/-- The vector loop and the loop over the rest add up the row. -/
theorem groupSum_eq
    (hupdate : ∀ acc v : Register F, update acc v = fun lane => acc lane + g (v lane))
    (hscalar : ∀ s v, scalar s v = s + g v) :
    groupSum update scalar d ((range d).map f) = ∑ j ∈ Finset.range d, g (f j) := by
  have hle : d / 8 * 8 ≤ d := Nat.div_mul_le_self d 8
  rw [groupSum, accumulate_eq hupdate _ hle, sumLanes_groups (fun j => g (f j)), drop_map_range hle,
    foldl_scalar hscalar, map_map]
  obtain ⟨n, hn⟩ := Nat.exists_eq_add_of_le hle
  have hrest : d - d / 8 * 8 = n := by omega
  conv_rhs => rw [hn, Finset.sum_range_add]
  rw [hrest]
  rfl

end Sums

/-! ## Cells -/

section Cells

variable {F : Type}

/-- The cells that two stores for each group of eight leave. -/
theorem flatMap_store (f : Nat → F) (c : Nat) :
    ((range c).flatMap fun i => store (fun lane : Fin 4 => f (i * 8 + lane)) ++
        store (fun lane : Fin 4 => f (i * 8 + 4 + lane))) = (range (c * 8)).map f := by
  induction c with
  | zero => simp
  | succ c ih =>
    rw [range_succ, flatMap_append, ih, Nat.succ_mul, range_add, map_append, flatMap_singleton]
    rfl

/-- The cells that are stored by groups of eight, and those that are left one by one. -/
def groupMap (lanes : Nat → Register F) (cell : Nat → Option F) (d : Nat) : Option (List F) := do
  let rest ← ((range d).drop (d / 8 * 8)).mapM cell
  some (((range (d / 8)).flatMap fun i =>
    store (lanes (i * 8)) ++ store (lanes (i * 8 + 4))) ++ rest)

/-- Registers and cells that compute one function store its values. -/
theorem groupMap_eq {lanes : Nat → Register F} {cell : Nat → Option F} {f : Nat → F} {d : Nat}
    (hlanes : ∀ off, off + 4 ≤ d → lanes off = fun lane : Fin 4 => f (off + lane))
    (hcell : ∀ i < d, cell i = some (f i)) :
    groupMap lanes cell d = some ((range d).map f) := by
  have hle : d / 8 * 8 ≤ d := Nat.div_mul_le_self d 8
  have hstores : ((range (d / 8)).flatMap fun i =>
      store (lanes (i * 8)) ++ store (lanes (i * 8 + 4))) = (range (d / 8 * 8)).map f := by
    rw [← flatMap_store]
    refine flatMap_congr ?_
    intro i hi
    have hi := mem_range.1 hi
    rw [hlanes _ (by omega), hlanes _ (by omega)]
  have hrest : ((range d).drop (d / 8 * 8)).mapM cell =
      some (((range d).drop (d / 8 * 8)).map f) := by
    refine Traversal.mapM_eq_map ?_
    intro i hi
    exact hcell i (mem_range.1 (mem_of_mem_drop hi))
  have hwhole : range (d / 8 * 8) ++ (range d).drop (d / 8 * 8) = range d := by
    rw [← Nat.min_eq_left hle, ← take_range, Nat.min_eq_left hle, take_append_drop]
  rw [groupMap, hrest, Option.bind_eq_bind, Option.bind_some, hstores, ← map_append, hwhole]

end Cells

end Lanes
