import Mathlib.Data.List.AList

/-!
# Tensor lifetimes

`Interval` is the closed range of steps in which a tensor is alive, and `LifetimeTable` maps
tensor ids to intervals.  The table is a hash map: it is modelled by an association list with
distinct keys, in one arbitrary iteration order.  Steps are `u32`, byte counts are `u64`.

The table's constructors keep `def ≤ last_use` and `1 ≤ align`, so both are fields of the table.
-/

namespace Rustorch
namespace Planner

/-! ## Identifiers and intervals -/

structure TensorId where
  val : Nat
  deriving DecidableEq, Repr

structure Interval where
  defStep : Nat
  lastUse : Nat
  bytes : Nat
  align : Nat
  deriving DecidableEq, Repr

/-- Closed-interval intersection, as the source tests it. -/
def Interval.overlaps (a b : Interval) : Bool :=
  decide (a.defStep ≤ b.lastUse) && decide (b.defStep ≤ a.lastUse)

/-- The steps at which the tensor is alive. -/
def Interval.Alive (a : Interval) (s : Nat) : Prop :=
  a.defStep ≤ s ∧ s ≤ a.lastUse

structure Interval.Valid (a : Interval) : Prop where
  def_le : a.defStep ≤ a.lastUse
  align_pos : 1 ≤ a.align

theorem Interval.overlaps_comm (a b : Interval) : a.overlaps b = b.overlaps a := by
  simp [Interval.overlaps, Bool.and_comm]

/-- On valid intervals the source's test is intersection of the two step ranges. -/
theorem Interval.overlaps_iff {a b : Interval} :
    a.Valid → b.Valid → (a.overlaps b = true ↔ ∃ s, a.Alive s ∧ b.Alive s) := by
  intro ha hb
  constructor
  · intro h
    have h' : a.defStep ≤ b.lastUse ∧ b.defStep ≤ a.lastUse := by
      simpa [Interval.overlaps] using h
    have := ha.def_le
    have := hb.def_le
    refine ⟨max a.defStep b.defStep, ⟨?_, ?_⟩, ⟨?_, ?_⟩⟩ <;> omega
  · rintro ⟨s, hsa, hsb⟩
    have h₁ : a.defStep ≤ b.lastUse := le_trans hsa.1 hsb.2
    have h₂ : b.defStep ≤ a.lastUse := le_trans hsb.1 hsa.2
    simp [Interval.overlaps, h₁, h₂]

/-! ## The table -/

structure LifetimeTable where
  intervals : AList (fun _ : TensorId => Interval)
  valid : ∀ id iv, intervals.lookup id = some iv → iv.Valid

namespace LifetimeTable

inductive LifetimeError
  | useBeforeDef (id : TensorId) (step : Nat)
  deriving DecidableEq, Repr

def new : LifetimeTable where
  intervals := ∅
  valid := by
    intro id iv h
    simp at h

def get (t : LifetimeTable) (id : TensorId) : Option Interval :=
  t.intervals.lookup id

/-- Iterate over all `(id, interval)` pairs, in hash-map order. -/
def iter (t : LifetimeTable) : List (TensorId × Interval) :=
  t.intervals.entries.map (fun e => (e.1, e.2))

/-- Replace the interval of `id`. -/
def set (t : LifetimeTable) (id : TensorId) (iv : Interval) (h : iv.Valid) : LifetimeTable where
  intervals := t.intervals.insert id iv
  valid := by
    intro id' iv' h'
    by_cases hid : id' = id
    · subst hid
      rw [AList.lookup_insert] at h'
      cases h'
      exact h
    · rw [AList.lookup_insert_ne hid] at h'
      exact t.valid id' iv' h'

@[simp] theorem get_new (id : TensorId) : new.get id = none :=
  AList.lookup_empty id

variable (t : LifetimeTable)

include t

@[simp] theorem get_set_self (id : TensorId) (iv : Interval) (h : iv.Valid) :
    (t.set id iv h).get id = some iv :=
  AList.lookup_insert _

theorem get_set_of_ne {id id' : TensorId} (iv : Interval) (h : iv.Valid) :
    id' ≠ id → (t.set id iv h).get id' = t.get id' := by
  intro hne
  exact AList.lookup_insert_ne hne

/-- The interval that `record_def_with_align` stores: a fresh one, or the envelope of the old
one and the new definition. -/
def defInterval (old : Option Interval) (step bytes align : Nat) : Interval :=
  match old with
  | none =>
    { defStep := step, lastUse := step, bytes := bytes, align := max align 1 }
  | some iv =>
    { defStep := min iv.defStep step
      lastUse := max iv.lastUse step
      bytes := max iv.bytes bytes
      align := max iv.align (max align 1) }

omit t in
theorem defInterval_valid (old : Option Interval) (step bytes align : Nat) :
    (defInterval old step bytes align).Valid := by
  cases old with
  | none =>
    exact ⟨le_refl step, le_max_right align 1⟩
  | some iv =>
    refine ⟨?_, ?_⟩
    · exact le_trans (min_le_right _ _) (le_max_right _ _)
    · exact le_trans (le_max_right align 1) (le_max_right _ _)

def recordDefWithAlign (t : LifetimeTable) (id : TensorId) (step bytes align : Nat) :
    LifetimeTable :=
  t.set id (defInterval (t.get id) step bytes align) (defInterval_valid _ _ _ _)

def recordDef (t : LifetimeTable) (id : TensorId) (step bytes : Nat) : LifetimeTable :=
  t.recordDefWithAlign id step bytes 1

/-- Extend `last_use` to at least `step`, or report the use of an undefined tensor. -/
def recordUse (t : LifetimeTable) (id : TensorId) (step : Nat) :
    Except LifetimeError LifetimeTable :=
  match h : t.get id with
  | some iv =>
    .ok (t.set id { iv with lastUse := max iv.lastUse step }
      ⟨le_trans (t.valid id iv h).def_le (le_max_left _ _), (t.valid id iv h).align_pos⟩)
  | none => .error (.useBeforeDef id step)

/-- `let _ = record_use(..)`: an error leaves the table as it was. -/
def recordUseIgnored (t : LifetimeTable) (id : TensorId) (step : Nat) : LifetimeTable :=
  match t.recordUse id step with
  | .ok t' => t'
  | .error _ => t

/-! ## What a lookup sees after an update -/

theorem get_recordDefWithAlign (id id' : TensorId) (step bytes align : Nat) :
    (t.recordDefWithAlign id step bytes align).get id' =
      if id' = id then some (defInterval (t.get id) step bytes align) else t.get id' := by
  by_cases h : id' = id
  · subst h
    simp [recordDefWithAlign]
  · rw [if_neg h]
    exact get_set_of_ne t _ _ h

theorem get_recordUseIgnored (id id' : TensorId) (step : Nat) :
    (t.recordUseIgnored id step).get id' =
      if id' = id then (t.get id).map (fun iv => { iv with lastUse := max iv.lastUse step })
      else t.get id' := by
  unfold recordUseIgnored recordUse
  split
  · rename_i t' ht'
    split at ht'
    · rename_i iv hiv
      cases ht'
      by_cases h : id' = id
      · subst h
        simp [hiv]
      · rw [if_neg h]
        exact get_set_of_ne t _ _ h
    · cases ht'
  · rename_i e ht'
    split at ht'
    · cases ht'
    · rename_i hnone
      by_cases h : id' = id
      · subst h
        simp [hnone]
      · rw [if_neg h]

omit t in
theorem mem_iter {t : LifetimeTable} {id : TensorId} {iv : Interval} :
    (id, iv) ∈ t.iter ↔ t.get id = some iv := by
  constructor
  · intro h
    rcases List.mem_map.1 h with ⟨⟨id', iv'⟩, hmem, heq⟩
    cases heq
    exact AList.mem_lookup_iff.2 hmem
  · intro h
    exact List.mem_map.2 ⟨⟨id, iv⟩, AList.mem_lookup_iff.1 h, rfl⟩

theorem nodup_iter_ids : (t.iter.map Prod.fst).Nodup := by
  have h := t.intervals.keys_nodup
  have heq : t.iter.map Prod.fst = t.intervals.keys := by
    simp [iter, AList.keys, List.keys, Function.comp_def]
  rw [heq]
  exact h

end LifetimeTable

end Planner
end Rustorch
