import Mathlib.Data.List.GetD
import Mathlib.Order.Nat
import Rustorch.Fusion.Pattern
import Rustorch.Lib.Runs

/-!
# The flag that disables fusion

`NO_FUSE` is one flag for the whole process.  A `NoFuseGuard` saves the flag, sets it, and puts the
saved value back when it is dropped.  Guards are created and dropped in any order and from any
thread; each of the two operations is one step.

The saved values are right exactly as long as no drop takes the oldest of several guards
(`scoped_iff`).
-/

namespace Rustorch
namespace Fusion

open List Runs

/-! ## Guards -/

/-- The value that a guard saved. -/
structure NoFuseGuard where
  prev : Bool
  deriving DecidableEq, Repr

/-- The flag, and the guards in the order of their creation; `none` is one that was dropped. -/
structure Dispatcher where
  noFuse : Bool
  guards : List (Option NoFuseGuard)
  deriving DecidableEq, Repr

inductive GuardCall
  | enter
  | drop (i : Nat)
  deriving DecidableEq, Repr

namespace Dispatcher

def start (flag : Bool) : Dispatcher where
  noFuse := flag
  guards := []

def setNoFuse (d : Dispatcher) (disabled : Bool) : Dispatcher :=
  { d with noFuse := disabled }

def enter (d : Dispatcher) : Dispatcher :=
  let prev := d.noFuse
  let d := d.setNoFuse true
  { d with guards := d.guards ++ [some { prev }] }

/-- A guard is dropped once: there is none left to drop again. -/
def drop (d : Dispatcher) (i : Nat) : Dispatcher :=
  match d.guards[i]? with
  | some (some guard) =>
    let d := d.setNoFuse guard.prev
    { d with guards := d.guards.set i none }
  | _ => d

def step (d : Dispatcher) : GuardCall → Dispatcher
  | .enter => d.enter
  | .drop i => d.drop i

end Dispatcher

/-! ## The registry -/

inductive FuseDecision
  | apply
  | skip
  deriving DecidableEq, Repr

structure FusionRegistry where
  patterns : List Pattern

namespace FusionRegistry

def register (r : FusionRegistry) (pattern : Pattern) : FusionRegistry :=
  { r with patterns := r.patterns ++ [pattern] }

def decide (r : FusionRegistry) (d : Dispatcher) (patternLabel : String) : FuseDecision :=
  -- the flag wins over the patterns
  if d.noFuse then
    .skip
  else if r.patterns.any (fun p => p.label == patternLabel) then
    .apply
  else
    .skip

end FusionRegistry

/-! ## Scopes -/

namespace Dispatcher

def Alive (d : Dispatcher) (i : Nat) : Prop :=
  ∃ guard, d.guards[i]? = some (some guard)

/-- Fusion is off while a guard is alive, and as it was without one. -/
structure Scoped (flag : Bool) (d : Dispatcher) : Prop where
  off : ∀ i, d.Alive i → d.noFuse = true
  restored : (∀ i, ¬ d.Alive i) → d.noFuse = flag

/-- A guard that is dropped leaves an older one alive, or none. -/
def OldestLast (d : Dispatcher) : GuardCall → Prop
  | .enter => True
  | .drop i => d.Alive i → (∃ j < i, d.Alive j) ∨ ∀ j, d.Alive j → j = i

variable {d : Dispatcher} {flag : Bool} {i j : Nat}

/-- No pattern is applied while a guard is alive, and without one those that were. -/
theorem decide_scoped (r : FusionRegistry) (label : String) (h : Scoped flag d) :
    (∀ i, d.Alive i → r.decide d label = .skip) ∧
      ((∀ i, ¬ d.Alive i) → r.decide d label = r.decide (start flag) label) := by
  constructor
  · intro i hi
    exact if_pos (h.off i hi)
  · intro hnone
    rw [FusionRegistry.decide, h.restored hnone]
    rfl

theorem lt_of_alive : d.Alive i → i < d.guards.length := by
  rintro ⟨guard, h⟩
  exact (List.getElem?_eq_some_iff.1 h).1

theorem getElem?_enter : d.enter.guards[i]? =
    if i = d.guards.length then some (some ⟨d.noFuse⟩) else d.guards[i]? := by
  change (d.guards ++ [some ⟨d.noFuse⟩])[i]? = _
  split
  · next h => rw [h, getElem?_concat_length]
  · next h =>
      rcases Nat.lt_or_gt_of_ne h with hlt | hgt
      · exact getElem?_append_left hlt
      · rw [getElem?_eq_none (by simpa using Nat.succ_le_of_lt hgt), getElem?_eq_none hgt.le]

theorem alive_enter : d.enter.Alive i ↔ i = d.guards.length ∨ d.Alive i := by
  unfold Alive
  rw [getElem?_enter]
  by_cases h : i = d.guards.length
  · simp [h]
  · simp [h]

theorem drop_eq {guard : NoFuseGuard} (h : d.guards[i]? = some (some guard)) :
    d.drop i = { noFuse := guard.prev, guards := d.guards.set i none } := by
  simp only [drop, h]
  rfl

theorem drop_of_not_alive (h : ¬ d.Alive i) : d.drop i = d := by
  unfold drop
  split
  · next guard hguard => exact absurd ⟨guard, hguard⟩ h
  · rfl

theorem getElem?_drop {guard guard' : NoFuseGuard} (h : d.guards[i]? = some (some guard)) :
    (d.drop i).guards[j]? = some (some guard') ↔ j ≠ i ∧ d.guards[j]? = some (some guard') := by
  rw [drop_eq h, getElem?_set]
  by_cases hij : i = j
  · subst hij
    have hlt := lt_of_alive ⟨guard, h⟩
    simp [hlt]
  · simp [hij, Ne.symm hij]

theorem alive_drop (h : d.Alive i) : (d.drop i).Alive j ↔ j ≠ i ∧ d.Alive j := by
  obtain ⟨guard, hguard⟩ := h
  unfold Alive
  simp only [getElem?_drop hguard, exists_and_left]

/-! ## Starting with fusion on -/

/-- A guard saved `true` exactly if an older one is alive. -/
structure Ordered (d : Dispatcher) : Prop where
  flag : d.noFuse = true ↔ ∃ i, d.Alive i
  saved : ∀ (i : Nat) (guard : NoFuseGuard), d.guards[i]? = some (some guard) →
    (guard.prev = true ↔ ∃ j < i, d.Alive j)

theorem ordered_start : Ordered (start false) :=
  { flag := by simp [start, Alive]
    saved := by simp [start] }

theorem Ordered.scoped (h : Ordered d) : Scoped false d :=
  { off := fun i hi => h.flag.2 ⟨i, hi⟩
    restored := fun hnone => by
      rw [← Bool.not_eq_true, h.flag]
      exact fun ⟨i, hi⟩ => hnone i hi }

theorem Ordered.enter (h : Ordered d) : Ordered d.enter := by
  constructor
  · have hlast : d.enter.Alive d.guards.length := alive_enter.2 (.inl rfl)
    exact ⟨fun _ => ⟨_, hlast⟩, fun _ => rfl⟩
  · intro i guard hguard
    have hbelow : i ≤ d.guards.length →
        ((∃ j < i, d.enter.Alive j) ↔ ∃ j < i, d.Alive j) := by
      intro hi
      refine exists_congr fun j => and_congr_right fun hj => ?_
      rw [alive_enter, or_iff_right (Nat.ne_of_lt (hj.trans_le hi))]
    rw [getElem?_enter] at hguard
    split at hguard
    -- The new guard saves the flag, and every guard alive is older.
    · next heq =>
        cases hguard
        rw [hbelow heq.le, h.flag]
        refine exists_congr fun j => ?_
        rw [heq]
        exact ⟨fun hj => ⟨lt_of_alive hj, hj⟩, And.right⟩
    · rw [hbelow (lt_of_alive ⟨guard, hguard⟩).le]
      exact h.saved i guard hguard

theorem Ordered.drop (h : Ordered d) (hlast : OldestLast d (.drop i)) : Ordered (d.drop i) := by
  by_cases halive : d.Alive i
  · obtain ⟨guard, hguard⟩ := halive
    have hflag : (d.drop i).noFuse = guard.prev := by rw [drop_eq hguard]
    constructor
    · rw [hflag, h.saved i guard hguard]
      constructor
      · rintro ⟨j, hj, hjalive⟩
        exact ⟨j, (alive_drop ⟨guard, hguard⟩).2 ⟨hj.ne, hjalive⟩⟩
      -- The guard that is left is not the dropped one, so an older one is.
      · rintro ⟨j, hj⟩
        obtain ⟨hne, hjalive⟩ := (alive_drop ⟨guard, hguard⟩).1 hj
        rcases hlast ⟨guard, hguard⟩ with holder | honly
        · exact holder
        · exact absurd (honly j hjalive) hne
    · intro j guard' hguard'
      obtain ⟨hne, hkept⟩ := (getElem?_drop hguard).1 hguard'
      rw [h.saved j guard' hkept]
      constructor
      · rintro ⟨k, hk, hkalive⟩
        by_cases hki : k = i
        · subst hki
          -- The dropped guard was older, so one older still is alive.
          rcases hlast hkalive with ⟨l, hl, hlalive⟩ | honly
          · exact ⟨l, hl.trans hk, (alive_drop hkalive).2 ⟨hl.ne, hlalive⟩⟩
          · exact absurd (honly j ⟨guard', hkept⟩) hne
        · exact ⟨k, hk, (alive_drop ⟨guard, hguard⟩).2 ⟨hki, hkalive⟩⟩
      · rintro ⟨k, hk, hkalive⟩
        exact ⟨k, hk, ((alive_drop ⟨guard, hguard⟩).1 hkalive).2⟩
  · rwa [drop_of_not_alive halive]

variable {e : GuardCall}

theorem Ordered.step (h : Ordered d) (hlast : OldestLast d e) : Ordered (d.step e) := by
  cases e with
  | enter => exact h.enter
  | drop i => exact h.drop hlast

/-- The oldest of several guards saved `false`, and its drop turns fusion on. -/
theorem Ordered.oldestLast (h : Ordered d) (hscoped : Scoped false (d.step e)) :
    OldestLast d e := by
  cases e with
  | enter => trivial
  | drop i =>
    intro halive
    -- Else this is the oldest of several: it saved `false`, and another is alive.
    by_contra hviolated
    obtain ⟨hnone, hother⟩ := not_or.1 hviolated
    obtain ⟨j, hother⟩ := not_forall.1 hother
    obtain ⟨hj, hne⟩ := Classical.not_imp.1 hother
    obtain ⟨guard, hguard⟩ := halive
    have hon : (d.drop i).noFuse = true :=
      hscoped.off j ((alive_drop ⟨guard, hguard⟩).2 ⟨hne, hj⟩)
    rw [drop_eq hguard] at hon
    exact hnone ((h.saved i guard hguard).1 hon)

/-! ## Starting with fusion off -/

/-- Every guard saved `true`. -/
structure Off (d : Dispatcher) : Prop where
  flag : d.noFuse = true
  saved : ∀ (i : Nat) (guard : NoFuseGuard), d.guards[i]? = some (some guard) → guard.prev = true

theorem Off.step (h : Off d) : Off (d.step e) := by
  cases e with
  | enter =>
    refine ⟨rfl, ?_⟩
    intro i guard hguard
    change d.enter.guards[i]? = _ at hguard
    rw [getElem?_enter] at hguard
    split at hguard
    · cases hguard
      exact h.flag
    · exact h.saved i guard hguard
  | drop i =>
    change Off (d.drop i)
    by_cases halive : d.Alive i
    · obtain ⟨guard, hguard⟩ := halive
      refine ⟨?_, ?_⟩
      · rw [drop_eq hguard]
        exact h.saved i guard hguard
      · intro j guard' hguard'
        exact h.saved j guard' ((getElem?_drop hguard).1 hguard').2
    · rwa [drop_of_not_alive halive]

/-! ## Runs -/

/-- In every state of a run the guards alive decide the flag. -/
def ScopedRun (flag : Bool) (calls : List GuardCall) : Prop :=
  ∀ before after, calls = before ++ after → Scoped flag (run step (start flag) before)

/-- Guards compose exactly as long as no drop takes the oldest of several guards, or fusion was off
from the start. -/
theorem scoped_iff (flag : Bool) (calls : List GuardCall) :
    ScopedRun flag calls ↔ flag = true ∨ Along step OldestLast (start flag) calls := by
  cases flag with
  | false =>
    rw [or_iff_right (by decide)]
    exact forall_reached_iff Ordered (fun d h => h.scoped) (fun d e hlast h => h.step hlast)
      (fun d e h hscoped => h.oldestLast hscoped) ordered_start
  | true =>
    refine iff_of_true ?_ (.inl rfl)
    intro before after _
    have hoff : Off (run step (start true) before) :=
      invariant Off (fun d e _ h => h.step) along_true ⟨rfl, by simp [start]⟩
    exact ⟨fun _ _ => hoff.flag, fun _ => hoff.flag⟩

/-- The older of two guards is dropped first: fusion is on while the younger is alive, and off
when both are gone. -/
theorem not_scopedRun_overlap :
    ¬ ScopedRun false [.enter, .enter, .drop 0, .drop 1] ∧
      (run step (start false) [.enter, .enter, .drop 0, .drop 1]).noFuse = true := by
  refine ⟨?_, by decide⟩
  intro h
  have hscoped := h [.enter, .enter, .drop 0] [.drop 1] rfl
  exact absurd (hscoped.off 1 ⟨⟨true⟩, rfl⟩) (by decide)

end Dispatcher

end Fusion
end Rustorch
