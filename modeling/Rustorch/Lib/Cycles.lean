import Mathlib.Data.Set.Finite.Basic
import Mathlib.Order.WellFounded

/-!
# Cycles of a finite relation

`r a b` reads "`b` depends on `a`".  An element hangs on a cycle when it lies on one or depends,
through any number of steps, on an element that does.

- `hangs_of_stuck` : in a finite set whose elements each depend on an element of the set, every
  element hangs on a cycle
- `not_hangs_of_ranked` : an element of a set that is closed under dependence, and on which a rank
  falls along every dependence, hangs on no cycle
-/

namespace Cycles

open Relation

variable {α : Type*} {r : α → α → Prop}

/-- `a` lies on a cycle, or depends on an element that does. -/
def Hangs (r : α → α → Prop) (a : α) : Prop :=
  ∃ c, TransGen r c c ∧ ReflTransGen r c a

theorem Hangs.of_cycle {a : α} : TransGen r a a → Hangs r a := by
  intro h
  exact ⟨a, h, ReflTransGen.refl⟩

/-- A finite set in which everything depends on something of the set holds nothing but elements
that hang on a cycle. -/
theorem hangs_of_stuck {s : Set α} (hfin : s.Finite) (hstuck : ∀ a ∈ s, ∃ b ∈ s, r b a) :
    ∀ a ∈ s, Hangs r a := by
  intro a ha
  by_contra hfree
  -- The elements of the set that `a` depends on carry no cycle, so one of them is minimal.
  let above : Set α := {b | b ∈ s ∧ ReflTransGen r b a}
  have hfinite : Finite above := (hfin.subset (fun b hb => hb.1)).to_subtype
  let strict : above → above → Prop := fun b c => TransGen r b.1 c.1
  have hirrefl : Std.Irrefl strict := ⟨fun b hb => hfree ⟨b.1, hb, b.2.2⟩⟩
  have hwf : WellFounded strict := Finite.wellFounded_of_trans_of_irrefl strict
  rcases hwf.has_min Set.univ ⟨⟨a, ha, ReflTransGen.refl⟩, trivial⟩ with ⟨m, _, hmin⟩
  rcases hstuck m.1 m.2.1 with ⟨b, hb, hbm⟩
  exact hmin ⟨b, hb, m.2.2.head hbm⟩ trivial (TransGen.single hbm)

section Ranked

variable {s : Set α} (rank : α → Nat) (hrank : ∀ a b, r a b → b ∈ s → a ∈ s ∧ rank a < rank b)
include hrank

theorem ranked_transGen {a b : α} : TransGen r a b → b ∈ s → a ∈ s ∧ rank a < rank b := by
  intro h
  induction h with
  | single hab =>
    intro hb
    exact hrank _ _ hab hb
  | tail _ hbc ih =>
    intro hc
    rcases hrank _ _ hbc hc with ⟨hb, hlt⟩
    exact ⟨(ih hb).1, lt_trans (ih hb).2 hlt⟩

/-- Nothing hangs on a cycle where a rank falls along every dependence. -/
theorem not_hangs_of_ranked {a : α} : a ∈ s → ¬ Hangs r a := by
  rintro ha ⟨c, hcycle, hca⟩
  have hc : c ∈ s := by
    rcases reflTransGen_iff_eq_or_transGen.1 hca with rfl | hca
    · exact ha
    · exact (ranked_transGen rank hrank hca ha).1
  exact lt_irrefl _ (ranked_transGen rank hrank hcycle hc).2

end Ranked

end Cycles
