import Mathlib.Data.Option.Basic

/-!
# Partial joins

An operation that gives the least upper bound of two elements wherever they have an upper bound.
Such an operation is commutative, associative and idempotent, all up to where it is defined.
-/

/-- `join` is the least upper bound for `le`, and is defined on every pair with an upper bound. -/
structure PartialJoin {α : Type} (le : α → α → Prop) (join : α → α → Option α) : Prop where
  refl : ∀ a, le a a
  trans : ∀ {a b c}, le a b → le b c → le a c
  antisymm : ∀ {a b}, le a b → le b a → a = b
  left : ∀ {a b c}, join a b = some c → le a c
  right : ∀ {a b c}, join a b = some c → le b c
  least : ∀ {a b d}, le a d → le b d → ∃ c, join a b = some c ∧ le c d

namespace PartialJoin

variable {α : Type} {le : α → α → Prop} {join : α → α → Option α}

variable (h : PartialJoin le join)

include h

theorem le_of_bounds {a b c d : α} :
    join a b = some c → le a d → le b d → le c d := by
  intro hc had hbd
  obtain ⟨c', hc', hle⟩ := h.least had hbd
  rw [hc, Option.some.injEq] at hc'
  rwa [hc']

theorem eq_some {a b c : α} :
    le a c → le b c → (∀ d, le a d → le b d → le c d) → join a b = some c := by
  intro hac hbc hleast
  obtain ⟨c', hc', hle⟩ := h.least hac hbc
  have heq : c' = c := h.antisymm hle (hleast c' (h.left hc') (h.right hc'))
  rw [hc', heq]

theorem comm (a b : α) : join a b = join b a := by
  refine Option.ext ?_
  intro c
  constructor
  · intro hc
    exact h.eq_some (h.right hc) (h.left hc) (fun d hb ha => h.le_of_bounds hc ha hb)
  · intro hc
    exact h.eq_some (h.right hc) (h.left hc) (fun d ha hb => h.le_of_bounds hc hb ha)

/-- The order, read off the join. -/
theorem le_iff {a b : α} : le a b ↔ join a b = some b := by
  constructor
  · intro hab
    exact h.eq_some hab (h.refl b) (fun _ _ hbd => hbd)
  · intro hab
    exact h.left hab

/-- Joining a third element to a join gives the least upper bound of the three. -/
theorem bind_left {a b c r : α} :
    (join a b).bind (fun s => join s c) = some r ↔
      (le a r ∧ le b r ∧ le c r) ∧ ∀ d, le a d → le b d → le c d → le r d := by
  constructor
  · intro hr
    obtain ⟨s, hs, hr⟩ := Option.bind_eq_some_iff.1 hr
    refine ⟨⟨h.trans (h.left hs) (h.left hr), h.trans (h.right hs) (h.left hr), h.right hr⟩, ?_⟩
    intro d ha hb hc
    exact h.le_of_bounds hr (h.le_of_bounds hs ha hb) hc
  · rintro ⟨⟨ha, hb, hc⟩, hleast⟩
    obtain ⟨s, hs, hle⟩ := h.least ha hb
    rw [hs]
    refine h.eq_some hle hc ?_
    intro d hsd hcd
    exact hleast d (h.trans (h.left hs) hsd) (h.trans (h.right hs) hsd) hcd

theorem assoc (a b c : α) :
    (join a b).bind (fun s => join s c) = (join b c).bind (fun s => join a s) := by
  have hright : (join b c).bind (fun s => join a s) = (join b c).bind (fun s => join s a) := by
    refine congrArg _ ?_
    funext s
    exact h.comm a s
  rw [hright]
  refine Option.ext ?_
  intro r
  rw [h.bind_left, h.bind_left]
  constructor
  · rintro ⟨⟨ha, hb, hc⟩, hleast⟩
    exact ⟨⟨hb, hc, ha⟩, fun d hb hc ha => hleast d ha hb hc⟩
  · rintro ⟨⟨hb, hc, ha⟩, hleast⟩
    exact ⟨⟨ha, hb, hc⟩, fun d ha hb hc => hleast d hb hc ha⟩

end PartialJoin
