import Mathlib.Algebra.Group.Nat.Defs
import Mathlib.Data.List.Dedup
import Mathlib.Data.List.Pairwise
import Mathlib.Order.Lattice

/-!
# Successive halving

A schedule runs its items at the first budget, keeps the first `1/eta` of them, runs these at the
next budget, and so on.  A rung is what runs at one budget.

- `rung_schedule`    : rung `i` has the first `n / eta ^ i` of `n` items
- `pairwise_budgets` : budgets that increase are used in that order
- `dedup_budgets`    : the budgets that are used come first, with none left out between them
-/

namespace Halving

open List

variable {α β : Type*}

def schedule (eta : Nat) : List β → List α → List (β × α)
  | [], _ => []
  | b :: bs, items =>
    items.map (fun a => (b, a)) ++ schedule eta bs (items.take (items.length / eta))

/-- The items that run at a budget. -/
def rung [DecidableEq β] (plan : List (β × α)) (b : β) : List α :=
  (plan.filter (fun e => e.1 = b)).map Prod.snd

variable {eta : Nat} {b : β} {bs : List β} {items : List α} {plan plan' : List (β × α)}

theorem schedule_nil : schedule eta bs ([] : List α) = [] := by
  induction bs with
  | nil => rfl
  | cons b bs ih => rw [schedule, take_nil, ih, map_nil, append_nil]

theorem schedule_concat :
    items.length < eta ^ bs.length → schedule eta (bs ++ [b]) items = schedule eta bs items := by
  induction bs generalizing items with
  | nil =>
    intro h
    cases length_eq_zero_iff.1 (Nat.lt_one_iff.1 h)
    exact schedule_nil
  | cons c bs ih =>
    intro h
    rw [cons_append, schedule, schedule, ih]
    rw [length_take]
    refine Nat.lt_of_le_of_lt (Nat.min_le_left _ _) (Nat.div_lt_of_lt_mul ?_)
    rwa [← Nat.pow_succ']

theorem budget_mem {e : β × α} : e ∈ schedule eta bs items → e.1 ∈ bs := by
  induction bs generalizing items with
  | nil => exact fun h => nomatch h
  | cons b bs ih =>
    intro h
    rcases mem_append.1 h with hfirst | hlater
    · obtain ⟨a, -, rfl⟩ := mem_map.1 hfirst
      exact mem_cons_self
    · exact mem_cons_of_mem _ (ih hlater)

/-! ## Rungs -/

section Rungs

variable [DecidableEq β]

theorem rung_append : rung (plan ++ plan') b = rung plan b ++ rung plan' b := by
  rw [rung, filter_append, map_append]
  rfl

theorem rung_of_forall_ne : (∀ e ∈ plan, e.1 ≠ b) → rung plan b = [] := by
  intro h
  have hnone : plan.filter (fun e => e.1 = b) = [] := by
    rw [filter_eq_nil_iff]
    intro e he
    simpa using h e he
  rw [rung, hnone, map_nil]

theorem rung_map_self : rung (items.map (fun a => (b, a))) b = items := by
  have hall : (items.map (fun a => (b, a))).filter (fun e => e.1 = b) =
      items.map (fun a => (b, a)) := by
    rw [filter_eq_self]
    intro e he
    obtain ⟨a, -, rfl⟩ := mem_map.1 he
    simp
  rw [rung, hall, map_map]
  exact map_id _

theorem rung_schedule_of_notMem : b ∉ bs → rung (schedule eta bs items) b = [] := by
  intro h
  exact rung_of_forall_ne fun e he heq => h (heq ▸ budget_mem he)

/-- Every rung starts the list of items, and its length is divided by `eta` each time. -/
theorem rung_schedule (hbs : bs.Nodup) {i : Nat} : bs[i]? = some b →
    rung (schedule eta bs items) b = items.take (items.length / eta ^ i) := by
  induction bs generalizing items i with
  | nil => exact fun h => nomatch h
  | cons c bs ih =>
    obtain ⟨hc, hrest⟩ := nodup_cons.1 hbs
    intro h
    rw [schedule, rung_append]
    cases i with
    | zero =>
      cases Option.some.inj h
      rw [rung_map_self, rung_schedule_of_notMem hc, append_nil, Nat.pow_zero, Nat.div_one,
        take_length]
    | succ i =>
      have hne : ∀ e ∈ items.map (fun a => (c, a)), e.1 ≠ b := by
        intro e he heq
        obtain ⟨a, -, rfl⟩ := mem_map.1 he
        change c = b at heq
        exact hc (heq.symm ▸ mem_of_getElem? h)
      have hlen : (items.take (items.length / eta)).length = items.length / eta := by
        rw [length_take]
        exact Nat.min_eq_left (Nat.div_le_self _ _)
      rw [rung_of_forall_ne hne, nil_append, ih hrest h, hlen, take_take,
        Nat.min_eq_left (Nat.div_le_self _ _), Nat.div_div_eq_div_mul, Nat.pow_succ']

end Rungs

/-! ## Budgets -/

section Budgets

variable [LinearOrder β]

theorem pairwise_budgets : bs.Pairwise (· < ·) →
    ((schedule eta bs items).map Prod.fst).Pairwise (· ≤ ·) := by
  induction bs generalizing items with
  | nil => exact fun _ => .nil
  | cons b bs ih =>
    intro h
    obtain ⟨hb, hrest⟩ := pairwise_cons.1 h
    rw [schedule, map_append, pairwise_append]
    refine ⟨?_, ih hrest, ?_⟩
    · rw [map_map]
      exact pairwise_of_forall_mem_list fun c hc d hd => by
        obtain ⟨a, -, rfl⟩ := mem_map.1 hc
        obtain ⟨a', -, rfl⟩ := mem_map.1 hd
        exact le_rfl
    · intro c hc d hd
      rw [map_map] at hc
      obtain ⟨a, -, rfl⟩ := mem_map.1 hc
      obtain ⟨e, he, rfl⟩ := mem_map.1 hd
      exact (hb e.1 (budget_mem he)).le

theorem dedup_budgets {items : List α} (hbs : bs.Nodup) :
    ∃ r ≤ bs.length, ((schedule eta bs items).map Prod.fst).dedup = bs.take r := by
  induction bs generalizing items with
  | nil => exact ⟨0, Nat.le_refl 0, rfl⟩
  | cons b bs ih =>
    obtain ⟨hb, hrest⟩ := nodup_cons.1 hbs
    cases items with
    | nil =>
      refine ⟨0, Nat.zero_le _, ?_⟩
      rw [schedule_nil]
      rfl
    | cons a items =>
      obtain ⟨r, hr, heq⟩ := @ih ((a :: items).take ((a :: items).length / eta)) hrest
      refine ⟨r + 1, Nat.succ_le_succ hr, ?_⟩
      have hfirst : ((a :: items).map (fun a => (b, a))).map Prod.fst =
          replicate (a :: items).length b := by
        rw [map_map]
        exact map_const'
      have hdisjoint : Disjoint (replicate (a :: items).length b)
          ((schedule eta bs ((a :: items).take ((a :: items).length / eta))).map Prod.fst) := by
        intro c hc hlater
        obtain ⟨e, he, rfl⟩ := mem_map.1 hlater
        exact hb (eq_of_mem_replicate hc ▸ budget_mem he)
      rw [schedule, map_append, hfirst, hdisjoint.dedup_append,
        replicate_dedup (Nat.ne_of_gt (length_pos_of_mem mem_cons_self)), heq, take_succ_cons]
      rfl

end Budgets

end Halving
