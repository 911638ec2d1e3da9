import Mathlib.Data.List.Basic

/-!
# A running maximum

A scan for the largest value keeps the best entry so far and replaces it by every entry that
compares greater.  The comparison is a strict order; it need not be total.  The scan ends at the
initial entry, which no entry beats then, or at an entry that beats it (`scan_spec`).
-/

namespace RunningMax

open List

variable {α β : Type} {lt : α → α → Bool}

/-- `if v > best { best = v; best_idx = i }`. -/
def step (lt : α → α → Bool) (best entry : α × β) : α × β :=
  if lt best.1 entry.1 then
    entry
  else
    best

def scan (lt : α → α → Bool) (init : α × β) (entries : List (α × β)) : α × β :=
  entries.foldl (step lt) init

/-- The scan keeps the initial entry if nothing beats it; otherwise it ends at an entry that beats
it and that nothing beats. -/
theorem scan_spec (hirrefl : ∀ a, lt a a = false)
    (htrans : ∀ a b c, lt a b = true → lt b c = true → lt a c = true) (entries : List (α × β)) :
    ∀ init : α × β,
      (scan lt init entries = init ∧ ∀ e ∈ entries, lt init.1 e.1 = false) ∨
        (scan lt init entries ∈ entries ∧ lt init.1 (scan lt init entries).1 = true ∧
          ∀ e ∈ entries, lt (scan lt init entries).1 e.1 = false) := by
  induction entries with
  | nil =>
    intro init
    refine Or.inl ⟨rfl, ?_⟩
    intro e he
    cases he
  | cons e es ih =>
    intro init
    have hscan : scan lt init (e :: es) = scan lt (step lt init e) es := rfl
    rw [hscan]
    by_cases he : lt init.1 e.1 = true
    · -- The entry replaces the best one; what beats it beats the initial one too.
      rw [step, if_pos he]
      rcases ih e with ⟨heq, hnone⟩ | ⟨hmem, hbeats, hnone⟩
      · refine Or.inr ?_
        rw [heq]
        refine ⟨mem_cons_self, he, ?_⟩
        intro e' he'
        rcases mem_cons.1 he' with rfl | he'
        · exact hirrefl _
        · exact hnone e' he'
      · refine Or.inr ⟨mem_cons_of_mem _ hmem, htrans _ _ _ he hbeats, ?_⟩
        intro e' he'
        rcases mem_cons.1 he' with rfl | he'
        · by_contra hlt
          have hloop := htrans _ _ _ hbeats (eq_true_of_ne_false hlt)
          rw [hirrefl] at hloop
          cases hloop
        · exact hnone e' he'
    -- the best one stays; an entry that beats a later best would beat it as well
    · have he : lt init.1 e.1 = false := eq_false_of_ne_true he
      rw [step, if_neg (ne_true_of_eq_false he)]
      rcases ih init with ⟨heq, hnone⟩ | ⟨hmem, hbeats, hnone⟩
      · refine Or.inl ⟨heq, ?_⟩
        intro e' he'
        rcases mem_cons.1 he' with rfl | he'
        · exact he
        · exact hnone e' he'
      · refine Or.inr ⟨mem_cons_of_mem _ hmem, hbeats, ?_⟩
        intro e' he'
        rcases mem_cons.1 he' with rfl | he'
        · by_contra hlt
          have hinit := htrans _ _ _ hbeats (eq_true_of_ne_false hlt)
          rw [he] at hinit
          cases hinit
        · exact hnone e' he'

end RunningMax
