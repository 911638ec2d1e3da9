import Mathlib.Data.List.DropRight

/-!
# Walking a directory tree by name

A location is the list of names below the root of a tree.  A path moves one level up or one level
down at a time; moving up from the root stays there.

From any location, a path climbs a number of levels above its start and then descends by a list of
names (`walk_eq`); both depend on the path only.  So whether the end of one path lies below the end
of another one, whatever the start, is a condition on these numbers and lists
(`forall_not_below_iff`).
-/

namespace Lexical

open List

variable {α : Type}

inductive Move (α : Type)
  | up
  | down (name : α)
  deriving DecidableEq, Repr

/-- One move; the parent of the root is the root. -/
def step (dir : List α) : Move α → List α
  | .up => dir.dropLast
  | .down name => dir ++ [name]

def walk (dir : List α) (moves : List (Move α)) : List α :=
  moves.foldl step dir

/-- The names a path descends by, once it has climbed. -/
def net (moves : List (Move α)) : List α :=
  walk [] moves

/-- The levels a path climbs above a start that is `depth` levels below the place counted from. -/
def climbFrom : Nat → List (Move α) → Nat
  | _, [] => 0
  | 0, .up :: moves => climbFrom 0 moves + 1
  | depth + 1, .up :: moves => climbFrom depth moves
  | depth, .down _ :: moves => climbFrom (depth + 1) moves

/-- The levels a path climbs above its start. -/
def climb (moves : List (Move α)) : Nat :=
  climbFrom 0 moves

@[simp] theorem walk_nil (dir : List α) : walk dir [] = dir := rfl

@[simp] theorem walk_cons (dir : List α) (m : Move α) (moves : List (Move α)) :
    walk dir (m :: moves) = walk (step dir m) moves := rfl

theorem rdrop_dropLast (dir : List α) (n : Nat) : dir.dropLast.rdrop n = dir.rdrop (n + 1) := by
  have hlen : dir.length - 1 - n = dir.length - (n + 1) := by omega
  rw [rdrop, rdrop, length_dropLast, dropLast_eq_take, take_take, hlen, Nat.min_eq_left (by omega)]

theorem walk_append_dir (moves : List (Move α)) :
    ∀ dir sub : List α, walk (dir ++ sub) moves =
      dir.rdrop (climbFrom sub.length moves) ++ walk sub moves := by
  induction moves with
  | nil =>
    intro dir sub
    simp [climbFrom]
  | cons m moves ih =>
    intro dir sub
    cases m with
    | down name =>
      have h := ih dir (sub ++ [name])
      simpa [step, climbFrom] using h
    | up =>
      rcases eq_nil_or_concat sub with rfl | ⟨sub, name, rfl⟩
      · -- the walk leaves `dir` by one more level
        have h := ih dir.dropLast []
        simpa [step, climbFrom, rdrop_dropLast] using h
      · have h := ih dir sub
        simpa [step, climbFrom, ← append_assoc] using h

/-- A walk climbs and then descends. -/
theorem walk_eq (dir : List α) (moves : List (Move α)) :
    walk dir moves = dir.rdrop (climb moves) ++ net moves := by
  have h := walk_append_dir moves dir []
  simpa [climb, net] using h

theorem climbFrom_le_append (moves moves' : List (Move α)) :
    ∀ depth : Nat, climbFrom depth moves ≤ climbFrom depth (moves ++ moves') := by
  induction moves with
  | nil =>
    intro depth
    exact Nat.zero_le _
  | cons m moves ih =>
    intro depth
    cases m with
    | down name => exact ih (depth + 1)
    | up =>
      cases depth with
      | zero => exact Nat.succ_le_succ (ih 0)
      | succ depth => exact ih depth

theorem climb_le_append (moves moves' : List (Move α)) :
    climb moves ≤ climb (moves ++ moves') :=
  climbFrom_le_append moves moves' 0

/-! ## Below, from every start -/

/-- Climbing less leaves the start extended by some of its last names. -/
theorem rdrop_eq_append (dir : List α) {m n : Nat} :
    m ≤ n → ∃ mid : List α, mid.length ≤ n - m ∧ dir.rdrop m = dir.rdrop n ++ mid := by
  intro hle
  refine ⟨(dir.rdrop m).drop (dir.length - n), ?_, ?_⟩
  · rw [length_drop, rdrop, length_take]
    omega
  · have htake : dir.rdrop n = (dir.rdrop m).take (dir.length - n) := by
      rw [rdrop, rdrop, take_take, Nat.min_eq_left (by omega)]
    rw [htake, take_append_drop]

/-- Some start has a given list of names left after a climb. -/
theorem exists_rdrop [Nonempty α] (rest : List α) (n : Nat) :
    ∃ dir : List α, dir.length = rest.length + n ∧ dir.rdrop n = rest := by
  rcases (inferInstance : Nonempty α) with ⟨a⟩
  refine ⟨rest ++ replicate n a, by simp, ?_⟩
  simp [rdrop]

/-- From no start does the second walk end below the end of the first one, exactly if the names of
the first one are not found among the names of the second one, at any position up to the number of
levels that the second one climbs above the first. -/
theorem forall_not_below_iff [Nonempty α] {m n : Nat} {names names' : List α} :
    m ≤ n →
      ((∀ dir : List α, ¬ dir.rdrop m ++ names <+: dir.rdrop n ++ names') ↔
        ∀ j ≤ n - m, ¬ names <+: names'.drop j) := by
  intro hle
  constructor
  · intro hall j hj hprefix
    -- the start consists of the names skipped, and of as many as the first walk climbs
    rcases exists_rdrop (names'.take j) m with ⟨dir, hlen, hdir⟩
    refine hall dir ?_
    have hshort : dir.length ≤ n := by
      rw [length_take] at hlen
      omega
    have hempty : dir.rdrop n = [] := by
      rw [rdrop, Nat.sub_eq_zero_of_le hshort, take_zero]
    rw [hdir, hempty, nil_append]
    conv_rhs => rw [← take_append_drop j names']
    exact (prefix_append_right_inj _).2 hprefix
  · intro hall dir hbelow
    rcases rdrop_eq_append dir hle with ⟨mid, hmid, hdir⟩
    rw [hdir, append_assoc, prefix_append_right_inj] at hbelow
    refine hall mid.length hmid ?_
    rcases hbelow with ⟨t, ht⟩
    refine ⟨t, ?_⟩
    rw [← ht, append_assoc, drop_left]

/-- From no start does a fixed location lie below the end of a walk, exactly if the names of the
walk are not found among those of the location. -/
theorem forall_not_below_fixed_iff [Nonempty α] {m : Nat} {names loc : List α} :
    (∀ dir : List α, ¬ dir.rdrop m ++ names <+: loc) ↔ ¬ names <:+: loc := by
  constructor
  · rintro hall ⟨s, t, hst⟩
    rcases exists_rdrop s m with ⟨dir, _, hdir⟩
    exact hall dir ⟨t, by rw [hdir, hst]⟩
  · rintro hall dir ⟨t, ht⟩
    exact hall ⟨dir.rdrop m, t, ht⟩

end Lexical
