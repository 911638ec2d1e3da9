import Mathlib.Algebra.BigOperators.Fin
import Mathlib.Data.List.Destutter
import Mathlib.Data.List.GetD

/-!
# Alignments of a label sequence

A path assigns a label to every frame.  Collapsing it merges repeats and then drops blanks.  The
paths that collapse to a sequence `y` run through the states of an automaton: state `s` stands for
position `s` of `y` with a blank before, between and after its labels, and `Reaches y s l` says that
`l` ends in state `s`.  One more label moves a path from state `s`, `s - 1` or, between two different
labels, `s - 2` (`reaches_concat`), so the weights of the paths obey a recurrence (`forward_succ`).
-/

namespace Alignments

open List Finset Option

/-! ## Collapsing -/

section Collapse

variable {α : Type} [DecidableEq α] {blank : α}

/-- Merge repeats, then drop blanks. -/
def collapse (blank : α) (l : List α) : List α :=
  (l.destutter (· ≠ ·)).filter (· ≠ blank)

theorem destutter'_concat (l : List α) (k : α) :
    ∀ a : α, (l ++ [k]).destutter' (· ≠ ·) a =
      if l.getLastD a = k then l.destutter' (· ≠ ·) a else l.destutter' (· ≠ ·) a ++ [k] := by
  induction l with
  | nil =>
    intro a
    by_cases h : a = k
    · simp [h]
    · simp [h, destutter'_cons_pos]
  | cons b l ih =>
    intro a
    rw [cons_append, getLastD_cons]
    by_cases h : a = b
    · rw [destutter'_cons_neg _ (not_not.2 h), destutter'_cons_neg _ (not_not.2 h), ih a, h]
    · rw [destutter'_cons_pos _ h, destutter'_cons_pos _ h, ih b]
      split
      · rfl
      · rfl

/-- One more label: a blank or a repeat of the last label leaves no trace. -/
theorem collapse_concat (l : List α) (k : α) :
    collapse blank (l ++ [k]) =
      if k = blank ∨ l.getLast? = some k then collapse blank l else collapse blank l ++ [k] := by
  cases l with
  | nil =>
    by_cases h : k = blank
    · simp [collapse, h]
    · simp [collapse, h]
  | cons a l =>
    have hget : (a :: l).getLast? = some (l.getLastD a) := by
      rw [getLast?_cons, getLastD_eq_getLast?]
    rw [collapse, collapse, cons_append, destutter_cons', destutter_cons', destutter'_concat, hget]
    by_cases hlast : l.getLastD a = k
    · rw [if_pos hlast, if_pos (Or.inr (congrArg some hlast))]
    · rw [if_neg hlast, filter_append]
      have hne : ¬ some (l.getLastD a) = some k := fun h => hlast (some.inj h)
      by_cases hk : k = blank
      · simp [hk]
      · rw [if_neg (not_or.2 ⟨hk, hne⟩)]
        simp [hk]

/-- A path that ends with a label collapses to a sequence that ends with it. -/
theorem getLast?_collapse {l : List α} {m : α} :
    l.getLast? = some m → m ≠ blank → (collapse blank l).getLast? = some m := by
  induction l using reverseRecOn with
  | nil =>
    intro h
    cases h
  | append_singleton l k ih =>
    intro h hm
    rw [getLast?_concat, some_inj] at h
    subst h
    rw [collapse_concat]
    split
    · next hmerge => exact ih (hmerge.resolve_left hm) hm
    · exact getLast?_concat

end Collapse

/-! ## States -/

section Extended

variable {α : Type}

/-- Position `s` of `y` with a blank before, between and after its labels. -/
def extended (blank : α) (y : List α) (s : Nat) : α :=
  if s % 2 = 0 then blank else y.getD (s / 2) blank

theorem extended_even (blank : α) (y : List α) (i : Nat) : extended blank y (2 * i) = blank := by
  rw [extended, if_pos (by omega)]

theorem extended_odd (blank : α) (y : List α) (i : Nat) :
    extended blank y (2 * i + 1) = y.getD i blank := by
  rw [extended, if_neg (by omega)]
  congr 1
  omega

theorem label_ne_blank {blank : α} {y : List α} {i : Nat} :
    blank ∉ y → i < y.length → y.getD i blank ≠ blank := by
  intro hy hi
  rw [getD_eq_getElem _ _ hi]
  exact fun h => hy (h ▸ getElem_mem hi)

theorem take_succ_label (blank : α) {y : List α} {i : Nat} :
    i < y.length → y.take (i + 1) = y.take i ++ [y.getD i blank] := by
  intro hi
  rw [take_succ_eq_append_getElem hi, getD_eq_getElem _ _ hi]

end Extended

section States

variable {α : Type} [DecidableEq α] {blank : α} {y : List α} {s : Nat} {l : List α} {k : α}

/-- The path ends in state `s`. -/
def Reaches (blank : α) (y : List α) (s : Nat) (l : List α) : Prop :=
  l.getLast? = some (extended blank y s) ∧ collapse blank l = y.take ((s + 1) / 2)

instance : Decidable (Reaches blank y s l) :=
  inferInstanceAs (Decidable (_ ∧ _))

/-- A step over the blank between two different labels. -/
def Skips (blank : α) (y : List α) (s : Nat) : Prop :=
  1 < s ∧ extended blank y s ≠ blank ∧ extended blank y s ≠ extended blank y (s - 2)

instance : Decidable (Skips blank y s) :=
  inferInstanceAs (Decidable (_ ∧ _))

theorem reaches_even {i : Nat} :
    Reaches blank y (2 * i) l ↔ l.getLast? = some blank ∧ collapse blank l = y.take i := by
  rw [Reaches, extended_even, show (2 * i + 1) / 2 = i by omega]

theorem reaches_odd {i : Nat} :
    Reaches blank y (2 * i + 1) l ↔
      l.getLast? = some (y.getD i blank) ∧ collapse blank l = y.take (i + 1) := by
  rw [Reaches, extended_odd, show (2 * i + 1 + 1) / 2 = i + 1 by omega]

/-- A path that has collapsed to the first `i` labels and does not end with a blank ends with the
last of these. -/
theorem reaches_label {i : Nat} {m : α} :
    i ≤ y.length → l.getLast? = some m → m ≠ blank → collapse blank l = y.take i →
      ∃ j, i = j + 1 ∧ y.getD j blank = m ∧ Reaches blank y (2 * j + 1) l := by
  intro hi hlast hm hl
  have hend := getLast?_collapse hlast hm
  rw [hl] at hend
  cases i with
  | zero =>
    cases hend
  | succ j =>
    rw [take_succ_label blank hi, getLast?_concat, some_inj] at hend
    exact ⟨j, rfl, hend, reaches_odd.2 ⟨hlast.trans (congrArg some hend.symm), hl⟩⟩

/-- No path ends in two states. -/
theorem reaches_unique {s' : Nat} (hy : blank ∉ y) (hs : s < 2 * y.length + 1)
    (hs' : s' < 2 * y.length + 1) :
    Reaches blank y s l → Reaches blank y s' l → s = s' := by
  rintro ⟨hlast, hl⟩ ⟨hlast', hl'⟩
  have hext : extended blank y s = extended blank y s' := some.inj (hlast.symm.trans hlast')
  have hlen := congrArg length (hl.symm.trans hl')
  rw [length_take, length_take] at hlen
  rcases Nat.even_or_odd' s with ⟨i, rfl | rfl⟩
  · rcases Nat.even_or_odd' s' with ⟨j, rfl | rfl⟩
    · omega
    · rw [extended_even, extended_odd] at hext
      exact absurd hext.symm (label_ne_blank hy (by omega))
  · rcases Nat.even_or_odd' s' with ⟨j, rfl | rfl⟩
    · rw [extended_even, extended_odd] at hext
      exact absurd hext (label_ne_blank hy (by omega))
    · omega

theorem reaches_singleton (hy : blank ∉ y) (hs : s < 2 * y.length + 1) :
    Reaches blank y s [k] ↔ s ≤ 1 ∧ k = extended blank y s := by
  have hcollapse : collapse blank [k] = if k = blank then [] else [k] := by
    have h := @collapse_concat _ _ blank [] k
    simpa [collapse] using h
  rcases Nat.even_or_odd' s with ⟨i, rfl | rfl⟩
  · rw [reaches_even, extended_even, getLast?_singleton, some_inj, hcollapse]
    constructor
    · rintro ⟨hk, hl⟩
      rw [if_pos hk] at hl
      have hlen := congrArg length hl
      rw [length_take] at hlen
      simp only [length_nil] at hlen
      exact ⟨by omega, hk⟩
    · rintro ⟨hi, hk⟩
      rw [if_pos hk, show i = 0 by omega]
      exact ⟨hk, rfl⟩
  · have hne := @label_ne_blank _ blank y i hy (by omega)
    rw [reaches_odd, extended_odd, getLast?_singleton, some_inj, hcollapse]
    constructor
    · rintro ⟨hk, hl⟩
      have hlen := congrArg length hl
      rw [if_neg (hk ▸ hne), length_take, length_singleton] at hlen
      exact ⟨by omega, hk⟩
    · rintro ⟨hi, hk⟩
      have hi0 : i = 0 := by omega
      subst hi0
      rw [if_neg (hk ▸ hne), take_succ_label blank (by omega), hk]
      exact ⟨rfl, rfl⟩

/-- A path of at least one label ends in state `s` after one more label if it did before, or ended
in a state from which `s` is entered. -/
theorem reaches_concat (hy : blank ∉ y) (hs : s < 2 * y.length + 1) (hl : l ≠ []) :
    Reaches blank y s (l ++ [k]) ↔ k = extended blank y s ∧
      (Reaches blank y s l ∨ 0 < s ∧ Reaches blank y (s - 1) l ∨
        Skips blank y s ∧ Reaches blank y (s - 2) l) := by
  obtain ⟨m, hm⟩ : ∃ m, l.getLast? = some m :=
    ne_none_iff_exists'.1 (fun h => hl (getLast?_eq_none_iff.1 h))
  rcases Nat.even_or_odd' s with ⟨i, rfl | rfl⟩
  · rw [reaches_even, extended_even, getLast?_concat, some_inj]
    refine and_congr_right ?_
    rintro rfl
    -- a blank state is entered from itself or from the label before it, never by a skip
    have hskip : ¬ Skips k y (2 * i) := fun h => h.2.1 (extended_even k y i)
    rw [collapse_concat, if_pos (Or.inl rfl), reaches_even]
    constructor
    · intro htake
      by_cases hmb : m = k
      · exact Or.inl ⟨hm.trans (congrArg some hmb), htake⟩
      · obtain ⟨j, rfl, _, hj⟩ := reaches_label (by omega) hm hmb htake
        exact Or.inr (Or.inl ⟨by omega, hj⟩)
    · rintro (⟨_, h⟩ | ⟨hi, h⟩ | ⟨h, _⟩)
      · exact h
      · obtain ⟨j, rfl⟩ : ∃ j, i = j + 1 := ⟨i - 1, by omega⟩
        exact (reaches_odd.1 h).2
      · exact absurd h hskip
  · have hi : i < y.length := by omega
    -- a label state: the last label repeats, follows a blank, or follows another label
    have hne := label_ne_blank hy hi
    rw [reaches_odd, extended_odd, getLast?_concat, some_inj]
    refine and_congr_right ?_
    rintro rfl
    rw [collapse_concat, reaches_odd, show 2 * i + 1 - 1 = 2 * i by omega, reaches_even, hm]
    constructor
    · intro htake
      by_cases hmk : m = y.getD i blank
      · rw [if_pos (Or.inr (congrArg some hmk))] at htake
        exact Or.inl ⟨congrArg some hmk, htake⟩
      · rw [if_neg (not_or.2 ⟨hne, fun h => hmk (some.inj h)⟩),
          take_succ_label blank hi, append_left_inj] at htake
        by_cases hmb : m = blank
        · exact Or.inr (Or.inl ⟨by omega, congrArg some hmb, htake⟩)
        · -- Two labels in a row, so they differ.
          obtain ⟨j, rfl, hj, hreach⟩ := reaches_label (by omega) hm hmb htake
          refine Or.inr (Or.inr ⟨⟨by omega, ?_, ?_⟩, hreach⟩)
          · rwa [extended_odd]
          · rw [extended_odd, show 2 * (j + 1) + 1 - 2 = 2 * j + 1 by omega, extended_odd, hj]
            exact fun h => hmk h.symm
    · rintro (⟨hlast, h⟩ | ⟨_, hlast, h⟩ | ⟨⟨hlt, _, hdiff⟩, h⟩)
      · rwa [if_pos (Or.inr hlast)]
      · have hmb : m = blank := some.inj hlast
        rw [if_neg (not_or.2 ⟨hne, fun h => hne ((some.inj h).symm.trans hmb)⟩), h,
          take_succ_label blank hi]
      · obtain ⟨j, rfl⟩ : ∃ j, i = j + 1 := ⟨i - 1, by omega⟩
        rw [show 2 * (j + 1) + 1 - 2 = 2 * j + 1 by omega] at h hdiff
        rw [extended_odd, extended_odd] at hdiff
        obtain ⟨hlast, htake⟩ := reaches_odd.1 h
        have hmj : m = y.getD j blank := some.inj (hm.symm.trans hlast)
        rw [if_neg (not_or.2 ⟨hne, fun h => hdiff ((some.inj h).symm.trans hmj)⟩), htake,
          ← take_succ_label blank hi]

/-- The paths of `y` are those that end in one of the last two states. -/
theorem collapse_eq_iff (hl : l ≠ []) :
    collapse blank l = y ↔ Reaches blank y (2 * y.length) l ∨
      0 < y.length ∧ Reaches blank y (2 * y.length - 1) l := by
  obtain ⟨m, hm⟩ : ∃ m, l.getLast? = some m :=
    ne_none_iff_exists'.1 (fun h => hl (getLast?_eq_none_iff.1 h))
  rw [reaches_even, take_length]
  constructor
  · intro h
    by_cases hmb : m = blank
    · exact Or.inl ⟨hm.trans (congrArg some hmb), h⟩
    · obtain ⟨j, hj, _, hreach⟩ := reaches_label le_rfl hm hmb (h.trans y.take_length.symm)
      refine Or.inr ⟨by omega, ?_⟩
      rwa [show 2 * y.length - 1 = 2 * j + 1 by omega]
  · rintro (⟨_, h⟩ | ⟨hpos, h⟩)
    · exact h
    · obtain ⟨j, hj⟩ : ∃ j, y.length = j + 1 := ⟨y.length - 1, by omega⟩
      rw [show 2 * y.length - 1 = 2 * j + 1 by omega, reaches_odd, ← hj, take_length] at h
      exact h.2

end States

/-! ## Weights of paths -/

theorem ne_nil_of_length {α : Type} {T : Nat} {l : List α} : l.length = T + 1 → l ≠ [] := by
  rintro hl rfl
  cases hl

section Weights

variable {α W : Type} [Fintype α] [CommSemiring W]

/-- The weight of the paths of `T` frames with a property. -/
def total (w : Nat → α → W) (T : Nat) (P : List α → Prop) [DecidablePred P] : W :=
  ∑ p : Fin T → α with P (List.ofFn p), ∏ t : Fin T, w t (p t)

variable {w : Nat → α → W} {T : Nat} {P Q : List α → Prop} [DecidablePred P] [DecidablePred Q]

theorem total_congr : (∀ l : List α, l.length = T → (P l ↔ Q l)) → total w T P = total w T Q := by
  intro h
  refine sum_congr (filter_congr ?_) fun _ _ => rfl
  intro p _
  exact h _ (length_ofFn)

theorem total_false : (∀ l : List α, l.length = T → ¬ P l) → total w T P = 0 := by
  intro h
  refine (sum_filter _ _).trans (sum_eq_zero ?_)
  intro p _
  exact if_neg (h _ (length_ofFn))

theorem total_or : (∀ l : List α, l.length = T → P l → ¬ Q l) →
    total w T (fun l => P l ∨ Q l) = total w T P + total w T Q := by
  intro h
  rw [total, total, total, sum_filter, sum_filter, sum_filter, ← sum_add_distrib]
  refine sum_congr rfl fun p _ => ?_
  have hp := h (ofFn p) (length_ofFn)
  by_cases hP : P (ofFn p)
  · rw [if_pos (Or.inl hP), if_pos hP, if_neg (hp hP), add_zero]
  · rw [if_neg hP, zero_add]
    exact if_congr (or_iff_right hP) rfl rfl

theorem total_and (c : Prop) [Decidable c] :
    total w T (fun l => c ∧ P l) = if c then total w T P else 0 := by
  split
  · next hc => exact total_congr fun l _ => and_iff_right hc
  · next hc => exact total_false fun l _ h => hc h.1

/-- The label of the last frame. -/
theorem total_succ :
    total w (T + 1) P = ∑ k, w T k * total w T (fun l => P (l ++ [k])) := by
  rw [total, sum_filter, ← (Fin.snocEquiv fun _ : Fin (T + 1) => α).sum_comp, Fintype.sum_prod_type]
  refine sum_congr rfl fun k _ => ?_
  rw [total, sum_filter, mul_sum]
  refine sum_congr rfl fun p _ => ?_
  have hlist : ofFn (Fin.snocEquiv (fun _ : Fin (T + 1) => α) (k, p)) = ofFn p ++ [k] := by
    rw [ofFn_succ', concat_eq_append]
    simp [Fin.snocEquiv]
  rw [hlist, Fin.prod_univ_castSucc, mul_ite, mul_zero]
  simp [Fin.snocEquiv, mul_comm]

theorem total_label (w : Nat → α → W) (T : Nat) (P Q : List α → Prop) [DecidablePred P]
    [DecidablePred Q] (a : α) :
    (∀ l : List α, l.length = T → ∀ k, P (l ++ [k]) ↔ k = a ∧ Q l) →
      total w (T + 1) P = w T a * total w T Q := by
  intro h
  rw [total_succ, sum_eq_single a]
  · refine congrArg _ (total_congr ?_)
    intro l hl
    rw [h l hl, and_iff_right rfl]
  · intro k _ hk
    rw [total_false (fun l hl hP => hk ((h l hl k).1 hP).1), mul_zero]
  · intro ha
    exact absurd (mem_univ a) ha

end Weights

/-! ## The recurrence -/

section Forward

variable {α W : Type} [Fintype α] [DecidableEq α] [CommSemiring W]

/-- The weight of the paths of `t + 1` frames that end in state `s`. -/
def forward (w : Nat → α → W) (blank : α) (y : List α) (t s : Nat) : W :=
  total w (t + 1) (Reaches blank y s)

variable {w : Nat → α → W} {blank : α} {y : List α} {s : Nat}

theorem forward_zero (hy : blank ∉ y) (hs : s < 2 * y.length + 1) :
    forward w blank y 0 s = if s ≤ 1 then w 0 (extended blank y s) else 0 := by
  have hlabel := total_label w 0 (Reaches blank y s) (fun _ => s ≤ 1)
    (extended blank y s) (by
      intro l hl k
      rw [length_eq_zero_iff.1 hl, nil_append, reaches_singleton hy hs, and_comm])
  rw [forward, Nat.zero_add, hlabel]
  split
  · next h => simp [total, h]
  · next h => simp [total, h]

theorem forward_succ (hy : blank ∉ y) (hs : s < 2 * y.length + 1) (t : Nat) :
    forward w blank y (t + 1) s = w (t + 1) (extended blank y s) *
      (forward w blank y t s + ((if 0 < s then forward w blank y t (s - 1) else 0) +
        if Skips blank y s then forward w blank y t (s - 2) else 0)) := by
  have hlabel := total_label w (t + 1) (Reaches blank y s) (fun l =>
    Reaches blank y s l ∨ 0 < s ∧ Reaches blank y (s - 1) l ∨
      Skips blank y s ∧ Reaches blank y (s - 2) l) (extended blank y s) (by
      intro l hl k
      exact reaches_concat hy hs (ne_nil_of_length hl))
  rw [forward, hlabel, total_or, total_or, total_and, total_and]
  · rfl
  · rintro l _ ⟨h0, h1⟩ ⟨hskip, h2⟩
    have := reaches_unique hy (by omega) (by omega) h1 h2
    have := hskip.1
    omega
  · rintro l _ h (⟨h0, h1⟩ | ⟨hskip, h2⟩)
    · have := reaches_unique hy hs (by omega) h h1
      omega
    · have := reaches_unique hy hs (by omega) h h2
      have := hskip.1
      omega

theorem total_collapse (hy : blank ∉ y) (t : Nat) :
    total w (t + 1) (fun l => collapse blank l = y) = forward w blank y t (2 * y.length) +
      if 0 < y.length then forward w blank y t (2 * y.length - 1) else 0 := by
  rw [total_congr fun l hl => collapse_eq_iff (ne_nil_of_length hl), total_or, total_and]
  · rfl
  · rintro l _ h ⟨h0, h1⟩
    have := reaches_unique hy (by omega) (by omega) h h1
    omega

end Forward

end Alignments
