import Mathlib.Data.List.Basic

/-!
# Texts joined by a separator

Two texts `x ++ sep :: p` and `y ++ sep :: q` can be equal without `x = y`: then one head
continues through the separator into the other.  A head without the separator is determined by
the text.
-/

namespace Separated

open List

section Lists

variable {α : Type} {s : α}

variable {xs ys ps qs : List α}

/-- Two places in one list: they are the same, or one comes before the other. -/
theorem append_cons_cases {t : α} : xs ++ s :: ps = ys ++ t :: qs →
      (xs = ys ∧ s = t ∧ ps = qs) ∨ (∃ rs, ys = xs ++ s :: rs ∧ ps = rs ++ t :: qs) ∨
        (∃ rs, xs = ys ++ t :: rs ∧ qs = rs ++ s :: ps) := by
  intro h
  rcases append_eq_append_iff.1 h with ⟨as, hys, hps⟩ | ⟨as, hxs, hqs⟩
  · cases as with
    | nil =>
      obtain ⟨rfl, rfl⟩ := cons.inj hps
      exact Or.inl ⟨by simpa using hys.symm, rfl, rfl⟩
    | cons a as =>
      obtain ⟨rfl, hrest⟩ := cons.inj hps
      exact Or.inr (Or.inl ⟨as, hys, hrest⟩)
  · cases as with
    | nil =>
      obtain ⟨rfl, rfl⟩ := cons.inj hqs
      exact Or.inl ⟨by simpa using hxs, rfl, rfl⟩
    | cons a as =>
      obtain ⟨rfl, hrest⟩ := cons.inj hqs
      exact Or.inr (Or.inr ⟨as, hxs, hrest⟩)

/-- How two joined lists can be equal. -/
theorem append_cons_inj : xs ++ s :: ps = ys ++ s :: qs →
      (xs = ys ∧ ps = qs) ∨ (∃ rs, ys = xs ++ s :: rs ∧ ps = rs ++ s :: qs) ∨
        (∃ rs, xs = ys ++ s :: rs ∧ qs = rs ++ s :: ps) := by
  intro h
  rcases append_cons_cases h with ⟨hxs, _, hps⟩ | hlater | hearlier
  · exact Or.inl ⟨hxs, hps⟩
  · exact Or.inr (Or.inl hlater)
  · exact Or.inr (Or.inr hearlier)

/-- Heads without the separator are determined by the text, and so are the tails. -/
theorem append_cons_inj_of_notMem :
    s ∉ xs → s ∉ ys → xs ++ s :: ps = ys ++ s :: qs → xs = ys ∧ ps = qs := by
  intro hxs hys h
  rcases append_cons_inj h with heq | ⟨rs, hr, _⟩ | ⟨rs, hr, _⟩
  · exact heq
  · exact absurd (by simp [hr]) hys
  · exact absurd (by simp [hr]) hxs

end Lists

/-! ## Dotted strings -/

theorem toList_dotted (x p : String) : (x ++ "." ++ p).toList = x.toList ++ '.' :: p.toList := by
  simp [String.toList_append]

theorem dotted_inj {x y p q : String} :
    x ++ "." ++ p = y ++ "." ++ q →
      (x = y ∧ p = q) ∨ (∃ r, y = x ++ "." ++ r ∧ p = r ++ "." ++ q) ∨
        (∃ r, x = y ++ "." ++ r ∧ q = r ++ "." ++ p) := by
  intro h
  have hl := congrArg String.toList h
  rw [toList_dotted, toList_dotted] at hl
  rcases append_cons_inj hl with ⟨hx, hp⟩ | ⟨rs, hy, hp⟩ | ⟨rs, hx, hq⟩
  · exact Or.inl ⟨String.toList_inj.1 hx, String.toList_inj.1 hp⟩
  · refine Or.inr (Or.inl ⟨String.ofList rs, ?_, ?_⟩)
    · exact String.toList_inj.1 (by simpa [toList_dotted] using hy)
    · exact String.toList_inj.1 (by simpa [toList_dotted] using hp)
  · refine Or.inr (Or.inr ⟨String.ofList rs, ?_, ?_⟩)
    · exact String.toList_inj.1 (by simpa [toList_dotted] using hx)
    · exact String.toList_inj.1 (by simpa [toList_dotted] using hq)

/-- With one head, the tails are equal. -/
theorem dotted_right_inj {x p q : String} : x ++ "." ++ p = x ++ "." ++ q → p = q := by
  intro h
  have hl := congrArg String.toList h
  rw [toList_dotted, toList_dotted] at hl
  exact String.toList_inj.1 (cons.inj (append_cancel_left hl)).2

/-- Heads without a dot are determined by the text. -/
theorem dotted_left_inj {x y p q : String} :
    '.' ∉ x.toList → '.' ∉ y.toList → x ++ "." ++ p = y ++ "." ++ q → x = y := by
  intro hx hy h
  have hl := congrArg String.toList h
  rw [toList_dotted, toList_dotted] at hl
  exact String.toList_inj.1 (append_cons_inj_of_notMem hx hy hl).1

theorem notMem_toString {c : Char} (hc : c.isDigit = false) (n : Nat) :
    c ∉ (toString n).toList := by
  intro h
  have hdigits : c ∈ Nat.toDigits 10 n := by
    simpa using h
  have hdigit := Nat.isDigit_of_mem_toDigits (by decide) (by decide) hdigits
  rw [hc] at hdigit
  cases hdigit

theorem dot_notMem_toString (n : Nat) : '.' ∉ (toString n).toList :=
  notMem_toString rfl n

theorem toString_inj {m n : Nat} : toString m = toString n → m = n := by
  intro h
  have hl : Nat.toDigits 10 m = Nat.toDigits 10 n := by
    simpa using congrArg String.toList h
  rw [← Nat.ofDigitChars_ten_toDigits (n := m), ← Nat.ofDigitChars_ten_toDigits (n := n), hl]

end Separated
