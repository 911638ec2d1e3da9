import Mathlib.Data.List.Forall2

/-!
# Outcomes of a fallible call

A call either returns a value, returns an error, or panics.  `Outcome` keeps the last two apart,
so that "returns an error" and "does not panic" are different statements.
-/

inductive Outcome (ε α : Type)
  | ok (a : α)
  | err (e : ε)
  | panic
  deriving DecidableEq, Repr

namespace Outcome

open List Outcome

variable {ε α β : Type}

def bind : Outcome ε α → (α → Outcome ε β) → Outcome ε β
  | .ok a, f => f a
  | .err e, _ => .err e
  | .panic, _ => .panic

instance : Monad (Outcome ε) where
  pure := .ok
  bind := bind

/-- `expect`, `unwrap` and indexing: the absent value is a panic. -/
def expect : Option α → Outcome ε α
  | some a => .ok a
  | none => .panic

/-- `expect` on a `Result`. -/
def unwrap {ε' : Type} : Outcome ε α → Outcome ε' α
  | .ok a => .ok a
  | _ => .panic

/-- A `Result` that cannot panic. -/
def ofExcept : Except ε α → Outcome ε α
  | .ok a => .ok a
  | .error e => .err e

/-- `map_err` of a source call. -/
def mapErr {ε' : Type} (f : ε → ε') : Outcome ε α → Outcome ε' α
  | .ok a => .ok a
  | .err e => .err (f e)
  | .panic => .panic

instance : LawfulMonad (Outcome ε) :=
  LawfulMonad.mk' _ (by intro _ x; cases x <;> rfl) (by intro _ _ _ _; rfl)
    (by intro _ _ _ x _ _; cases x <;> rfl)

@[simp] theorem pure_eq (a : α) : (pure a : Outcome ε α) = .ok a := rfl

@[simp] theorem ok_bind (a : α) (f : α → Outcome ε β) : (ok a >>= f) = f a := rfl

@[simp] theorem err_bind (e : ε) (f : α → Outcome ε β) : (err e >>= f) = .err e := rfl

@[simp] theorem panic_bind (f : α → Outcome ε β) : ((.panic : Outcome ε α) >>= f) = .panic := rfl

@[simp] theorem expect_some (a : α) : (expect (some a) : Outcome ε α) = .ok a := rfl

@[simp] theorem expect_none : (expect (none : Option α) : Outcome ε α) = .panic := rfl

@[simp] theorem ofExcept_ok (a : α) : ofExcept (.ok a : Except ε α) = .ok a := rfl

@[simp] theorem ofExcept_error (e : ε) : ofExcept (.error e : Except ε α) = .err e := rfl

@[simp] theorem unwrap_ok {ε' : Type} (a : α) :
    (unwrap (.ok a : Outcome ε α) : Outcome ε' α) = .ok a := rfl

variable {x : Outcome ε α} {f : α → Outcome ε β} {a : α} {ε' : Type} {xs : List α}
  {R : α → β → Prop} {n : Nat} {σ : Type}

theorem bind_eq_ok {b : β} : (x >>= f) = .ok b ↔ ∃ a, x = .ok a ∧ f a = .ok b := by
  cases x with
  | ok a => simp
  | err e => simp
  | panic => simp

theorem ne_panic_of_bind : (x >>= f) ≠ .panic → x ≠ .panic := by
  intro h hx
  apply h
  rw [hx]
  rfl

theorem expect_eq_ok {x : Option α} : (expect x : Outcome ε α) = .ok a ↔ x = some a := by
  cases x with
  | none => simp
  | some b => simp

theorem unwrap_eq_ok : (unwrap x : Outcome ε' α) = .ok a ↔ x = .ok a := by
  cases x with
  | ok b => simp
  | err e => simp [unwrap]
  | panic => simp [unwrap]

theorem mapErr_eq_ok {f : ε → ε'} : mapErr f x = .ok a ↔ x = .ok a := by
  cases x with
  | ok b => simp [mapErr]
  | err e => simp [mapErr]
  | panic => simp [mapErr]

/-! ## Loops -/

theorem mapM_eq_ok {g : α → β} : (∀ x ∈ xs, f x = .ok (g x)) → xs.mapM f = .ok (xs.map g) := by
  induction xs with
  | nil =>
    intro _
    rfl
  | cons x xs ih =>
    intro h
    rw [mapM_cons, h x mem_cons_self, ok_bind, ih (fun y hy => h y (mem_cons_of_mem x hy))]
    rfl

/-- A loop whose iterations succeed, each with a related result. -/
theorem exists_mapM :
    (∀ x ∈ xs, ∃ y, f x = .ok y ∧ R x y) → ∃ ys, xs.mapM f = .ok ys ∧ Forall₂ R xs ys := by
  induction xs with
  | nil =>
    intro _
    exact ⟨[], rfl, Forall₂.nil⟩
  | cons x xs ih =>
    intro h
    obtain ⟨y, hy, hR⟩ := h x mem_cons_self
    obtain ⟨ys, hys, hall⟩ := ih (fun z hz => h z (mem_cons_of_mem x hz))
    refine ⟨y :: ys, ?_, Forall₂.cons hR hall⟩
    rw [mapM_cons, hy, ok_bind, hys]
    rfl

/-- Every iteration of a loop that succeeds succeeds. -/
theorem ok_of_mapM {ys : List β} {x : α} : xs.mapM f = .ok ys → x ∈ xs → ∃ y, f x = .ok y := by
  induction xs generalizing ys with
  | nil =>
    intro _ hx
    cases hx
  | cons z xs ih =>
    intro h hx
    rw [mapM_cons, bind_eq_ok] at h
    obtain ⟨y, hy, hrest⟩ := h
    obtain ⟨zs, hzs, _⟩ := bind_eq_ok.1 hrest
    rcases mem_cons.1 hx with rfl | hx
    · exact ⟨y, hy⟩
    · exact ih hzs hx

theorem mapM_panic {x : α} : f x = .panic → (x :: xs).mapM f = .panic := by
  intro h
  rw [mapM_cons, h]
  rfl

theorem mapM_ne_panic : (∀ x ∈ xs, f x ≠ .panic) → xs.mapM f ≠ .panic := by
  induction xs with
  | nil =>
    intro _ h
    cases h
  | cons x xs ih =>
    intro hall
    have hrest := ih fun y hy => hall y (mem_cons_of_mem x hy)
    rw [mapM_cons]
    cases hx : f x with
    | panic => exact absurd hx (hall x mem_cons_self)
    | err e => simp
    | ok y =>
      cases hxs : xs.mapM f with
      | panic => exact absurd hxs hrest
      | err e => simp
      | ok ys => simp

/-- The results of a loop that succeeds. -/
theorem mapM_eq_ok_iff :
    ∀ {ys : List β}, xs.mapM f = .ok ys ↔ Forall₂ (fun x y => f x = .ok y) xs ys := by
  induction xs with
  | nil =>
    intro ys
    rw [forall₂_nil_left_iff]
    constructor
    · intro h
      cases h
      rfl
    · rintro rfl
      rfl
  | cons x xs ih =>
    intro ys
    rw [mapM_cons, bind_eq_ok, forall₂_cons_left_iff]
    constructor
    · rintro ⟨y, hy, h⟩
      obtain ⟨zs, hzs, h⟩ := bind_eq_ok.1 h
      cases h
      exact ⟨y, zs, hy, ih.1 hzs, rfl⟩
    · rintro ⟨y, zs, hy, hzs, rfl⟩
      refine ⟨y, hy, ?_⟩
      rw [ih.2 hzs]
      rfl

/-- A loop succeeds exactly if every iteration does. -/
theorem mapM_range_eq_ok {f : Nat → Outcome ε β} :
    (∃ ys, (range n).mapM f = .ok ys) ↔ ∀ j < n, ∃ y, f j = .ok y := by
  constructor
  · rintro ⟨ys, hys⟩ j hj
    exact ok_of_mapM hys (mem_range.2 hj)
  · intro hall
    have hyes : ∀ j ∈ range n, ∃ y, f j = .ok y ∧ True := by
      intro j hj
      obtain ⟨y, hy⟩ := hall j (mem_range.1 hj)
      exact ⟨y, hy, trivial⟩
    obtain ⟨ys, hys, _⟩ := exists_mapM hyes
    exact ⟨ys, hys⟩

/-- The error of one more iteration: an earlier one, or its own after a success. -/
theorem mapM_range_succ_eq_err {f : Nat → Outcome ε β} :
    (∃ e, (range (n + 1)).mapM f = .err e) ↔
      (∃ e, (range n).mapM f = .err e) ∨
        (∃ ys, (range n).mapM f = .ok ys) ∧ ∃ e, f n = .err e := by
  rw [range_succ, mapM_append]
  cases (range n).mapM f with
  | ok ys => cases hn : f n <;> simp [hn]
  | err e => simp
  | panic => simp

/-- A loop returns an error exactly if the first iteration that fails does. -/
theorem mapM_range_eq_err {f : Nat → Outcome ε β} : (∃ e, (range n).mapM f = .err e) ↔
      ∃ k < n, (∃ e, f k = .err e) ∧ ∀ j < k, ∃ y, f j = .ok y := by
  induction n with
  | zero =>
    constructor
    · rintro ⟨e, h⟩
      cases h
    · rintro ⟨k, hk, _⟩
      cases hk
  | succ n ih =>
    rw [mapM_range_succ_eq_err, ih, mapM_range_eq_ok]
    constructor
    · rintro (⟨k, hk, herr, hbefore⟩ | ⟨hbefore, herr⟩)
      · exact ⟨k, Nat.lt_succ_of_lt hk, herr, hbefore⟩
      · exact ⟨n, Nat.lt_succ_self n, herr, hbefore⟩
    · rintro ⟨k, hk, herr, hbefore⟩
      rcases Nat.lt_succ_iff_lt_or_eq.1 hk with hlt | rfl
      · exact Or.inl ⟨k, hlt, herr, hbefore⟩
      · exact Or.inr ⟨hbefore, herr⟩

/-! ## Related outcomes -/

/-- Both calls return related values, or both fail in the same way. -/
inductive Rel (R : α → β → Prop) : Outcome ε α → Outcome ε β → Prop
  | ok {a : α} {b : β} : R a b → Rel R (.ok a) (.ok b)
  | err (e : ε) : Rel R (.err e) (.err e)
  | panic : Rel R .panic .panic

theorem Rel.of_eq {R : α → α → Prop} (hR : ∀ a, x = .ok a → R a a) : Rel R x x := by
  cases x with
  | ok a => exact Rel.ok (hR a rfl)
  | err e => exact Rel.err e
  | panic => exact Rel.panic

theorem Rel.bind {γ δ : Type} {R' : γ → δ → Prop} {y : Outcome ε β} {f : α → Outcome ε γ}
    {g : β → Outcome ε δ} :
    Rel R x y → (∀ a b, R a b → Rel R' (f a) (g b)) → Rel R' (x >>= f) (y >>= g) := by
  intro h hfg
  cases h with
  | ok hab => exact hfg _ _ hab
  | err e => exact Rel.err e
  | panic => exact Rel.panic

theorem foldlM_keeps {step : σ → α → Outcome ε σ} (P : σ → Prop)
    (hstep : ∀ s a s', step s a = .ok s' → P s → P s') (as : List α) :
    ∀ {s s'}, as.foldlM step s = .ok s' → P s → P s' := by
  induction as with
  | nil =>
    intro s s' hrun h
    cases hrun
    exact h
  | cons a as ih =>
    intro s s' hrun h
    obtain ⟨s₁, hfirst, hrest⟩ := bind_eq_ok.1 hrun
    exact ih hrest (hstep s a s₁ hfirst h)

/-- The rule for a counting loop that neither fails nor panics. -/
theorem foldlM_range {body : σ → Nat → Outcome ε σ} (P : Nat → σ → Prop) {s : σ} (hs : P 0 s)
    (hstep : ∀ i < n, ∀ s, P i s → ∃ s', body s i = .ok s' ∧ P (i + 1) s') :
    ∃ s', (range n).foldlM body s = .ok s' ∧ P n s' := by
  induction n with
  | zero => exact ⟨s, rfl, hs⟩
  | succ n ih =>
    obtain ⟨s', hrun, hs'⟩ := ih (fun i hi => hstep i (Nat.lt_succ_of_lt hi))
    obtain ⟨s'', hbody, hs''⟩ := hstep n (Nat.lt_succ_self n) s' hs'
    refine ⟨s'', ?_, hs''⟩
    rw [range_succ, foldlM_append, hrun, ok_bind, foldlM_cons, hbody]
    rfl

end Outcome
