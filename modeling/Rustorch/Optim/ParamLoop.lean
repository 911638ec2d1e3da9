import Rustorch.Autograd.Variable

/-!
# The loop of an optimiser step

Every optimiser visits its parameters in order: one without a gradient is skipped; otherwise a
kernel computes the new data and the new buffers from the data, the gradient and the old buffers.

Two loops whose kernels agree, over parameters that hold the same data and share it in the same
way, keep the data the same (`paramLoop_rel`).
-/

namespace Rustorch
namespace Optim

open Rustorch.Core Autograd List Outcome Function

section Loop

variable {F S : Type}

/-! ## The loop -/

/-- `as_slice::<f32>().expect(..)`. -/
def readSlice (t : Tensor F) : Outcome Unit (List F) :=
  match t.asSlice .f32 with
  | .ok xs => .ok xs
  | _ => .panic

/-- Write fresh data of the parameter's shape; a wrong length is a panic. -/
def writeParamData (σ : Store F) (param : Var) (new : List F) : Outcome Unit (Store F) :=
  match fromVecTyped .f32 (σ param).shape new with
  | .ok t => .ok (setData σ param t)
  | .error _ => .panic

/-- The update of one parameter: data, gradient and buffers to new data and buffers. -/
abbrev Kernel (F S : Type) : Type :=
  List F → List F → S → Outcome Unit (List F × S)

/-- The loop of `step`; `buffers` holds what the optimiser keeps for each parameter. -/
def paramLoop (kernel : Kernel F S) (grads : Grads F) :
    List Var → List S → Store F → Outcome Unit (List S × Store F)
  | [], buffers, σ => .ok (buffers, σ)
  | _ :: _, [], _ => .panic
  | param :: params, s :: buffers, σ =>
    match grads param with
    | none => do
      let rest ← paramLoop kernel grads params buffers σ
      .ok (s :: rest.1, rest.2)
    | some grad => do
      let p ← readSlice (σ param)
      let g ← readSlice grad
      let new ← kernel p g s
      let σ₁ ← writeParamData σ param new.1
      let rest ← paramLoop kernel grads params buffers σ₁
      .ok (new.2 :: rest.1, rest.2)

/-! ## Mirrored parameters -/

/-- Places of two parameter lists: they share variables in the same way. -/
def SameSharing (places : List (Var × Var)) : Prop :=
  ∀ a ∈ places, ∀ b ∈ places, a.1 = b.1 ↔ a.2 = b.2

/-- Every place holds the same data in the two stores. -/
def Mirrors (places : List (Var × Var)) (σ τ : Store F) : Prop :=
  ∀ a ∈ places, SameData (σ a.1) (τ a.2)

/-- Every place gets the same gradient. -/
def SameGrads (places : List (Var × Var)) (grads grads' : Grads F) : Prop :=
  ∀ a ∈ places, grads a.1 = grads' a.2

theorem readSlice_eq_ok {t : Tensor F} {xs : List F} :
    readSlice t = .ok xs ↔ t.asSlice .f32 = .ok xs := by
  unfold readSlice
  cases t.asSlice .f32 with
  | ok ys => simp
  | err e => simp
  | panic => simp

theorem readSlice_congr {t u : Tensor F} : SameData t u → readSlice t = readSlice u := by
  intro h
  rw [readSlice, readSlice, h.2]

variable {places : List (Var × Var)} {σ : Store F} {new : List F} {Q : List F → Prop}
  {kernel : Kernel F S} {grads : Grads F} {param : Var} {Fit : Nat → S → Prop}

theorem writeParamData_rel {τ : Store F} {a : Var × Var} :
    SameSharing places → a ∈ places → Mirrors places σ τ →
      (∀ b ∈ places, ∀ p, readSlice (σ b.1) = .ok p → Q p) → Q new →
        Outcome.Rel (fun σ' τ' => Mirrors places σ' τ' ∧
            ∀ b ∈ places, ∀ p, readSlice (σ' b.1) = .ok p → Q p)
          (writeParamData σ a.1 new) (writeParamData τ a.2 new) := by
  intro hshare ha hdata hQ hnew
  have hshape := (hdata a ha).1
  unfold writeParamData
  rw [← hshape]
  cases hmk : fromVecTyped .f32 (σ a.1).shape new with
  | error e => exact Rel.panic
  | ok t =>
    refine Rel.ok ⟨?_, ?_⟩
    · intro b hb
      by_cases h : b.1 = a.1
      · rw [setData, setData, h, (hshare b hb a ha).1 h, update_self, update_self]
        exact SameData.refl t
      · have h' : b.2 ≠ a.2 := fun h' => h ((hshare b hb a ha).2 h')
        rw [setData, setData, update_of_ne h, update_of_ne h']
        exact hdata b hb
    · intro b hb p hp
      by_cases h : b.1 = a.1
      · rw [setData, h, update_self, readSlice_eq_ok, (fromVecTyped_eq_ok hmk).2.1] at hp
        cases hp
        exact hnew
      · rw [setData, update_of_ne h] at hp
        exact hQ b hb p hp

/-- Kernels that agree on the data that occurs keep mirrored parameters mirrored. -/
theorem paramLoop_rel {kernel' : Kernel F S} {grads' : Grads F}
    (hkernel : ∀ p g s, Q p → kernel p g s = kernel' p g s)
    (hQ : ∀ p g s r, Q p → kernel p g s = .ok r → Q r.1) (hshare : SameSharing places)
    (hgrads : SameGrads places grads grads') :
    ∀ (part : List (Var × Var)) (buffers : List S) (σ τ : Store F), (∀ a ∈ part, a ∈ places) →
      Mirrors places σ τ → (∀ a ∈ places, ∀ p, readSlice (σ a.1) = .ok p → Q p) →
        Outcome.Rel (fun r r' => r.1 = r'.1 ∧ Mirrors places r.2 r'.2 ∧
            ∀ a ∈ places, ∀ p, readSlice (r.2 a.1) = .ok p → Q p)
          (paramLoop kernel grads (part.map Prod.fst) buffers σ)
          (paramLoop kernel' grads' (part.map Prod.snd) buffers τ) := by
  intro part
  induction part with
  | nil =>
    intro buffers σ τ _ hdata hread
    exact Rel.ok ⟨rfl, hdata, hread⟩
  | cons a part ih =>
    intro buffers σ τ hsub hdata hread
    have ha := hsub a mem_cons_self
    have hsub' : ∀ b ∈ part, b ∈ places := fun b hb => hsub b (mem_cons_of_mem a hb)
    cases buffers with
    | nil => exact Rel.panic
    | cons s buffers =>
      simp only [map_cons, paramLoop, ← hgrads a ha]
      cases grads a.1 with
      | none =>
        refine (ih buffers σ τ hsub' hdata hread).bind ?_
        rintro r r' ⟨hbuf, hrest⟩
        exact Rel.ok ⟨by rw [hbuf], hrest⟩
      -- the mirrored parameter reads the same data, so the kernels see the same arguments
      | some grad =>
        rw [← readSlice_congr (hdata a ha)]
        refine (Rel.of_eq (R := fun p q => p = q ∧ Q p)
          (fun p hp => ⟨rfl, hread a ha p hp⟩)).bind ?_
        rintro p _ ⟨rfl, hp⟩
        refine (Rel.of_eq (R := fun g g' => g = g') (fun _ _ => rfl)).bind ?_
        rintro g _ rfl
        rw [← hkernel p g s hp]
        refine (Rel.of_eq (R := fun r r' => r = r' ∧ Q r.1)
          (fun r hr => ⟨rfl, hQ p g s r hp hr⟩)).bind ?_
        rintro new _ ⟨rfl, hnew⟩
        refine (writeParamData_rel hshare ha hdata hread hnew).bind ?_
        rintro σ₁ τ₁ ⟨hdata₁, hread₁⟩
        refine (ih buffers σ₁ τ₁ hsub' hdata₁ hread₁).bind ?_
        rintro r r' ⟨hbuf, hrest⟩
        exact Rel.ok ⟨by rw [hbuf], hrest⟩

/-! ## Sizes of the buffers -/

theorem writeParamData_eq_ok {σ' : Store F} : writeParamData σ param new = .ok σ' →
      new.length = (σ param).numel ∧ ∀ v, (σ' v).numel = (σ v).numel := by
  intro h
  unfold writeParamData at h
  cases hmk : fromVecTyped .f32 (σ param).shape new with
  | error e =>
    rw [hmk] at h
    cases h
  | ok t =>
    rw [hmk] at h
    cases h
    obtain ⟨hshape, _, hlen⟩ := fromVecTyped_eq_ok hmk
    refine ⟨hlen, ?_⟩
    intro v
    by_cases hv : v = param
    · subst hv
      rw [setData, update_self]
      exact congrArg Core.numel hshape
    · rw [setData, update_of_ne hv]

theorem exists_writeParamData : new.length = (σ param).numel →
      ∃ σ', writeParamData σ param new = .ok σ' ∧ (σ' param).asSlice .f32 = .ok new := by
  intro hlen
  have hmk : fromVecTyped .f32 (σ param).shape new = .ok
      { storage := new, layout := Layout.contiguous (σ param).shape .f32 } :=
    if_neg (not_not.2 hlen)
  refine ⟨_, by rw [writeParamData, hmk], ?_⟩
  rw [setData, update_self]
  exact (fromVecTyped_eq_ok hmk).2.1

/-- Every parameter's buffers suit its number of elements. -/
def BuffersFit (Fit : Nat → S → Prop) (params : List Var) (buffers : List S) (σ : Store F) : Prop :=
  List.Forall₂ (fun v s => Fit (σ v).numel s) params buffers

theorem paramLoop_fits
    (hkernel : ∀ p g s r, Fit p.length s → kernel p g s = .ok r → r.1.length = p.length →
      Fit p.length r.2) (params : List Var) :
    ∀ (buffers : List S) (σ : Store F) (r : List S × Store F), BuffersFit Fit params buffers σ →
      paramLoop kernel grads params buffers σ = .ok r →
        BuffersFit Fit params r.1 r.2 ∧ ∀ v, (r.2 v).numel = (σ v).numel := by
  induction params with
  | nil =>
    intro buffers σ r hfit hloop
    cases hloop
    exact ⟨hfit, fun _ => rfl⟩
  | cons param params ih =>
    intro buffers σ r hfit hloop
    rcases forall₂_cons_left_iff.1 hfit with ⟨s, rest, hs, hrest, rfl⟩
    unfold paramLoop at hloop
    cases hg : grads param with
    | none =>
      rw [hg] at hloop
      obtain ⟨r', hr', hr⟩ := bind_eq_ok.1 hloop
      cases hr
      obtain ⟨hfit', hnumel⟩ := ih rest σ r' hrest hr'
      exact ⟨Forall₂.cons (by rwa [hnumel]) hfit', hnumel⟩
    | some grad =>
      rw [hg] at hloop
      obtain ⟨p, hp, hloop⟩ := bind_eq_ok.1 hloop
      obtain ⟨g, _, hloop⟩ := bind_eq_ok.1 hloop
      obtain ⟨new, hnew, hloop⟩ := bind_eq_ok.1 hloop
      obtain ⟨σ₁, hwrite, hloop⟩ := bind_eq_ok.1 hloop
      obtain ⟨r', hr', hr⟩ := bind_eq_ok.1 hloop
      cases hr
      obtain ⟨hlen, hnumel₁⟩ := writeParamData_eq_ok hwrite
      have hplen : p.length = (σ param).numel := length_of_asSlice (readSlice_eq_ok.1 hp)
      have hrest₁ : BuffersFit Fit params rest σ₁ := by
        refine Forall₂.imp ?_ hrest
        intro v s' hs'
        rwa [hnumel₁]
      obtain ⟨hfit', hnumel⟩ := ih rest σ₁ r' hrest₁ hr'
      refine ⟨Forall₂.cons ?_ hfit', fun v => (hnumel v).trans (hnumel₁ v)⟩
      rw [hnumel, hnumel₁, ← hplen]
      exact hkernel p g s new (by rwa [hplen]) hnew (hlen.trans hplen.symm)

/-! ## A gradient for one parameter -/

theorem paramLoop_none (params : List Var) :
    ∀ (buffers : List S) (σ : Store F), params.length = buffers.length →
      (∀ v ∈ params, grads v = none) → paramLoop kernel grads params buffers σ = .ok (buffers, σ) := by
  induction params with
  | nil =>
    intro buffers σ _ _
    rfl
  | cons param params ih =>
    intro buffers σ hlen hnone
    cases buffers with
    | nil => cases hlen
    | cons s buffers =>
      have hrest := ih buffers σ (Nat.succ.inj hlen)
        (fun v hv => hnone v (mem_cons_of_mem param hv))
      simp [paramLoop, hnone param mem_cons_self, hrest]

theorem paramLoop_single {v : Var} {p : List F} (hp : readSlice (σ v) = .ok p) (params : List Var) :
    ∀ buffers : List S, params.Nodup → v ∈ params → BuffersFit Fit params buffers σ →
      ∃ s, Fit (σ v).numel s ∧
        ∀ (grads : Grads F) (grad : Tensor F) (g : List F) (kernel : Kernel F S)
          (new : List F × S) (σ₁ : Store F), grads v = some grad → (∀ w ≠ v, grads w = none) →
            readSlice grad = .ok g → kernel p g s = .ok new → writeParamData σ v new.1 = .ok σ₁ →
              ∃ buffers', paramLoop kernel grads params buffers σ = .ok (buffers', σ₁) := by
  induction params with
  | nil =>
    intro buffers _ hv _
    cases hv
  | cons param params ih =>
    intro buffers hnodup hv hfit
    rcases forall₂_cons_left_iff.1 hfit with ⟨s, rest, hs, hrest, rfl⟩
    obtain ⟨hnot, hnodup'⟩ := nodup_cons.1 hnodup
    by_cases h : param = v
    · subst h
      refine ⟨s, hs, ?_⟩
      intro grads grad g kernel new σ₁ hgrad hnone hg hkernel hwrite
      have hlater := @paramLoop_none F S kernel grads params rest σ₁
        (Forall₂.length_eq hrest) (fun w hw => hnone w (fun hwp => hnot (hwp ▸ hw)))
      exact ⟨new.2 :: rest, by simp [paramLoop, hgrad, hp, hg, hkernel, hwrite, hlater]⟩
    · have hv' : v ∈ params := (mem_cons.1 hv).resolve_left (fun h' => h h'.symm)
      obtain ⟨s', hs', hall⟩ := ih rest hnodup' hv' hrest
      refine ⟨s', hs', ?_⟩
      intro grads grad g kernel new σ₁ hgrad hnone hg hkernel hwrite
      obtain ⟨buffers', hloop⟩ := hall grads grad g kernel new σ₁ hgrad hnone hg hkernel hwrite
      exact ⟨s :: buffers', by simp [paramLoop, hnone param h, hloop]⟩

end Loop

end Optim
end Rustorch
