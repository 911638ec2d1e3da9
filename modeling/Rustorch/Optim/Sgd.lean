import Rustorch.Optim.StateDict

/-!
# Stochastic gradient descent

`Sgd` with momentum, Nesterov update and weight decay.  Its snapshot carries the velocity buffers,
the learning rate, the momentum and the weight decay, but not the Nesterov flag.
-/

namespace Rustorch
namespace Optim

open Rustorch.Core Autograd List Outcome

section Sgd

variable {F : Type} [Field F] [LinearOrder F]

structure Sgd (F : Type) where
  params : List Var
  lr : F
  momentum : F
  weightDecay : F
  nesterov : Bool
  velocity : Buffers F

namespace Sgd

def new (params : List Var) (lr : F) : Sgd F where
  params := params
  lr := lr
  momentum := 0
  weightDecay := 0
  nesterov := false
  velocity := replicate params.length none

/-! ## Stepping -/

/-- The update of one parameter. -/
def kernel (opt : Sgd F) : Kernel F (Option (List F)) := fun p g velocity =>
  let effectiveGrad :=
    if 0 < opt.weightDecay then
      zipWith (fun p g => g + opt.weightDecay * p) p g
    else
      g
  if 0 < opt.momentum then
    let vPrev := velocity.getD (replicate p.length 0)
    let vNew := zipWith (fun v g => opt.momentum * v + g) vPrev effectiveGrad
    let update :=
      if opt.nesterov then
        zipWith (fun g v => g + opt.momentum * v) effectiveGrad vNew
      else
        vNew
    .ok (zipWith (fun p u => p - opt.lr * u) p update, some vNew)
  else
    .ok (zipWith (fun p g => p - opt.lr * g) p effectiveGrad, velocity)

def step (grads : Grads F) (s : Sgd F × Store F) : Outcome Unit (Sgd F × Store F) := do
  let r ← paramLoop s.1.kernel grads s.1.params s.1.velocity s.2
  .ok ({ s.1 with velocity := r.1 }, r.2)

/-- A sequence of steps, each with its own gradients. -/
def run : List (Grads F) → Sgd F × Store F → Outcome Unit (Sgd F × Store F)
  | [], s => .ok s
  | grads :: rest, s => do
    let s' ← step grads s
    run rest s'

/-! ## Snapshots -/

def stateDict (opt : Sgd F) : Outcome Unit (StringMap (Tensor F)) :=
  flattenBuffers ∅ "velocity" opt.velocity

def loadStateDict (opt : Sgd F) (sd : StringMap (Tensor F)) : Outcome Unit (Sgd F) := do
  let velocity ← unflattenBuffers sd "velocity" opt.params.length
  .ok { opt with velocity := velocity }

/-- `meta`. -/
def metaOf (opt : Sgd F) : OptimMeta F :=
  { OptimMeta.default with
    lr := opt.lr
    momentum := some opt.momentum
    weightDecay := some opt.weightDecay }

def loadMeta (opt : Sgd F) (m : OptimMeta F) : Sgd F :=
  { opt with
    lr := m.lr
    momentum := m.momentum.getD opt.momentum
    weightDecay := m.weightDecay.getD opt.weightDecay }

/-- A fresh optimiser that loads both snapshots of another. -/
def resume (opt : Sgd F) (params : List Var) (lr : F) : Outcome Unit (Sgd F) := do
  let sd ← opt.stateDict
  let fresh ← (Sgd.new params lr).loadStateDict sd
  .ok (fresh.loadMeta opt.metaOf)

/-- The optimisers that builder calls and successful steps give, with their parameters. -/
inductive Reachable : Sgd F → Store F → Prop
  | new {params : List Var} {lr : F} {σ : Store F} : Reachable (Sgd.new params lr) σ
  | momentum {opt : Sgd F} {σ : Store F} (m : F) :
      Reachable opt σ → Reachable { opt with momentum := m } σ
  | nesterov {opt : Sgd F} {σ : Store F} (n : Bool) :
      Reachable opt σ → Reachable { opt with nesterov := n } σ
  | weightDecay {opt : Sgd F} {σ : Store F} (wd : F) :
      Reachable opt σ → Reachable { opt with weightDecay := wd } σ
  | step {s s' : Sgd F × Store F} {grads : Grads F} :
      Reachable s.1 s.2 → step grads s = .ok s' → Reachable s'.1 s'.2

/-! ## Buffers have the size of their parameter -/

variable {opt : Sgd F} {r : List F × Option (List F)} {σ : Store F}

/-- The new data has the size of the parameter only if the new velocity has. -/
theorem kernel_fits {p g : List F} {velocity : Option (List F)} :
    BufferFits p.length velocity → opt.kernel p g velocity = .ok r → r.1.length = p.length →
      BufferFits p.length r.2 := by
  intro hfit hkernel hlen b hb
  have hprev : (velocity.getD (replicate p.length 0)).length = p.length := by
    cases velocity with
    | none => simp
    | some v => exact hfit v rfl
  simp only [kernel] at hkernel
  split at hkernel
  · have hr := ok.inj hkernel
    subst hr
    cases hb
    simp only [length_zipWith] at hlen ⊢
    split at hlen
    · simp only [length_zipWith, hprev] at hlen
      omega
    · simp only [length_zipWith, hprev] at hlen
      omega
  · have hr := ok.inj hkernel
    subst hr
    exact hfit b hb

theorem Reachable.fits : Reachable opt σ → BuffersFit BufferFits opt.params opt.velocity σ := by
  intro h
  induction h with
  | @new params lr σ =>
    refine forall₂_iff_get.2 ⟨by simp [Sgd.new], ?_⟩
    intro i _ _ b hb
    simp [Sgd.new] at hb
  | momentum m _ ih => exact ih
  | nesterov n _ ih => exact ih
  | weightDecay wd _ ih => exact ih
  | @step s s' grads _ hstep ih =>
    obtain ⟨r, hr, hs'⟩ := bind_eq_ok.1 hstep
    cases hs'
    exact (paramLoop_fits (fun p g b r hfit => kernel_fits hfit) s.1.params s.1.velocity s.2 r
      ih hr).1

/-! ## The resumed optimiser -/

theorem resume_eq {params : List Var} {lr : F} :
    Reachable opt σ → params.length = opt.params.length →
      opt.resume params lr = .ok { opt with params := params, nesterov := false } := by
  intro hreach hlen
  have hfits := hreach.fits
  obtain ⟨sd, hsd, _⟩ := flattenFrom_spec "velocity" opt.velocity 0 ∅ (short_of_fits hfits)
  have hflat : flattenBuffers ∅ "velocity" opt.velocity = .ok sd := hsd
  have hread := unflattenBuffers_flatten (short_of_fits hfits) (by simp) hflat
  have hparams : (Sgd.new params lr).params.length = opt.velocity.length := by
    have h := Forall₂.length_eq hfits
    simpa [Sgd.new, hlen] using h
  simp only [resume, stateDict, hflat, ok_bind, loadStateDict, hparams, hread]
  rfl

/-! ## Continuing the trajectory -/

theorem zipWith_left_congr {α β : Type} (xs : List α) (ys zs : List β) :
    ys.length = zs.length →
      zipWith (fun x _ => x) xs ys = zipWith (fun x _ => x) xs zs := by
  induction xs generalizing ys zs with
  | nil => simp
  | cons x xs ih =>
    intro h
    cases ys with
    | nil =>
      have hz : zs = [] := length_eq_zero_iff.1 (by simpa using h.symm)
      simp [hz]
    | cons y ys =>
      cases zs with
      | nil => simp at h
      | cons z zs => simpa using ih ys zs (by simpa using h)

/-- On data `p` the Nesterov flag does not matter. -/
def QuietAt (opt : Sgd F) (p : List F) : Prop :=
  opt.nesterov = false ∨ opt.momentum ≤ 0 ∨ opt.lr = 0 ∨ p = []

theorem QuietAt.kernel_eq {p : List F} (params : List Var) (g : List F) (s : Option (List F)) :
    opt.QuietAt p →
      opt.kernel p g s = kernel { opt with params := params, nesterov := false } p g s := by
  intro h
  rcases h with h | h | h | h
  · simp [kernel, h]
  · simp [kernel, not_lt.2 h]
  · -- Without a learning rate only the lengths of the updates count, and they are equal.
    cases hn : opt.nesterov with
    | false => simp [kernel, hn]
    | true =>
      simp only [kernel, hn, h, if_true, zero_mul, sub_zero]
      split
      · refine congrArg ok (Prod.ext ?_ rfl)
        refine zipWith_left_congr _ _ _ ?_
        simp
      · rfl
  · subst h
    simp [kernel]

/-- Empty data stays empty. -/
theorem QuietAt.kernel {p g : List F} {s : Option (List F)} :
    opt.QuietAt p → opt.kernel p g s = .ok r → opt.QuietAt r.1 := by
  rintro (h | h | h | h) hr
  · exact Or.inl h
  · exact Or.inr (Or.inl h)
  · exact Or.inr (Or.inr (Or.inl h))
  · refine Or.inr (Or.inr (Or.inr ?_))
    subst h
    simp only [Sgd.kernel] at hr
    split at hr
    · cases hr
      simp
    · cases hr
      simp

end Sgd

end Sgd

end Optim
end Rustorch
