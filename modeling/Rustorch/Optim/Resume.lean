import Mathlib.Tactic.LinearCombination
import Rustorch.Optim.Adam
import Rustorch.Optim.Sgd

/-!
# Resuming an optimiser

An optimiser resumes if a fresh one over parameters with the same data, after loading both
snapshots, keeps the parameters equal to the original's through every further sequence of steps.

Adam always resumes.  Sgd resumes if the lost Nesterov flag does not matter (`Sgd.Quiet`), and
over distinct parameters only then (`resume_continues`).
-/

namespace Rustorch
namespace Optim

open Rustorch.Core Autograd List Outcome Layout Prod

section Resume

variable {F : Type} [Field F] [LinearOrder F]

theorem map_fst_zip_of_length {α β : Type} {xs : List α} {ys : List β} :
    ys.length = xs.length → (xs.zip ys).map fst = xs ∧ (xs.zip ys).map snd = ys := by
  intro h
  exact ⟨map_fst_zip (by omega), map_snd_zip (by omega)⟩

/-! ## Adam -/

namespace Adam

/-- A fresh Adam over the same data, from both snapshots, continues as the original would. -/
def Resumes (sqrt : F → F) (opt : Adam F) (σ : Store F) : Prop :=
  ∀ (params : List Var) (lr : F) (τ : Store F), params.length = opt.params.length →
    SameSharing (opt.params.zip params) → Mirrors (opt.params.zip params) σ τ →
      ∃ opt', opt.resume params lr = .ok opt' ∧
        ∀ gs gs', Forall₂ (SameGrads (opt.params.zip params)) gs gs' →
          Outcome.Rel (fun r r' => Mirrors (opt.params.zip params) r.2 r'.2)
            (run sqrt gs (opt, σ)) (run sqrt gs' (opt', τ))

variable {sqrt : F → F}

theorem run_rel {places : List (Var × Var)} (hshare : SameSharing places) {gs gs' : List (Grads F)}
    (hgs : Forall₂ (SameGrads places) gs gs') :
    ∀ (opt : Adam F) (σ τ : Store F), opt.params = places.map fst → Mirrors places σ τ →
      Outcome.Rel (fun r r' => Mirrors places r.2 r'.2) (run sqrt gs (opt, σ))
        (run sqrt gs' ({ opt with params := places.map snd }, τ)) := by
  induction hgs with
  | nil =>
    intro opt σ τ _ hdata
    exact Rel.ok hdata
  | @cons g g' gs gs' hg _ ih =>
    intro opt σ τ hparams hdata
    have hsame : ∀ (p g : List F) (s : Option (List F) × Option (List F)), True →
        kernel { opt with stepT := opt.stepT + 1 } sqrt p g s =
          kernel { opt with params := places.map snd, stepT := opt.stepT + 1 } sqrt p g s :=
      fun _ _ _ _ => rfl
    have hloop := paramLoop_rel hsame (fun _ _ _ _ _ _ => trivial) hshare hg places
      (opt.m.zip opt.v) σ τ (fun _ ha => ha) hdata (fun _ _ _ _ => trivial)
    have hstep : Rel (fun s s' => s.1.params = places.map fst ∧
        s'.1 = { s.1 with params := places.map snd } ∧ Mirrors places s.2 s'.2)
        (step sqrt g (opt, σ))
        (step sqrt g' ({ opt with params := places.map snd }, τ)) := by
      simp only [step, hparams]
      refine hloop.bind ?_
      rintro r r' ⟨hbuf, hdata', _⟩
      exact Rel.ok ⟨rfl, by rw [hbuf], hdata'⟩
    refine hstep.bind ?_
    rintro ⟨opt₁, σ₁⟩ ⟨opt₂, τ₁⟩ ⟨hparams₁, heq, hdata₁⟩
    cases heq
    exact ih opt₁ σ₁ τ₁ hparams₁ hdata₁

theorem resumes {opt : Adam F} {σ : Store F} : Reachable sqrt opt σ → opt.Resumes sqrt σ := by
  intro hreach params lr τ hlen hshare hdata
  obtain ⟨hfst, hsnd⟩ := map_fst_zip_of_length hlen
  refine ⟨_, resume_eq hreach hlen, ?_⟩
  intro gs gs' hgs
  have hrel := @run_rel F _ _ sqrt _ hshare _ _ hgs opt σ τ hfst.symm hdata
  rwa [hsnd] at hrel

end Adam

/-! ## Sgd -/

namespace Sgd

/-- A fresh Sgd over the same data, from both snapshots, continues as the original would. -/
def Resumes (opt : Sgd F) (σ : Store F) : Prop :=
  ∀ (params : List Var) (lr : F) (τ : Store F), params.length = opt.params.length →
    SameSharing (opt.params.zip params) → Mirrors (opt.params.zip params) σ τ →
      ∃ opt', opt.resume params lr = .ok opt' ∧
        ∀ gs gs', Forall₂ (SameGrads (opt.params.zip params)) gs gs' →
          Outcome.Rel (fun r r' => Mirrors (opt.params.zip params) r.2 r'.2)
            (run gs (opt, σ)) (run gs' (opt', τ))

/-- The Nesterov flag does not matter: it is off, or there is no momentum or no learning rate, or
every readable parameter is empty. -/
def Quiet (opt : Sgd F) (σ : Store F) : Prop :=
  opt.nesterov = false ∨ opt.momentum ≤ 0 ∨ opt.lr = 0 ∨
    ∀ v ∈ opt.params, ∀ p, (σ v).asSlice .f32 = .ok p → p = []

theorem run_rel {places : List (Var × Var)} (hshare : SameSharing places)
    {gs gs' : List (Grads F)} (hgs : Forall₂ (SameGrads places) gs gs') :
    ∀ (opt : Sgd F) (σ τ : Store F), opt.params = places.map fst → Mirrors places σ τ →
      (∀ a ∈ places, ∀ p, readSlice (σ a.1) = .ok p → opt.QuietAt p) →
        Outcome.Rel (fun r r' => Mirrors places r.2 r'.2) (run gs (opt, σ))
          (run gs' ({ opt with params := places.map snd, nesterov := false }, τ)) := by
  induction hgs with
  | nil =>
    intro opt σ τ _ hdata _
    exact Rel.ok hdata
  | @cons g g' gs gs' hg _ ih =>
    intro opt σ τ hparams hdata hquiet
    have hloop := paramLoop_rel
      (fun p g s (hp : opt.QuietAt p) => hp.kernel_eq (places.map snd) g s)
      (fun _ _ _ _ hp hr => hp.kernel hr) hshare hg places opt.velocity σ τ (fun _ ha => ha)
      hdata hquiet
    have hstep : Rel (fun s s' => s.1 = { opt with velocity := s.1.velocity } ∧
        s'.1 = { s.1 with params := places.map snd, nesterov := false } ∧
        Mirrors places s.2 s'.2 ∧
        ∀ a ∈ places, ∀ p, readSlice (s.2 a.1) = .ok p → opt.QuietAt p)
        (step g (opt, σ))
        (step g' ({ opt with params := places.map snd, nesterov := false }, τ)) := by
      simp only [step, hparams]
      refine hloop.bind ?_
      rintro r r' ⟨hbuf, hdata', hquiet'⟩
      exact Rel.ok ⟨rfl, by rw [hbuf], hdata', hquiet'⟩
    refine hstep.bind ?_
    rintro ⟨opt₁, σ₁⟩ ⟨opt₂, τ₁⟩ ⟨hopt₁, hopt₂, hdata₁, hquiet₁⟩
    simp only at hopt₁ hopt₂ hdata₁ hquiet₁
    subst hopt₂
    refine ih opt₁ σ₁ τ₁ ?_ hdata₁ ?_
    · rw [hopt₁]
      exact hparams
    · rw [hopt₁]
      exact hquiet₁

variable {opt : Sgd F} {σ : Store F}

theorem Quiet.resumes : Reachable opt σ → opt.Quiet σ → opt.Resumes σ := by
  intro hreach hquiet params lr τ hlen hshare hdata
  obtain ⟨hfst, hsnd⟩ := map_fst_zip_of_length hlen
  refine ⟨_, resume_eq hreach hlen, ?_⟩
  intro gs gs' hgs
  have hplaces : ∀ a ∈ opt.params.zip params, ∀ p, readSlice (σ a.1) = .ok p →
      opt.QuietAt p := by
    intro a ha p hp
    rcases hquiet with h | h | h | h
    · exact Or.inl h
    · exact Or.inr (Or.inl h)
    · exact Or.inr (Or.inr (Or.inl h))
    · exact Or.inr (Or.inr (Or.inr (h a.1 (of_mem_zip ha).1 p (readSlice_eq_ok.1 hp))))
  have hrel := run_rel hshare hgs opt σ τ hfst.symm hdata hplaces
  rwa [hsnd] at hrel

/-- The gradient of one element with weight decay. -/
def effective (opt : Sgd F) (p g : F) : F :=
  if 0 < opt.weightDecay then g + opt.weightDecay * p else g

/-- What a momentum step makes of one element, after a previous velocity `v₀`. -/
def momentumElement (opt : Sgd F) (p₀ g₀ v₀ : F) : F :=
  p₀ - opt.lr *
    (if opt.nesterov then
      effective opt p₀ g₀ + opt.momentum * (opt.momentum * v₀ + effective opt p₀ g₀)
    else
      opt.momentum * v₀ + effective opt p₀ g₀)

theorem kernel_head (opt : Sgd F) {p₀ g₀ v₀ : F} {ps gs vs : List F} {s : Option (List F)} :
    0 < opt.momentum → gs.length = ps.length → vs.length = ps.length →
      s.getD (replicate (p₀ :: ps).length 0) = v₀ :: vs →
        ∃ tail buf,
          opt.kernel (p₀ :: ps) (g₀ :: gs) s = .ok (momentumElement opt p₀ g₀ v₀ :: tail, buf) ∧
            tail.length = ps.length := by
  intro hm hgs hvs hs
  obtain ⟨es, hes, heff⟩ : ∃ es : List F, es.length = ps.length ∧
      (if 0 < opt.weightDecay then
        zipWith (fun p g => g + opt.weightDecay * p) (p₀ :: ps) (g₀ :: gs)
      else
        g₀ :: gs) = effective opt p₀ g₀ :: es := by
    unfold effective
    split
    · exact ⟨zipWith (fun p g => g + opt.weightDecay * p) ps gs, by simp [hgs], rfl⟩
    · exact ⟨gs, hgs, rfl⟩
  simp only [kernel, momentumElement, hm, if_true, hs]
  rw [heff]
  cases opt.nesterov with
  | false =>
    exact ⟨_, _, rfl, by simp [hvs, hes]⟩
  | true =>
    exact ⟨_, _, rfl, by simp [hvs, hes]⟩

/-- A gradient that makes the Nesterov update differ from the plain one. -/
theorem exists_gradient (opt : Sgd F) (p₀ v₀ : F) :
    ∃ g₀, effective opt p₀ g₀ = (1 - opt.momentum) * v₀ + 1 := by
  by_cases hwd : 0 < opt.weightDecay
  · refine ⟨(1 - opt.momentum) * v₀ + 1 - opt.weightDecay * p₀, ?_⟩
    simp [effective, hwd]
  · exact ⟨(1 - opt.momentum) * v₀ + 1, by simp [effective, hwd]⟩

/-- Over distinct parameters, an Sgd that resumes is quiet: one step with a gradient for a single
parameter tells the two optimisers apart. -/
theorem Resumes.quiet : Reachable opt σ → opt.params.Nodup → opt.Resumes σ → opt.Quiet σ := by
  intro hreach hnodup hres
  by_contra hloud
  obtain ⟨hn, hm, hlr, v, hv, p, hp, hpne⟩ : opt.nesterov = true ∧ 0 < opt.momentum ∧ opt.lr ≠ 0 ∧
      ∃ v ∈ opt.params, ∃ p, (σ v).asSlice .f32 = .ok p ∧ p ≠ [] := by
    unfold Quiet at hloud
    push Not at hloud
    obtain ⟨hn, hm, hlr, v, hv, p, hp, hpne⟩ := hloud
    exact ⟨by simpa using hn, hm, hlr, v, hv, p, hp, hpne⟩
  obtain ⟨p₀, ps, rfl⟩ := exists_cons_of_ne_nil hpne
  have hnumel : (p₀ :: ps).length = (σ v).numel := length_of_asSlice hp
  obtain ⟨s, hs, hloop⟩ := paramLoop_single (readSlice_eq_ok.2 hp) opt.params opt.velocity hnodup
    hv hreach.fits
  obtain ⟨v₀, vs, hvel⟩ : ∃ v₀ vs, s.getD (replicate (p₀ :: ps).length 0) = v₀ :: vs := by
    refine exists_cons_of_ne_nil ?_
    cases s with
    | none => simp
    | some b =>
      have hb := hs b rfl
      refine ne_nil_of_length_pos ?_
      rw [Option.getD_some, hb, ← hnumel]
      simp
  have hvs : vs.length = ps.length := by
    have hlen : (v₀ :: vs).length = (p₀ :: ps).length := by
      rw [← hvel]
      cases s with
      | none => simp
      | some b => rw [Option.getD_some, hs b rfl, hnumel]
    simpa using hlen
  obtain ⟨g₀, hg₀⟩ := exists_gradient opt p₀ v₀
  -- A gradient for this parameter only.
  obtain ⟨gs, hgs⟩ : ∃ gs : List F, gs.length = ps.length := ⟨ps, rfl⟩
  have hgrad : fromVecTyped .f32 (σ v).shape (g₀ :: gs) = .ok
      { storage := g₀ :: gs, layout := contiguous (σ v).shape .f32 } := by
    refine if_neg (not_not.2 ?_)
    rw [length_cons, hgs]
    exact hnumel
  have hg := readSlice_eq_ok.2 (fromVecTyped_eq_ok hgrad).2.1
  obtain ⟨grads, hgv, hgw⟩ : ∃ grads : Grads F, grads v = some
      { storage := g₀ :: gs, layout := contiguous (σ v).shape .f32 } ∧
        ∀ w ≠ v, grads w = none := by
    refine ⟨fun w => if w = v then some
      { storage := g₀ :: gs, layout := contiguous (σ v).shape .f32 } else none,
      if_pos rfl, ?_⟩
    intro w hw
    exact if_neg hw
  -- One step of the original and one of the resumed optimiser.
  have hone : ∀ opt₁ : Sgd F, opt₁.params = opt.params → opt₁.velocity = opt.velocity →
      0 < opt₁.momentum → ∃ s₁ tail, step grads (opt₁, σ) = .ok s₁ ∧
        (s₁.2 v).asSlice .f32 = .ok (momentumElement opt₁ p₀ g₀ v₀ :: tail) := by
    intro opt₁ hparams hvelocity hm₁
    obtain ⟨tail, buf, hk, htail⟩ := kernel_head opt₁ hm₁ hgs hvs hvel
    have hlen : (momentumElement opt₁ p₀ g₀ v₀ :: tail).length = (σ v).numel := by
      rw [length_cons, htail]
      exact hnumel
    obtain ⟨σ₁, hwrite, hslice⟩ := exists_writeParamData hlen
    obtain ⟨bufs, hrun⟩ := hloop grads _ _ opt₁.kernel _ σ₁ hgv hgw hg hk hwrite
    rw [← hparams, ← hvelocity] at hrun
    refine ⟨({ opt₁ with velocity := bufs }, σ₁), tail, ?_, hslice⟩
    simp only [step, hrun, ok_bind]
  obtain ⟨s₁, tail₁, hstep₁, hslice₁⟩ := hone opt rfl rfl hm
  obtain ⟨s₂, tail₂, hstep₂, hslice₂⟩ := hone { opt with nesterov := false } rfl rfl hm
  -- Resume over the same parameters.
  have hdiag : ∀ a ∈ opt.params.zip opt.params, a.1 = a.2 := by
    intro a ha
    rw [← map_id opt.params, zip_map'] at ha
    obtain ⟨w, _, rfl⟩ := mem_map.1 ha
    rfl
  obtain ⟨opt', hopt', hcont⟩ := hres opt.params opt.lr σ rfl
    (fun a ha b hb => by rw [hdiag a ha, hdiag b hb])
    (fun a ha => by rw [hdiag a ha]; exact SameData.refl _)
  cases (resume_eq hreach rfl).symm.trans hopt'
  have hrel := hcont [grads] [grads]
    (Forall₂.cons (fun a ha => by rw [hdiag a ha]) Forall₂.nil)
  simp only [run, hstep₁, hstep₂, ok_bind] at hrel
  cases hrel with
  | ok hmirror =>
    have hplace : (v, v) ∈ opt.params.zip opt.params := by
      rw [← map_id opt.params, zip_map']
      exact mem_map.2 ⟨v, hv, rfl⟩
    have hdata := (hmirror (v, v) hplace).2
    rw [hslice₁, hslice₂] at hdata
    have hhead := (cons.inj (ok.inj hdata)).1
    have hsame : effective { opt with nesterov := false } p₀ g₀ = effective opt p₀ g₀ := rfl
    simp only [momentumElement, hn, if_true, Bool.false_eq_true, if_false, hsame, hg₀] at hhead
    have hzero : opt.lr * opt.momentum = 0 := by
      linear_combination -hhead
    rcases mul_eq_zero.1 hzero with h | h
    · exact hlr h
    · exact absurd h hm.ne'

end Sgd

/-! ## The two optimisers -/

/-- Every reachable Sgd whose Nesterov flag does not matter resumes, over distinct parameters only
those do, and every reachable Adam resumes. -/
theorem resume_continues (sqrt : F → F) :
    (∀ (opt : Sgd F) (σ : Store F), opt.Reachable σ →
      (opt.Quiet σ → opt.Resumes σ) ∧ (opt.params.Nodup → opt.Resumes σ → opt.Quiet σ)) ∧
    ∀ (opt : Adam F) (σ : Store F), Adam.Reachable sqrt opt σ → opt.Resumes sqrt σ := by
  refine ⟨?_, ?_⟩
  · intro opt σ hreach
    exact ⟨Sgd.Quiet.resumes hreach, Sgd.Resumes.quiet hreach⟩
  · intro opt σ hreach
    exact Adam.resumes hreach

end Resume

/-- One parameter with one element. -/
def unitStore : Store ℚ :=
  fun _ => { storage := [1], layout := contiguous [1] .f32 }

/-- Three parameters of which the second has no gradient. -/
def threeStore : Store ℚ :=
  fun v => { storage := [v + 1, 2], layout := contiguous [2] .f32 }

def threeGrads : Grads ℚ :=
  fun v => if v = 1 then none else some
    { storage := [1, v], layout := contiguous [2] .f32 }

/-- A rational root of numerator and denominator. -/
def ratSqrt (q : ℚ) : ℚ :=
  (Nat.sqrt q.num.toNat : ℚ) / (Nat.sqrt q.den : ℚ)

/-- Momentum with weight decay. -/
def momentumSgd : Sgd ℚ :=
  { Sgd.new [0, 1, 2] (1 / 10) with momentum := 9 / 10, weightDecay := 1 / 10 }

/-- Other constants than the default ones. -/
def tunedAdam : Adam ℚ :=
  { Adam.new [0, 1, 2] (1 / 100) with
    betas := (4 / 5, 9 / 10), eps := 1 / 1000, weightDecay := 1 / 10 }

/-- Momentum with weight decay and without the Nesterov update, and Adam, after a step that leaves
buffers to restore. -/
theorem resume_stepped :
    (∃ s, Sgd.step threeGrads (momentumSgd, threeStore) = .ok s ∧
        s.1.velocity = [some [11 / 10, 1 / 5], none, some [13 / 10, 11 / 5]] ∧
          s.1.Resumes s.2) ∧
      ∃ s, Adam.step ratSqrt threeGrads (tunedAdam, threeStore) = .ok s ∧
        (s.1.stepT = 1 ∧ s.1.m = [some [11 / 50, 1 / 25], none, some [13 / 50, 11 / 25]] ∧
          s.1.v = [some [121 / 1000, 1 / 250], none, some [169 / 1000, 121 / 250]]) ∧
            s.1.Resumes ratSqrt s.2 := by
  have hall := resume_continues ratSqrt
  refine ⟨?_, ?_⟩
  · have hrun : (do
        let s ← Sgd.step threeGrads (momentumSgd, threeStore)
        .ok s.1.velocity) = .ok [some [11 / 10, 1 / 5], none, some [13 / 10, 11 / 5]] := by
      decide +kernel
    obtain ⟨s, hs, hvelocity⟩ := bind_eq_ok.1 hrun
    have hnew : (Sgd.new [0, 1, 2] (1 / 10 : ℚ)).Reachable threeStore := .new
    have hmomentum : momentumSgd.Reachable threeStore :=
      (hnew.momentum (9 / 10)).weightDecay (1 / 10)
    have hreach := hmomentum.step hs
    obtain ⟨_, _, hopt⟩ := bind_eq_ok.1 hs
    refine ⟨s, hs, ok.inj hvelocity, (hall.1 _ _ hreach).1 (Or.inl ?_)⟩
    cases hopt
    rfl
  · have hrun : (do
        let s ← Adam.step ratSqrt threeGrads (tunedAdam, threeStore)
        .ok (decide (s.1.stepT = 1 ∧
          s.1.m = [some [11 / 50, 1 / 25], none, some [13 / 50, 11 / 25]] ∧
          s.1.v = [some [121 / 1000, 1 / 250], none, some [169 / 1000, 121 / 250]]))) =
        .ok true := by
      decide +kernel
    obtain ⟨s, hs, hbuffers⟩ := bind_eq_ok.1 hrun
    have hnew : Adam.Reachable ratSqrt (Adam.new [0, 1, 2] (1 / 100)) threeStore := .new
    have htuned : Adam.Reachable ratSqrt tunedAdam threeStore :=
      ((hnew.betas (4 / 5) (9 / 10)).eps (1 / 1000)).weightDecay (1 / 10)
    exact ⟨s, hs, of_decide_eq_true (ok.inj hbuffers), hall.2 _ _ (htuned.step hs)⟩

def nesterovSgd : Sgd ℚ :=
  { Sgd.new [0] (1 / 10) with momentum := 9 / 10, nesterov := true }

/-- The parameter after one step of the original and of the resumed optimiser, with gradient 1. -/
def firstStep : Outcome Unit (List ℚ × List ℚ) := do
  let resumed ← nesterovSgd.resume [0] 0
  let s ← Sgd.step (fun v => some (unitStore v)) (nesterovSgd, unitStore)
  let s' ← Sgd.step (fun v => some (unitStore v)) (resumed, unitStore)
  .ok ((s.2 0).storage, (s'.2 0).storage)

theorem nesterov_lost :
    nesterovSgd.Reachable unitStore ∧ firstStep = .ok ([81 / 100], [9 / 10]) ∧
      ¬ nesterovSgd.Resumes unitStore := by
  have hnew : (Sgd.new [0] (1 / 10 : ℚ)).Reachable unitStore := Sgd.Reachable.new
  have hreach : nesterovSgd.Reachable unitStore := (hnew.momentum (9 / 10)).nesterov true
  refine ⟨hreach, by decide +kernel, ?_⟩
  intro hres
  rcases Sgd.Resumes.quiet hreach (by decide) hres with h | h | h | h
  · cases h
  · exact absurd h (by decide +kernel)
  · exact absurd h (by decide +kernel)
  · exact absurd (h 0 (by decide) [1] rfl) (by simp)

end Optim
end Rustorch
