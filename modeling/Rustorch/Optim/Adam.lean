import Rustorch.Lib.Chunks
import Rustorch.Optim.StateDict

/-!
# Adam

`Adam` with bias correction, on the CPU path.  Its snapshot carries both moments, the step counter
and every hyperparameter that a builder can set.  The square root is a parameter.
-/

namespace Rustorch
namespace Optim

open Rustorch.Core Autograd List Outcome Chunks Forall₂

section Adam

variable {F : Type} [Field F] [LinearOrder F]

structure Adam (F : Type) where
  params : List Var
  lr : F
  betas : F × F
  eps : F
  weightDecay : F
  decoupledWd : Bool
  stepT : Nat
  m : Buffers F
  v : Buffers F

namespace Adam

def new (params : List Var) (lr : F) : Adam F where
  params := params
  lr := lr
  betas := (9 / 10, 999 / 1000)
  eps := 1 / 10 ^ 8
  weightDecay := 0
  decoupledWd := false
  stepT := 0
  m := replicate params.length none
  v := replicate params.length none

/-! ## Stepping -/

/-- The closure `kernel`: the new moments and the new value of one element. -/
def element (opt : Adam F) (sqrt : F → F) (bc1 bc2 p g m v : F) : F × F × F :=
  let invBc1 := 1 / bc1
  let invBc2 := 1 / bc2
  let gEff :=
    if opt.decoupledWd = false ∧ 0 < opt.weightDecay then g + opt.weightDecay * p else g
  let m' := opt.betas.1 * m + (1 - opt.betas.1) * gEff
  let v' := opt.betas.2 * v + (1 - opt.betas.2) * gEff * gEff
  let mHat := m' * invBc1
  let vHat := v' * invBc2
  let pNew := p - opt.lr * mHat / (sqrt vHat + opt.eps)
  let pNew' :=
    if opt.decoupledWd = true ∧ 0 < opt.weightDecay then
      pNew - opt.lr * opt.weightDecay * p
    else
      pNew
  (pNew', m', v')

/-- The new data and the two moments. -/
abbrev Row (F : Type) : Type := List F × List F × List F

/-- The loop over the elements; a slice shorter than the data is an index panic. -/
def elementLoop (f : F → F → F → F → F × F × F) :
    List F → List F → List F → List F → Outcome Unit (Row F)
  | [], _, m, v => .ok ([], m, v)
  | p :: ps, g :: gs, m :: ms, v :: vs => do
    let rest ← elementLoop f ps gs ms vs
    let e := f p g m v
    .ok (e.1 :: rest.1, e.2.1 :: rest.2.1, e.2.2 :: rest.2.2)
  | _ :: _, _, _, _ => .panic

/-- The loop over zipped chunks; data past the shortest slice stays zero. -/
def chunkLoop (f : F → F → F → F → F × F × F) :
    List (List F) → List (List F) → List (List F) → List (List F) → Outcome Unit (Row F)
  | p :: ps, g :: gs, m :: ms, v :: vs => do
    let chunk ← elementLoop f p g m v
    let rest ← chunkLoop f ps gs ms vs
    .ok (chunk.1 ++ rest.1, chunk.2.1 ++ rest.2.1, chunk.2.2 ++ rest.2.2)
  | ps, _, ms, vs => .ok (ps.flatten.map (fun _ => 0), ms.flatten, vs.flatten)

def parallelThreshold : Nat := 16384

def parallelChunk : Nat := 4096

def cpuAdamwKernel (f : F → F → F → F → F × F × F) (p g m v : List F) : Outcome Unit (Row F) :=
  if p.length < parallelThreshold then
    elementLoop f p g m v
  else
    chunkLoop f (chunks parallelChunk p) (chunks parallelChunk g)
      (chunks parallelChunk m) (chunks parallelChunk v)

/-- The update of one parameter; both moments start at zero. -/
def kernel (opt : Adam F) (sqrt : F → F) : Kernel F (Option (List F) × Option (List F)) :=
  fun p g s => do
    let bc1 := 1 - opt.betas.1 ^ opt.stepT
    let bc2 := 1 - opt.betas.2 ^ opt.stepT
    let mBuf := s.1.getD (replicate p.length 0)
    let vBuf := s.2.getD (replicate p.length 0)
    let row ← cpuAdamwKernel (opt.element sqrt bc1 bc2) p g mBuf vBuf
    .ok (row.1, some row.2.1, some row.2.2)

def step (sqrt : F → F) (grads : Grads F) (s : Adam F × Store F) :
    Outcome Unit (Adam F × Store F) := do
  let opt := { s.1 with stepT := s.1.stepT + 1 }
  let r ← paramLoop (opt.kernel sqrt) grads opt.params (opt.m.zip opt.v) s.2
  .ok ({ opt with m := r.1.map Prod.fst, v := r.1.map Prod.snd }, r.2)

/-- A sequence of steps, each with its own gradients. -/
def run (sqrt : F → F) : List (Grads F) → Adam F × Store F → Outcome Unit (Adam F × Store F)
  | [], s => .ok s
  | grads :: rest, s => do
    let s' ← step sqrt grads s
    run sqrt rest s'

/-! ## Snapshots -/

def stateDict (opt : Adam F) : Outcome Unit (StringMap (Tensor F)) := do
  let out ← flattenBuffers ∅ "m" opt.m
  flattenBuffers out "v" opt.v

def loadStateDict (opt : Adam F) (sd : StringMap (Tensor F)) : Outcome Unit (Adam F) := do
  let m ← unflattenBuffers sd "m" opt.params.length
  let v ← unflattenBuffers sd "v" opt.params.length
  .ok { opt with m := m, v := v }

/-- `meta`. -/
def metaOf (opt : Adam F) : OptimMeta F :=
  { OptimMeta.default with
    lr := opt.lr
    stepT := opt.stepT
    betas := some opt.betas
    eps := some opt.eps
    weightDecay := some opt.weightDecay }

def loadMeta (opt : Adam F) (m : OptimMeta F) : Adam F :=
  { opt with
    lr := m.lr
    stepT := m.stepT
    betas := m.betas.getD opt.betas
    eps := m.eps.getD opt.eps
    weightDecay := m.weightDecay.getD opt.weightDecay }

/-- A fresh optimiser that loads both snapshots of another. -/
def resume (opt : Adam F) (params : List Var) (lr : F) : Outcome Unit (Adam F) := do
  let sd ← opt.stateDict
  let fresh ← (Adam.new params lr).loadStateDict sd
  .ok (fresh.loadMeta opt.metaOf)

/-- The optimisers that builder calls and successful steps give, with their parameters. -/
inductive Reachable (sqrt : F → F) : Adam F → Store F → Prop
  | new {params : List Var} {lr : F} {σ : Store F} : Reachable sqrt (Adam.new params lr) σ
  | betas {opt : Adam F} {σ : Store F} (b1 b2 : F) :
      Reachable sqrt opt σ → Reachable sqrt { opt with betas := (b1, b2) } σ
  | eps {opt : Adam F} {σ : Store F} (e : F) :
      Reachable sqrt opt σ → Reachable sqrt { opt with eps := e } σ
  | weightDecay {opt : Adam F} {σ : Store F} (wd : F) :
      Reachable sqrt opt σ → Reachable sqrt { opt with weightDecay := wd } σ
  | step {s s' : Adam F × Store F} {grads : Grads F} :
      Reachable sqrt s.1 s.2 → step sqrt grads s = .ok s' → Reachable sqrt s'.1 s'.2

/-! ## Buffers have the size of their parameter -/

variable {f : F → F → F → F → F × F × F} {opt : Adam F} {sqrt : F → F} {σ : Store F}

omit [Field F] [LinearOrder F] in
theorem elementLoop_lengths (ps : List F) :
    ∀ (gs ms vs : List F) (r : Row F), elementLoop f ps gs ms vs = .ok r →
      r.2.1.length = ms.length ∧ r.2.2.length = vs.length := by
  induction ps with
  | nil =>
    intro gs ms vs r h
    cases h
    exact ⟨rfl, rfl⟩
  | cons p ps ih =>
    intro gs ms vs r h
    cases gs with
    | nil => cases h
    | cons g gs =>
      cases ms with
      | nil => cases h
      | cons m ms =>
        cases vs with
        | nil => cases h
        | cons v vs =>
          obtain ⟨rest, hrest, hr⟩ := bind_eq_ok.1 h
          cases hr
          have hlen := ih gs ms vs rest hrest
          exact ⟨congrArg (· + 1) hlen.1, congrArg (· + 1) hlen.2⟩

omit [LinearOrder F] in
theorem chunkLoop_lengths (ps : List (List F)) :
    ∀ (gs ms vs : List (List F)) (r : Row F), chunkLoop f ps gs ms vs = .ok r →
      r.2.1.length = ms.flatten.length ∧ r.2.2.length = vs.flatten.length := by
  induction ps with
  | nil =>
    intro gs ms vs r h
    rw [chunkLoop] at h
    · cases h
      exact ⟨rfl, rfl⟩
    · simp
  | cons p ps ih =>
    intro gs ms vs r h
    cases gs with
    | nil =>
      cases h
      exact ⟨rfl, rfl⟩
    | cons g gs =>
      cases ms with
      | nil =>
        cases h
        exact ⟨rfl, rfl⟩
      | cons m ms =>
        cases vs with
        | nil =>
          cases h
          exact ⟨rfl, rfl⟩
        | cons v vs =>
          obtain ⟨chunk, hchunk, h⟩ := bind_eq_ok.1 h
          obtain ⟨rest, hrest, hr⟩ := bind_eq_ok.1 h
          cases hr
          have h₁ := elementLoop_lengths p g m v chunk hchunk
          have h₂ := ih gs ms vs rest hrest
          simp only [length_append, flatten_cons]
          omega

def MomentsFit (n : Nat) (s : Option (List F) × Option (List F)) : Prop :=
  BufferFits n s.1 ∧ BufferFits n s.2

theorem kernel_fits {p g : List F} {s : Option (List F) × Option (List F)}
    {r : List F × Option (List F) × Option (List F)} :
    MomentsFit p.length s → opt.kernel sqrt p g s = .ok r → MomentsFit p.length r.2 := by
  intro hfit hkernel
  have hlen : ∀ buf : Option (List F), BufferFits p.length buf →
      (buf.getD (replicate p.length 0)).length = p.length := by
    intro buf hbuf
    cases buf with
    | none => simp
    | some b => exact hbuf b rfl
  obtain ⟨row, hrow, hr⟩ := bind_eq_ok.1 hkernel
  cases hr
  have hrows : row.2.1.length = p.length ∧ row.2.2.length = p.length := by
    unfold cpuAdamwKernel at hrow
    split at hrow
    · have h := elementLoop_lengths _ _ _ _ _ hrow
      rwa [hlen _ hfit.1, hlen _ hfit.2] at h
    · have h := chunkLoop_lengths _ _ _ _ _ hrow
      rwa [flatten_chunks (by decide), flatten_chunks (by decide), hlen _ hfit.1,
        hlen _ hfit.2] at h
  refine ⟨?_, ?_⟩
  · intro b hb
    cases hb
    exact hrows.1
  · intro b hb
    cases hb
    exact hrows.2

/-- What holds of every reachable optimiser. -/
structure Fits (opt : Adam F) (σ : Store F) : Prop where
  coupled : opt.decoupledWd = false
  m : BuffersFit BufferFits opt.params opt.m σ
  v : BuffersFit BufferFits opt.params opt.v σ

theorem Reachable.fits : Reachable sqrt opt σ → opt.Fits σ := by
  intro h
  induction h with
  | @new params lr σ =>
    have hnone : BuffersFit BufferFits params
        (replicate params.length none : Buffers F) σ := by
      refine forall₂_iff_get.2 ⟨by simp, ?_⟩
      intro i _ _ b hb
      simp at hb
    exact ⟨rfl, hnone, hnone⟩
  | betas b1 b2 _ ih => exact ⟨ih.coupled, ih.m, ih.v⟩
  | eps e _ ih => exact ⟨ih.coupled, ih.m, ih.v⟩
  | weightDecay wd _ ih => exact ⟨ih.coupled, ih.m, ih.v⟩
  | @step s s' grads _ hstep ih =>
    obtain ⟨r, hr, hs'⟩ := bind_eq_ok.1 hstep
    cases hs'
    have hzip : BuffersFit MomentsFit s.1.params (s.1.m.zip s.1.v) s.2 := by
      have hm := length_eq ih.m
      have hv := length_eq ih.v
      refine forall₂_iff_get.2 ⟨by rw [length_zip]; omega, ?_⟩
      intro i hi hi'
      simp only [get_eq_getElem, getElem_zip]
      exact ⟨(forall₂_iff_get.1 ih.m).2 i hi (by omega),
        (forall₂_iff_get.1 ih.v).2 i hi (by omega)⟩
    have hfits := (paramLoop_fits (fun p g b r hfit hk _ => kernel_fits hfit hk) _ _ _ r hzip
      hr).1
    refine ⟨ih.coupled, ?_, ?_⟩
    · exact forall₂_map_right_iff.2 (hfits.imp (fun _ _ h => h.1))
    · exact forall₂_map_right_iff.2 (hfits.imp (fun _ _ h => h.2))

/-! ## The resumed optimiser -/

theorem resume_eq {params : List Var} {lr : F} :
    Reachable sqrt opt σ → params.length = opt.params.length →
      opt.resume params lr = .ok { opt with params := params } := by
  intro hreach hlen
  have hfits := hreach.fits
  have hm := short_of_fits hfits.m
  have hv := short_of_fits hfits.v
  obtain ⟨sdm, hsdm, hother, _⟩ := flattenFrom_spec "m" opt.m 0 ∅ hm
  obtain ⟨sd, hsd, hkeep, _⟩ := flattenFrom_spec "v" opt.v 0 sdm hv
  have hflatm : flattenBuffers ∅ "m" opt.m = .ok sdm := hsdm
  have hflatv : flattenBuffers sdm "v" opt.v = .ok sd := hsd
  have hfresh : ∀ j, sdm[bufferKey "v" j]? = none := by
    intro j
    rw [hother _ (fun i => bufferKey_ne (by decide) (by decide) (by decide))]
    simp
  have hreadm : unflattenBuffers sd "m" opt.m.length = .ok opt.m := by
    have h := unflattenBuffers_flatten hm (by simp) hflatm
    rw [← h]
    refine unflattenFrom_congr _ ?_
    intro j
    exact hkeep _ (fun i => bufferKey_ne (by decide) (by decide) (by decide))
  have hreadv := unflattenBuffers_flatten hv hfresh hflatv
  have hlenm : (Adam.new params lr).params.length = opt.m.length := by
    have h := length_eq hfits.m
    simpa [Adam.new, hlen] using h
  have hlenv : opt.m.length = opt.v.length := by
    have h₁ := length_eq hfits.m
    have h₂ := length_eq hfits.v
    omega
  have hcoupled := hfits.coupled
  rw [← hlenv] at hreadv
  simp only [resume, stateDict, hflatm, hflatv, ok_bind, loadStateDict, hlenm, hreadm, hreadv]
  cases opt
  cases hcoupled
  rfl

end Adam

end Adam

end Optim
end Rustorch
