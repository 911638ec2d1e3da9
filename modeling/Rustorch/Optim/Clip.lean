import Rustorch.Optim.ParamLoop
import Rustorch.Sweep.Gp

/-!
# Clipping the global gradient norm

`clip_grad_norm_` walks its list twice: once to add up squares, once to scale.  The second pass
scales a gradient once for every time its variable is listed.
-/

namespace Rustorch
namespace Optim

open Rustorch.Core Autograd Sweep List Outcome Function Layout

section Code

variable {F : Type} [Field F] [LinearOrder F]

/-! ## The two passes -/

/-- The squares of one gradient, added to the running total. -/
def addSquares (total : F) (s : List F) : F :=
  s.foldl (fun t v => t + v * v) total

/-- The first pass. -/
def totalSquares (grads : Grads F) : List Var → F → Outcome Unit F
  | [], total => .ok total
  | p :: parameters, total =>
    match grads p with
    | none => totalSquares grads parameters total
    | some g => do
      let s ← readSlice g
      totalSquares grads parameters (addSquares total s)

/-- The second pass. -/
def scaleGrads (scale : F) : List Var → Grads F → Outcome Unit (Grads F)
  | [], grads => .ok grads
  | p :: parameters, grads =>
    match grads p with
    | none => scaleGrads scale parameters grads
    | some g => do
      let s ← readSlice g
      let scaled := s.map (· * scale)
      match fromVecTyped .f32 g.shape scaled with
      | .ok newG => scaleGrads scale parameters (update grads p (some newG))
      | .error _ => .panic

/-- The returned norm and the gradient slots afterwards. -/
def clipGradNorm (sqrt : F → F) (parameters : List Var) (maxNorm : F) (grads : Grads F) :
    Outcome Unit (F × Grads F) := do
  let totalSq ← totalSquares grads parameters 0
  let globalNorm := sqrt totalSq
  if maxNorm < globalNorm ∧ 0 < globalNorm then
    let scale := maxNorm / globalNorm
    let grads' ← scaleGrads scale parameters grads
    .ok (globalNorm, grads')
  else
    .ok (globalNorm, grads)

end Code

/-! ## What clipping is for -/

section Purpose

variable {F : Type} [Field F]

/-- The sum of squares of a gradient slot. -/
def slotSquares : Option (Tensor F) → F
  | none => 0
  | some g =>
    match g.asSlice .f32 with
    | .ok xs => (xs.map fun v => v * v).sum
    | _ => 0

/-- The sum of squares over a list of parameters, each counted as often as it is listed. -/
def listedSquares (grads : Grads F) (parameters : List Var) : F :=
  (parameters.map fun p => slotSquares (grads p)).sum

/-- A slot whose gradient, if there is one, reads as an `f32` slice. -/
def Readable (slot : Option (Tensor F)) : Prop :=
  ∀ g, slot = some g → ∃ xs, g.asSlice .f32 = .ok xs

/-- One slot is another multiplied by `c`. -/
inductive ScaledBy (c : F) : Option (Tensor F) → Option (Tensor F) → Prop
  | none : ScaledBy c none none
  | some {g g' : Tensor F} {xs : List F} : g'.shape = g.shape → g.asSlice .f32 = .ok xs →
      g'.asSlice .f32 = .ok (xs.map (· * c)) → ScaledBy c (some g) (some g')

/-- Clipping as projection onto the ball of radius `maxNorm`. -/
structure ProjectsOnto [LinearOrder F] (sqrt : F → F) (parameters : List Var) (maxNorm : F)
    (grads : Grads F) (norm : F) (grads' : Grads F) : Prop where
  returns : norm = sqrt (listedSquares grads parameters)
  clipped : sqrt (listedSquares grads' parameters) = min norm maxNorm
  commonFactor : ∃ c, ∀ p ∈ parameters, ScaledBy c (grads p) (grads' p)
  others : ∀ p, p ∉ parameters → grads' p = grads p
  again : ∃ norm', clipGradNorm sqrt parameters maxNorm grads' = .ok (norm', grads')

end Purpose

section Passes

variable {F : Type} [Field F] {grads grads' : Grads F} {parameters : List Var}

/-! ## Slots -/

theorem slotSquares_of_read {g : Tensor F} {xs : List F} (h : g.asSlice .f32 = .ok xs) :
    slotSquares (some g) = (xs.map fun v => v * v).sum := by
  simp only [slotSquares, h]

theorem addSquares_eq (s : List F) : ∀ total,
    addSquares total s = total + (s.map fun v => v * v).sum := by
  induction s with
  | nil =>
    intro total
    simp [addSquares]
  | cons v s ih =>
    intro total
    have h := ih (total + v * v)
    unfold addSquares at h ⊢
    rw [foldl_cons, h, map_cons, sum_cons, add_assoc]

variable {slot : Option (Tensor F)} {c : F} {slot' : Option (Tensor F)} {scale : F} {q : Var}

theorem scaledBy_one (h : Readable slot) : ScaledBy 1 slot slot := by
  cases slot with
  | none => exact ScaledBy.none
  | some g =>
    obtain ⟨xs, hxs⟩ := h g rfl
    exact ScaledBy.some rfl hxs (by simpa using hxs)

theorem ScaledBy.readable (h : ScaledBy c slot slot') : Readable slot' := by
  intro g hg
  cases h with
  | none => cases hg
  | some _ _ hread =>
    cases hg
    exact ⟨_, hread⟩

theorem ScaledBy.trans {d : F} {a b e : Option (Tensor F)} (h : ScaledBy c a b)
    (h' : ScaledBy d b e) : ScaledBy (c * d) a e := by
  cases h with
  | none =>
    cases h'
    exact ScaledBy.none
  | @some g g' xs hshape hread hread' =>
    cases h' with
    | @some _ g'' ys hshape' hys hys' =>
      cases hread'.symm.trans hys
      refine ScaledBy.some (hshape'.trans hshape) hread ?_
      rw [hys', map_map]
      congr 2
      funext v
      exact mul_assoc v c d

theorem ScaledBy.squares (h : ScaledBy c slot slot') :
    slotSquares slot' = c ^ 2 * slotSquares slot := by
  cases h with
  | none => simp [slotSquares]
  | @some g g' xs hshape hread hread' =>
    rw [slotSquares_of_read hread, slotSquares_of_read hread', map_map, ← sum_map_mul_left]
    congr 2
    funext v
    simp only [comp_apply]
    ring

/-! ## The first pass -/

theorem listedSquares_cons (p : Var) :
    listedSquares grads (p :: parameters) =
      slotSquares (grads p) + listedSquares grads parameters := by
  simp [listedSquares]

theorem totalSquares_eq (parameters : List Var) : ∀ total,
    (∀ p ∈ parameters, Readable (grads p)) →
      totalSquares grads parameters total = .ok (total + listedSquares grads parameters) := by
  induction parameters with
  | nil =>
    intro total _
    simp [totalSquares, listedSquares]
  | cons p parameters ih =>
    intro total hread
    have hrest : ∀ q ∈ parameters, Readable (grads q) :=
      fun q hq => hread q (mem_cons_of_mem p hq)
    rw [listedSquares_cons]
    unfold totalSquares
    cases hp : grads p with
    | none => simp [ih total hrest, slotSquares]
    | some g =>
      obtain ⟨xs, hxs⟩ := hread p mem_cons_self g hp
      simp only [readSlice_eq_ok.2 hxs, ok_bind]
      rw [ih _ hrest, addSquares_eq, slotSquares_of_read hxs, add_assoc]

/-- The first pass panics at a gradient that is no `f32` slice. -/
theorem readable_of_totalSquares (parameters : List Var) : ∀ total r,
    totalSquares grads parameters total = .ok r → ∀ p ∈ parameters, Readable (grads p) := by
  induction parameters with
  | nil =>
    intro _ _ _ p hp
    cases hp
  | cons q parameters ih =>
    intro total r h p hp
    unfold totalSquares at h
    cases hq : grads q with
    | none =>
      rw [hq] at h
      rcases mem_cons.1 hp with rfl | hp
      · intro g hg
        rw [hq] at hg
        cases hg
      · exact ih total r h p hp
    | some g =>
      rw [hq] at h
      obtain ⟨s, hs, h⟩ := bind_eq_ok.1 h
      rcases mem_cons.1 hp with rfl | hp
      · intro g' hg'
        rw [hq] at hg'
        cases hg'
        exact ⟨s, readSlice_eq_ok.1 hs⟩
      · exact ih _ r h p hp

/-! ## The second pass -/

/-- Every slot is multiplied by the scale once for every listing, and no other slot changes. -/
structure ScalesListed (scale : F) (parameters : List Var) (grads grads' : Grads F) : Prop where
  scaled : ∀ p, Readable (grads p) → ScaledBy (scale ^ parameters.count p) (grads p) (grads' p)
  others : ∀ p, p ∉ parameters → grads' p = grads p

theorem ScalesListed.nil (scale : F) (grads : Grads F) : ScalesListed scale [] grads grads where
  scaled := fun _ hp => by simpa using scaledBy_one hp
  others := fun _ _ => rfl

/-- An empty slot stays empty, whatever the number of its listings. -/
theorem ScalesListed.cons_none (hq : grads q = none)
    (h : ScalesListed scale parameters grads grads') :
    ScalesListed scale (q :: parameters) grads grads' where
  scaled := by
    intro p hp
    by_cases hpq : q = p
    · subst hpq
      have hscaled := h.scaled q hp
      rw [hq] at hscaled ⊢
      cases hq' : grads' q with
      | none => exact ScaledBy.none
      | some g' =>
        rw [hq'] at hscaled
        cases hscaled
    · rw [count_cons_of_ne hpq]
      exact h.scaled p hp
  others := fun p hp => h.others p (not_mem_of_not_mem_cons hp)

theorem readable_update (hone : ScaledBy scale (grads q) slot) {p : Var} (hp : Readable (grads p)) :
    Readable (update grads q slot p) := by
  by_cases hpq : p = q
  · subst hpq
    rw [update_self]
    exact hone.readable
  · rwa [update_of_ne hpq]

/-- A slot that is multiplied once, and then once for every further listing. -/
theorem ScalesListed.cons_some (hone : ScaledBy scale (grads q) slot)
    (h : ScalesListed scale parameters (update grads q slot) grads') :
    ScalesListed scale (q :: parameters) grads grads' where
  scaled := by
    intro p hp
    have hscaled := h.scaled p (readable_update hone hp)
    by_cases hpq : p = q
    · subst hpq
      rw [update_self] at hscaled
      rw [count_cons_self, pow_succ']
      exact hone.trans hscaled
    · rw [update_of_ne hpq] at hscaled
      rwa [count_cons_of_ne (Ne.symm hpq)]
  others := by
    intro p hp
    rw [mem_cons, not_or] at hp
    rw [h.others p hp.2, update_of_ne hp.1]

theorem scaleGrads_spec (scale : F) (parameters : List Var) : ∀ grads : Grads F,
    (∀ p ∈ parameters, Readable (grads p)) →
      ∃ grads', scaleGrads scale parameters grads = .ok grads' ∧
        ScalesListed scale parameters grads grads' := by
  induction parameters with
  | nil =>
    intro grads _
    exact ⟨grads, rfl, .nil scale grads⟩
  | cons q parameters ih =>
    intro grads hread
    have hrest : ∀ p ∈ parameters, Readable (grads p) :=
      fun p hp => hread p (mem_cons_of_mem q hp)
    unfold scaleGrads
    cases hg : grads q with
    | none =>
      obtain ⟨grads', hrun, hscales⟩ := ih grads hrest
      exact ⟨grads', hrun, hscales.cons_none hg⟩
    | some g =>
      obtain ⟨xs, hxs⟩ := hread q mem_cons_self g hg
      have hlen : (xs.map (· * scale)).length = numel g.shape := by
        rw [length_map, length_of_asSlice hxs]
        rfl
      have hmk : fromVecTyped .f32 g.shape (xs.map (· * scale)) = .ok
          { storage := xs.map (· * scale), layout := contiguous g.shape .f32 } :=
        if_neg (not_not.2 hlen)
      simp only [readSlice_eq_ok.2 hxs, ok_bind, hmk]
      set newG : Tensor F :=
        { storage := xs.map (· * scale), layout := contiguous g.shape .f32 } with hnew
      obtain ⟨hshape, hnewRead, _⟩ := fromVecTyped_eq_ok hmk
      have hone : ScaledBy scale (grads q) (some newG) := by
        rw [hg]
        exact ScaledBy.some hshape hxs hnewRead
      obtain ⟨grads', hrun, hscales⟩ := ih (update grads q (some newG))
        fun p hp => readable_update hone (hrest p hp)
      exact ⟨grads', hrun, hscales.cons_some hone⟩

end Passes

section Norms

variable {F : Type} [Field F] [LinearOrder F] [IsStrictOrderedRing F] {sqrt : F → F}
  {grads grads' : Grads F} {parameters : List Var} {maxNorm : F}

/-! ## Square roots -/

theorem eq_sqrt_of_mul_self (hsqrt : SquareRoots sqrt) {s t : F} (ht : 0 ≤ t) (h : t * t = s) :
    sqrt s = t := by
  have hs : 0 ≤ s := by
    rw [← h]
    exact mul_self_nonneg t
  obtain ⟨hnonneg, hsq⟩ := hsqrt s hs
  exact (mul_self_inj hnonneg ht).1 (hsq.trans h.symm)

theorem lt_sqrt_iff (hsqrt : SquareRoots sqrt) {s m : F} (hs : 0 ≤ s) (hm : 0 < m) :
    m < sqrt s ↔ m * m < s := by
  obtain ⟨hnonneg, hsq⟩ := hsqrt s hs
  rw [mul_self_lt_mul_self_iff hm.le hnonneg, hsq]

/-! ## Sums of squares -/

theorem slotSquares_nonneg (slot : Option (Tensor F)) : 0 ≤ slotSquares slot := by
  unfold slotSquares
  split
  · exact le_refl 0
  · split
    · apply sum_nonneg
      intro a ha
      obtain ⟨v, _, rfl⟩ := mem_map.1 ha
      exact mul_self_nonneg v
    · exact le_refl 0

theorem listedSquares_nonneg : 0 ≤ listedSquares grads parameters := by
  apply sum_nonneg
  intro a ha
  obtain ⟨p, _, rfl⟩ := mem_map.1 ha
  exact slotSquares_nonneg (grads p)

theorem ScaledBy.of_squares_eq_zero {c : F} (d : F) {slot slot' : Option (Tensor F)}
    (hzero : slotSquares slot = 0) (h : ScaledBy c slot slot') : ScaledBy d slot slot' := by
  cases h with
  | none => exact ScaledBy.none
  | @some g g' xs hshape hread hread' =>
    rw [slotSquares_of_read hread] at hzero
    have hentries : ∀ v ∈ xs, v = 0 := by
      clear hread hread'
      induction xs with
      | nil => simp
      | cons a xs ih =>
        have hrest : 0 ≤ (xs.map fun v => v * v).sum :=
          sum_nonneg (by simp [mul_self_nonneg])
        rw [map_cons, sum_cons, add_eq_zero_iff_of_nonneg (mul_self_nonneg a) hrest] at hzero
        intro v hv
        rcases mem_cons.1 hv with rfl | hv
        · exact mul_self_eq_zero.1 hzero.1
        · exact ih hzero.2 v hv
    have hmap : xs.map (· * c) = xs.map (· * d) :=
      map_congr_left fun v hv => by simp [hentries v hv]
    exact ScaledBy.some hshape hread (hmap ▸ hread')

/-- Terms that are at most others have the same sum only when they are the same. -/
theorem sum_map_eq_iff {f g : Var → F} (ps : List Var) (hle : ∀ p ∈ ps, f p ≤ g p) :
    (ps.map f).sum = (ps.map g).sum ↔ ∀ p ∈ ps, f p = g p := by
  induction ps with
  | nil => simp
  | cons p ps ih =>
    have hrest : ∀ q ∈ ps, f q ≤ g q := fun q hq => hle q (mem_cons_of_mem p hq)
    rw [map_cons, map_cons, sum_cons, sum_cons,
      add_eq_add_iff_eq_and_eq (hle p mem_cons_self) (sum_le_sum hrest), ih hrest,
      forall_mem_cons]

/-- Scaling every listing once more than once loses squares, unless there were none. -/
theorem squares_after_iff {s : F} (hpos : 0 < s) (hlt : s < 1)
    (hscaled : ∀ p ∈ parameters, ScaledBy (s ^ parameters.count p) (grads p) (grads' p)) :
    listedSquares grads' parameters = s ^ 2 * listedSquares grads parameters ↔
      ∀ p ∈ parameters, slotSquares (grads p) ≠ 0 → parameters.count p = 1 := by
  have hafter : ∀ p ∈ parameters,
      slotSquares (grads' p) = (s ^ parameters.count p) ^ 2 * slotSquares (grads p) :=
    fun p hp => (hscaled p hp).squares
  have hpow : ∀ p ∈ parameters, s ^ parameters.count p ≤ s := by
    intro p hp
    have hcount : 1 ≤ parameters.count p := count_pos_iff.2 hp
    calc s ^ parameters.count p ≤ s ^ 1 := pow_le_pow_of_le_one hpos.le hlt.le hcount
      _ = s := pow_one s
  unfold listedSquares
  rw [← sum_map_mul_left, map_congr_left hafter, sum_map_eq_iff]
  · refine forall₂_congr fun p hp => ?_
    rw [mul_eq_mul_right_iff, pow_left_inj₀ (pow_nonneg hpos.le _) hpos.le two_ne_zero]
    constructor
    · rintro (h | h) hne
      · exact pow_right_injective₀ hpos hlt.ne (h.trans (pow_one s).symm)
      · exact absurd h hne
    · intro h
      by_cases hq : slotSquares (grads p) = 0
      · exact Or.inr hq
      · exact Or.inl (by rw [h hq, pow_one])
  · intro p hp
    have hsq : (s ^ parameters.count p) ^ 2 ≤ s ^ 2 :=
      pow_le_pow_left₀ (pow_nonneg hpos.le _) (hpow p hp) 2
    exact mul_le_mul_of_nonneg_right hsq (slotSquares_nonneg (grads p))

/-! ## Runs -/

section

variable (hsqrt : SquareRoots sqrt)

include hsqrt

/-- Under the bound nothing is touched. -/
theorem clipGradNorm_of_le (hmax : 0 < maxNorm) (hread : ∀ p ∈ parameters, Readable (grads p))
    (hle : listedSquares grads parameters ≤ maxNorm * maxNorm) :
    clipGradNorm sqrt parameters maxNorm grads =
      .ok (sqrt (listedSquares grads parameters), grads) := by
  have hnot : ¬ maxNorm < sqrt (listedSquares grads parameters) := by
    rw [lt_sqrt_iff hsqrt listedSquares_nonneg hmax]
    exact not_lt.2 hle
  simp only [clipGradNorm, totalSquares_eq parameters 0 hread, zero_add, ok_bind]
  rw [if_neg fun h => hnot h.1]

theorem clipGradNorm_of_lt (hmax : 0 < maxNorm) (hread : ∀ p ∈ parameters, Readable (grads p))
    (hlt : maxNorm * maxNorm < listedSquares grads parameters) :
    ∃ grads',
      clipGradNorm sqrt parameters maxNorm grads =
        .ok (sqrt (listedSquares grads parameters), grads') ∧
      (∀ p, Readable (grads p) →
        ScaledBy ((maxNorm / sqrt (listedSquares grads parameters)) ^ parameters.count p)
          (grads p) (grads' p)) ∧
      ∀ p, p ∉ parameters → grads' p = grads p := by
  have hnorm : maxNorm < sqrt (listedSquares grads parameters) :=
    (lt_sqrt_iff hsqrt listedSquares_nonneg hmax).2 hlt
  obtain ⟨grads', hrun, hscaled, hothers⟩ :=
    scaleGrads_spec (maxNorm / sqrt (listedSquares grads parameters)) parameters grads hread
  refine ⟨grads', ?_, hscaled, hothers⟩
  simp only [clipGradNorm, totalSquares_eq parameters 0 hread, zero_add, ok_bind]
  rw [if_pos ⟨hnorm, hmax.trans hnorm⟩, hrun]
  rfl

/-- The listed gradients can be read, and they are inside the ball or listed once each. -/
def Clippable (grads : Grads F) (parameters : List Var) (maxNorm : F) : Prop :=
  (∀ p ∈ parameters, Readable (grads p)) ∧
    (listedSquares grads parameters ≤ maxNorm * maxNorm ∨
      ∀ p ∈ parameters, slotSquares (grads p) ≠ 0 → parameters.count p = 1)

theorem projectsOnto_of_clippable (hmax : 0 < maxNorm) (h : Clippable grads parameters maxNorm) :
    ∃ norm grads', clipGradNorm sqrt parameters maxNorm grads = .ok (norm, grads') ∧
      ProjectsOnto sqrt parameters maxNorm grads norm grads' := by
  obtain ⟨hread, hcase⟩ := h
  rcases le_or_gt (listedSquares grads parameters) (maxNorm * maxNorm) with hle | hlt
  · have hrun := clipGradNorm_of_le hsqrt hmax hread hle
    refine ⟨_, grads, hrun, rfl, ?_, ⟨1, fun p hp => scaledBy_one (hread p hp)⟩,
      fun _ _ => rfl, ⟨_, hrun⟩⟩
    rw [min_eq_left]
    exact not_lt.1 fun h => not_lt.2 hle ((lt_sqrt_iff hsqrt listedSquares_nonneg hmax).1 h)
  · have honce := hcase.resolve_left (not_le.2 hlt)
    have hnorm := (lt_sqrt_iff hsqrt listedSquares_nonneg hmax).2 hlt
    have hroot := (hsqrt (listedSquares grads parameters) listedSquares_nonneg).2
    obtain ⟨grads', hrun, hscaled, hothers⟩ := clipGradNorm_of_lt hsqrt hmax hread hlt
    set norm := sqrt (listedSquares grads parameters) with hnormDef
    have hnormPos : 0 < norm := hmax.trans hnorm
    have hscalePos : 0 < maxNorm / norm := div_pos hmax hnormPos
    have hscaleLt : maxNorm / norm < 1 := (div_lt_one hnormPos).2 hnorm
    have hsquares : listedSquares grads' parameters = maxNorm * maxNorm := by
      rw [(squares_after_iff hscalePos hscaleLt fun p hp => hscaled p (hread p hp)).2 honce,
        ← hroot]
      field_simp
    have hread' : ∀ p ∈ parameters, Readable (grads' p) :=
      fun p hp => (hscaled p (hread p hp)).readable
    refine ⟨norm, grads', hrun, rfl, ?_, ⟨maxNorm / norm, ?_⟩, hothers,
      ⟨_, clipGradNorm_of_le hsqrt hmax hread' hsquares.le⟩⟩
    · rw [hsquares, min_eq_right hnorm.le]
      exact eq_sqrt_of_mul_self hsqrt hmax.le rfl
    · intro p hp
      have h := hscaled p (hread p hp)
      by_cases hzero : slotSquares (grads p) = 0
      · exact h.of_squares_eq_zero _ hzero
      · rwa [honce p hp hzero, pow_one] at h

theorem clippable_of_projectsOnto (hmax : 0 < maxNorm) {norm : F}
    (hrun : clipGradNorm sqrt parameters maxNorm grads = .ok (norm, grads'))
    (h : ProjectsOnto sqrt parameters maxNorm grads norm grads') :
    Clippable grads parameters maxNorm := by
  obtain ⟨total, htotal, _⟩ := bind_eq_ok.1 hrun
  have hread := readable_of_totalSquares parameters 0 total htotal
  refine ⟨hread, ?_⟩
  rcases le_or_gt (listedSquares grads parameters) (maxNorm * maxNorm) with hle | hlt
  · exact Or.inl hle
  · right
    have hnorm := (lt_sqrt_iff hsqrt listedSquares_nonneg hmax).2 hlt
    have hroot := (hsqrt (listedSquares grads parameters) listedSquares_nonneg).2
    obtain ⟨grads₁, hrun₁, hscaled, _⟩ := clipGradNorm_of_lt hsqrt hmax hread hlt
    cases hrun.symm.trans hrun₁
    have hnormPos := hmax.trans hnorm
    refine (squares_after_iff (div_pos hmax hnormPos) ((div_lt_one hnormPos).2 hnorm)
      fun p hp => hscaled p (hread p hp)).1 ?_
    have hafter := (hsqrt (listedSquares grads' parameters) listedSquares_nonneg).2
    rw [h.clipped, min_eq_right hnorm.le] at hafter
    rw [← hafter, div_pow, div_mul_eq_mul_div, eq_div_iff (pow_pos hnormPos 2).ne', sq, sq, hroot]

end

/-- Clipping projects exactly when the listed gradients are inside the ball, or no gradient with
a nonzero entry is listed twice. -/
theorem clipGradNorm_projects_iff (hsqrt : SquareRoots sqrt) (hmax : 0 < maxNorm) :
    (∃ norm grads', clipGradNorm sqrt parameters maxNorm grads = .ok (norm, grads') ∧
        ProjectsOnto sqrt parameters maxNorm grads norm grads') ↔
      Clippable grads parameters maxNorm := by
  constructor
  · rintro ⟨norm, grads', hrun, h⟩
    exact clippable_of_projectsOnto hsqrt hmax hrun h
  · exact projectsOnto_of_clippable hsqrt hmax

end Norms

/-! ## Two lists of parameters -/

section Runs

/-- The gradients of a model whose first variable got the gradient `[a, b]`. -/
noncomputable def leafGrads (a b : ℝ) : Grads ℝ :=
  update (fun _ => none) 0
    (some { storage := [a, b], layout := contiguous [2] .f32 })

theorem leafGrads_zero (a b : ℝ) :
    ∃ g, leafGrads a b 0 = some g ∧ g.asSlice .f32 = .ok [a, b] := by
  have hmk : fromVecTyped .f32 [2] [a, b] = .ok
      { storage := [a, b], layout := contiguous [2] .f32 } := rfl
  exact ⟨_, update_self .., (fromVecTyped_eq_ok hmk).2.1⟩

theorem slotSquares_leafGrads (a b : ℝ) : slotSquares (leafGrads a b 0) = a * a + b * b := by
  obtain ⟨g, hg, hread⟩ := leafGrads_zero a b
  rw [hg, slotSquares_of_read hread]
  simp

/-- Gradients of two cells, of none, and of one. -/
noncomputable def clipGrads (a b c : ℝ) : Grads ℝ :=
  update (leafGrads a b) 2 (some { storage := [c], layout := contiguous [1] .f32 })

theorem clipGradNorm_projects_three :
    ∃ norm grads', clipGradNorm Real.sqrt [0, 1, 2] 1 (clipGrads 3 4 12) = .ok (norm, grads') ∧
      ProjectsOnto Real.sqrt [0, 1, 2] 1 (clipGrads 3 4 12) norm grads' := by
  refine (clipGradNorm_projects_iff squareRoots_real one_pos).2 ⟨?_, Or.inr ?_⟩
  · intro p hp g hg
    simp only [mem_cons, not_mem_nil, or_false] at hp
    rcases hp with rfl | rfl | rfl
    · obtain ⟨g', hg', hread⟩ := leafGrads_zero 3 4
      cases hg'.symm.trans hg
      exact ⟨_, hread⟩
    · cases hg
    · cases hg
      exact ⟨[12], rfl⟩
  · intro p hp _
    simp only [mem_cons, not_mem_nil, or_false] at hp
    rcases hp with rfl | rfl | rfl <;> rfl

/-- A tied weight of norm 4 over its two listings ends inside the ball, not on its sphere. -/
theorem clipGradNorm_tied :
    ¬ ∃ norm grads', clipGradNorm Real.sqrt [0, 0] 2 (leafGrads 2 2) = .ok (norm, grads') ∧
      ProjectsOnto Real.sqrt [0, 0] 2 (leafGrads 2 2) norm grads' := by
  rintro ⟨norm, grads', hrun, h⟩
  have hsq := slotSquares_leafGrads 2 2
  rcases (clippable_of_projectsOnto squareRoots_real two_pos hrun h).2 with hle | honce
  · rw [listedSquares_cons, listedSquares_cons, hsq] at hle
    norm_num [listedSquares] at hle
  · have hcount := honce 0 (by simp) (by rw [hsq]; norm_num)
    norm_num at hcount

end Runs

end Optim
end Rustorch
