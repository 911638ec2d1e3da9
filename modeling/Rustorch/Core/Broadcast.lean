import Rustorch.Core.Contiguity

/-!
# Indices under broadcasting

`Stretches src target` says that a shape can be read at a target shape: right-aligned, every axis
has the target's size or size 1.  `restrict` is the multi-index of the source that a multi-index
of the target reads.

The strides of `expandStridesTo` displace a multi-index by the row-major position of its
restriction (`linearToOffset_expand`), whatever strides the source tensor itself has.
-/

namespace Rustorch
namespace Core

open List MixedRadix Forall₂

/-! ## Stretching a shape -/

/-- One axis of the source read at a size of the target. -/
def FitsAxis (src dst : Nat) : Prop :=
  src = dst ∨ src = 1

def Stretches (src target : Shape) : Prop :=
  src.length ≤ target.length ∧
    Forall₂ FitsAxis src (target.drop (target.length - src.length))

/-- Aligned coordinates of the source: size-1 axes are read at index 0. -/
def restrictAxes (src : List Nat) (coords : List Nat) : List Nat :=
  zipWith (fun d c => if d = 1 then 0 else c) src coords

/-- The multi-index of `src` that is read for a multi-index of `target`. -/
def restrict (src target : Shape) (coords : List Nat) : List Nat :=
  restrictAxes src (coords.drop (target.length - src.length))

theorem broadcastDim_fits {l r d : Nat} :
    broadcastDim l r = some d → FitsAxis l d ∧ FitsAxis r d := by
  intro h
  unfold broadcastDim at h
  unfold FitsAxis
  split at h
  · cases h
    omega
  · split at h
    · cases h
      omega
    · split at h
      · cases h
        omega
      · cases h

theorem fits_head {ds out : List Nat} {d : Nat} :
    FitsAxis (ds.headD 1) d → Forall₂ FitsAxis ds.tail (out.take ds.tail.length) →
      Forall₂ FitsAxis ds ((d :: out).take ds.length) := by
  intro hhead htail
  cases ds with
  | nil => exact nil
  | cons e ds => exact cons hhead htail

theorem broadcastRev_succ {n : Nat} {ls rs out : List Nat} {i : Nat} :
    broadcastRev (n + 1) ls rs i = .ok out → ∃ d tail, broadcastDim (ls.headD 1) (rs.headD 1) = some d ∧
      broadcastRev n ls.tail rs.tail (i + 1) = .ok tail ∧ out = d :: tail := by
  intro h
  unfold broadcastRev at h
  cases hd : broadcastDim (ls.headD 1) (rs.headD 1) with
  | none =>
    rw [hd] at h
    cases h
  | some d =>
    rw [hd] at h
    cases hrest : broadcastRev n ls.tail rs.tail (i + 1) with
    | error e =>
      rw [hrest] at h
      cases h
    | ok tail =>
      rw [hrest] at h
      cases h
      exact ⟨d, tail, rfl, rfl, rfl⟩

/-- The loop gives one size per axis, and each operand fits the sizes of its own axes. -/
theorem broadcastRev_fits (n : Nat) :
    ∀ (ls rs : List Nat) (i : Nat) (out : List Nat), ls.length ≤ n → rs.length ≤ n →
      broadcastRev n ls rs i = .ok out →
        out.length = n ∧ Forall₂ FitsAxis ls (out.take ls.length) ∧
          Forall₂ FitsAxis rs (out.take rs.length) := by
  induction n with
  | zero =>
    intro ls rs i out hls hrs h
    have hl : ls = [] := length_eq_zero_iff.1 (Nat.le_zero.1 hls)
    have hr : rs = [] := length_eq_zero_iff.1 (Nat.le_zero.1 hrs)
    subst hl hr
    cases h
    simp
  | succ n ih =>
    intro ls rs i out hls hrs h
    obtain ⟨d, tail, hd, hrest, rfl⟩ := broadcastRev_succ h
    obtain ⟨hlen, hl, hr⟩ := ih _ _ _ _ (by rw [length_tail]; omega)
      (by rw [length_tail]; omega) hrest
    have hfits := broadcastDim_fits hd
    exact ⟨by simp [hlen], fits_head hfits.1 hl, fits_head hfits.2 hr⟩

theorem stretches_of_reverse {src out : List Nat} :
    src.length ≤ out.length →
      Forall₂ FitsAxis src.reverse (out.take src.reverse.length) →
        Stretches src out.reverse := by
  intro hlen hfits
  refine ⟨by simpa using hlen, ?_⟩
  have hrev := forall₂_reverse_iff.2 hfits
  rw [reverse_reverse, length_reverse, reverse_take] at hrev
  simpa using hrev

theorem broadcastWith_stretches {lhs rhs out : Shape} :
    broadcastWith lhs rhs = .ok out → Stretches lhs out ∧ Stretches rhs out := by
  intro h
  unfold broadcastWith at h
  split at h
  · rename_i dims hdims
    cases h
    obtain ⟨hlen, hl, hr⟩ := broadcastRev_fits _ _ _ _ _ (by simp) (by simp) hdims
    exact ⟨stretches_of_reverse (by omega) hl, stretches_of_reverse (by omega) hr⟩
  · cases h

theorem broadcastRev_self (ds : List Nat) : ∀ i : Nat, broadcastRev ds.length ds ds i = .ok ds := by
  induction ds with
  | nil =>
    intro i
    rfl
  | cons d ds ih =>
    intro i
    simp [broadcastRev, broadcastDim, ih, Except.map]

theorem broadcastWith_self (shape : Shape) : broadcastWith shape shape = .ok shape := by
  have h := broadcastRev_self shape.reverse 0
  rw [length_reverse] at h
  simp [broadcastWith, h]

/-! ## Restricting a multi-index -/

variable {srcs dsts cs : List Nat} {src target : Shape} {coords : List Nat}

theorem bounded_restrictAxes : Forall₂ FitsAxis srcs dsts → Bounded dsts cs →
      Bounded srcs (restrictAxes srcs cs) := by
  intro hfits
  induction hfits generalizing cs with
  | nil =>
    intro _
    exact nil
  | @cons s d srcs dsts hs _ ih =>
    intro hb
    rcases forall₂_cons_left_iff.1 hb with ⟨c, cs, hc, hcs, rfl⟩
    refine cons ?_ (ih hcs)
    rcases hs with rfl | rfl
    · by_cases h1 : s = 1
      · simp [h1]
      · simpa [h1] using hc
    · simp

theorem inBounds_restrict :
    Stretches src target → InBounds target coords → InBounds src (restrict src target coords) := by
  intro h hb
  exact bounded_restrictAxes h.2 (forall₂_drop _ hb)

theorem restrictAxes_self {dims : List Nat} :
    Bounded dims cs → restrictAxes dims cs = cs := by
  intro hb
  induction hb with
  | nil => rfl
  | @cons d c dims cs hc _ ih =>
    have hhead : (if d = 1 then 0 else c) = c := by
      split
      · omega
      · rfl
    rw [restrictAxes, zipWith_cons_cons, hhead]
    exact congrArg _ ih

theorem restrict_self {shape : Shape} :
    InBounds shape coords → restrict shape shape coords = coords := by
  intro hb
  simpa [restrict] using restrictAxes_self hb

/-- Coordinates of the source are coordinates of non-empty stretched axes. -/
theorem bounded_of_fits :
    Forall₂ FitsAxis srcs dsts → (∀ d ∈ dsts, 1 ≤ d) → Bounded srcs cs →
      Bounded dsts cs := by
  intro hfits
  induction hfits generalizing cs with
  | nil =>
    intro _ hb
    exact hb
  | @cons s d srcs dsts hs _ ih =>
    intro hpos hb
    rcases forall₂_cons_left_iff.1 hb with ⟨c, cs, hc, hcs, rfl⟩
    have hd := hpos d mem_cons_self
    refine cons ?_ (ih (fun e he => hpos e (mem_cons_of_mem d he)) hcs)
    rcases hs with rfl | rfl
    · exact hc
    · omega

/-- Every multi-index of the source is read for some multi-index of a non-empty target. -/
theorem exists_restrict : Stretches src target → 0 ∉ target → InBounds src coords →
      ∃ J, InBounds target J ∧ restrict src target J = coords := by
  intro h h0 hb
  have hpos : ∀ d ∈ target, 1 ≤ d := by
    intro d hd
    refine Nat.pos_of_ne_zero ?_
    rintro rfl
    exact h0 hd
  refine ⟨replicate (target.length - src.length) 0 ++ coords, ?_, ?_⟩
  · have hzeros : Bounded (target.take (target.length - src.length))
        (replicate (target.length - src.length) 0) := by
      have hz := bounded_zeros (fun d (hd : d ∈ target.take (target.length - src.length)) =>
        hpos d (mem_of_mem_take hd))
      simpa using hz
    have htail := bounded_of_fits h.2 (fun d hd => hpos d (mem_of_mem_drop hd)) hb
    have hall : Bounded (target.take (target.length - src.length) ++
        target.drop (target.length - src.length))
        (replicate (target.length - src.length) 0 ++ coords) :=
      rel_append hzeros htail
    rwa [take_append_drop] at hall
  · rw [restrict, drop_left' (by simp)]
    exact restrictAxes_self hb

/-! ## Expanded strides -/

theorem expandAxis_of_fits {src dst : Nat} (stride : Int) :
    FitsAxis src dst → ∃ s, expandAxis src dst stride = some s ∧
      ∀ c < dst, (c : Int) * s = ((if src = 1 then 0 else c : Nat) : Int) * stride := by
  intro h
  rcases h with rfl | rfl
  · refine ⟨stride, by simp [expandAxis], ?_⟩
    intro c hc
    split
    · have hc0 : c = 0 := by
        omega
      simp [hc0]
    · rfl
  · by_cases hd : 1 = dst
    · refine ⟨stride, by simp [expandAxis, hd], ?_⟩
      intro c hc
      have hc0 : c = 0 := by
        omega
      simp [hc0]
    · exact ⟨0, by simp [expandAxis, hd], by simp⟩

theorem expandLoop_spec (hfits : Forall₂ FitsAxis srcs dsts) :
    ∀ (strides : List Int) (i : Nat), strides.length = srcs.length →
      ∃ out, expandLoop srcs dsts strides i = .ok out ∧ out.length = srcs.length ∧
        ∀ cs, Bounded dsts cs →
          dot (cs.map Int.ofNat) out = dot ((restrictAxes srcs cs).map Int.ofNat) strides := by
  induction hfits with
  | nil =>
    intro strides i hlen
    refine ⟨[], rfl, rfl, ?_⟩
    intro cs hb
    have hcs := forall₂_nil_left_iff.1 hb
    subst hcs
    rfl
  | @cons s d srcs dsts hs _ ih =>
    intro strides i hlen
    cases strides with
    | nil => simp at hlen
    | cons st strides =>
      obtain ⟨s', hs', hmul⟩ := expandAxis_of_fits st hs
      obtain ⟨out, hout, hlen', hdot⟩ := ih strides (i + 1) (by simpa using hlen)
      refine ⟨s' :: out, by simp [expandLoop, hs', hout, Except.map], by simp [hlen'], ?_⟩
      intro cs hb
      rcases forall₂_cons_left_iff.1 hb with ⟨c, cs, hc, hcs, rfl⟩
      have hhead := hmul c hc
      have hrest := hdot cs hcs
      simp only [restrictAxes, zipWith_cons_cons, map_cons, dot_cons,
        Int.ofNat_eq_natCast] at hrest ⊢
      rw [hhead, hrest]

theorem dot_replicate_zero (n : Nat) (cs : List Int) :
    dot cs (replicate n 0) = 0 := by
  induction n generalizing cs with
  | zero => simp [dot]
  | succ n ih =>
    cases cs with
    | nil => simp
    | cons c cs => simp [replicate_succ, ih]

theorem expandStridesTo_spec : Stretches src target →
      ∃ strides, expandStridesTo src target = .ok strides ∧ strides.length = target.length ∧
        ∀ coords, InBounds target coords →
          dot (coords.map Int.ofNat) strides ≡
            (linearOf src (restrict src target coords) : Int) [ZMOD 2 ^ 64] := by
  intro h
  obtain ⟨out, hout, hlen, hdot⟩ := expandLoop_spec h.2 (computeContiguousStrides src) 0 (by simp)
  have hle := h.1
  refine ⟨replicate (target.length - src.length) 0 ++ out, ?_, ?_, ?_⟩
  · simp [expandStridesTo, not_lt.2 hle, hout]
  · simp [hlen]
    omega
  · intro coords hb
    have hsplit : coords.map Int.ofNat =
        (coords.take (target.length - src.length)).map Int.ofNat ++
          (coords.drop (target.length - src.length)).map Int.ofNat := by
      rw [← map_append, take_append_drop]
    have hclen : coords.length = target.length := (length_eq hb).symm
    have htail := hdot _ (forall₂_drop (target.length - src.length) hb)
    rw [hsplit, dot_append _ _ _ _ (by simp; omega), dot_replicate_zero, zero_add, htail]
    exact dot_contiguousStrides (inBounds_restrict h hb)

/-- On expanded strides `linear_to_offset` gives the offset plus the row-major position of the
restricted multi-index. -/
theorem linearToOffset_expand {strides : List Int} {i base : Nat} :
    Stretches src target → expandStridesTo src target = .ok strides → 0 ∉ target →
      linearToOffset i target strides base =
        (base + linearOf src (restrict src target (coordsOf target i))) % 2 ^ 64 := by
  intro h hexp h0
  obtain ⟨strides', hexp', hlen, hdot⟩ := expandStridesTo_spec h
  cases hexp.symm.trans hexp'
  have hmod := hdot _ (inBounds_coordsOf (i := i) h0)
  rw [linearToOffset, stridedIndex_eq, map_dim_zipWith_mk hlen, address, displacement,
    map_stride_zipWith_mk hlen, asU64_congr (Int.ModEq.add_left _ hmod), asU64]
  omega

end Core
end Rustorch
