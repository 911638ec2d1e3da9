import Rustorch.Core.Broadcast
import Rustorch.Lib.PartialJoin

/-!
# Broadcasting as a join

Shapes are ordered by stretching.  `broadcast_with` gives the least shape that both operands
stretch to, and fails where there is none (`broadcast_join`); `expand_strides_to` succeeds exactly
along the order (`expandStridesTo_iff`).
-/

namespace Rustorch
namespace Core

open List

/-! ## The order, from the last axis on -/

/-- Stretching of reversed shapes: the target may have more axes. -/
inductive FitsRev : List Nat → List Nat → Prop
  | nil (dsts : List Nat) : FitsRev [] dsts
  | cons {src dst : Nat} {srcs dsts : List Nat} :
      FitsAxis src dst → FitsRev srcs dsts → FitsRev (src :: srcs) (dst :: dsts)

variable {srcs : List Nat} {src target : Shape} {as bs : List Nat} {a b r : Shape}

theorem fitsRev_iff : ∀ {dsts : List Nat}, FitsRev srcs dsts ↔
      srcs.length ≤ dsts.length ∧ List.Forall₂ FitsAxis srcs (dsts.take srcs.length) := by
  induction srcs with
  | nil =>
    intro dsts
    exact ⟨fun _ => ⟨Nat.zero_le _, Forall₂.nil⟩, fun _ => FitsRev.nil dsts⟩
  | cons src srcs ih =>
    intro dsts
    constructor
    · intro h
      cases h with
      | cons haxis hrest =>
        obtain ⟨hlen, hall⟩ := ih.1 hrest
        exact ⟨Nat.succ_le_succ hlen, Forall₂.cons haxis hall⟩
    · rintro ⟨hlen, hall⟩
      cases dsts with
      | nil => cases hlen
      | cons dst dsts =>
        obtain ⟨haxis, hrest⟩ := forall₂_cons.1 hall
        exact FitsRev.cons haxis (ih.2 ⟨Nat.le_of_succ_le_succ hlen, hrest⟩)

theorem stretches_iff : Stretches src target ↔ FitsRev src.reverse target.reverse := by
  rw [fitsRev_iff, length_reverse, length_reverse, take_reverse, forall₂_reverse_iff]
  rfl

theorem fitsRev_refl (ds : List Nat) : FitsRev ds ds := by
  induction ds with
  | nil => exact FitsRev.nil []
  | cons d ds ih => exact FitsRev.cons (Or.inl rfl) ih

theorem FitsAxis.trans {a b c : Nat} : FitsAxis a b → FitsAxis b c → FitsAxis a c := by
  intro hab hbc
  rcases hab with rfl | rfl
  · exact hbc
  · exact Or.inr rfl

theorem FitsAxis.antisymm {a b : Nat} : FitsAxis a b → FitsAxis b a → a = b := by
  intro hab hba
  unfold FitsAxis at hab hba
  omega

theorem FitsRev.trans (h : FitsRev as bs) : ∀ {cs : List Nat}, FitsRev bs cs → FitsRev as cs := by
  induction h with
  | nil bs =>
    intro cs _
    exact FitsRev.nil cs
  | cons hab _ ih =>
    intro cs hbc
    cases hbc with
    | cons hhead hrest => exact FitsRev.cons (hab.trans hhead) (ih hrest)

theorem FitsRev.antisymm (h : FitsRev as bs) : FitsRev bs as → as = bs := by
  induction h with
  | nil bs =>
    intro hba
    cases hba
    rfl
  | cons hab _ ih =>
    intro hba
    cases hba with
    | cons hhead hrest => rw [hab.antisymm hhead, ih hrest]

/-! ## The loop finds the least upper bound -/

/-- Two sizes that fit a third one have a common size, which fits it too. -/
theorem broadcastDim_of_fits {l r d : Nat} :
    FitsAxis l d → FitsAxis r d → ∃ m, broadcastDim l r = some m ∧ FitsAxis m d := by
  intro hl hr
  unfold broadcastDim
  by_cases heq : l = r
  · exact ⟨l, if_pos heq, hl⟩
  · by_cases hl1 : l = 1
    · exact ⟨r, by rw [if_neg heq, if_pos hl1], hr⟩
    · have hr1 : r = 1 := by
        unfold FitsAxis at hl hr
        omega
      exact ⟨l, by rw [if_neg heq, if_neg hl1, if_pos hr1], hl⟩

theorem FitsRev.head {dsts : List Nat} {d : Nat} :
    FitsRev srcs (d :: dsts) → FitsAxis (srcs.headD 1) d ∧ FitsRev srcs.tail dsts := by
  intro h
  cases h with
  | nil => exact ⟨Or.inr rfl, FitsRev.nil dsts⟩
  | cons haxis hrest => exact ⟨haxis, hrest⟩

theorem broadcastRev_least (dsts : List Nat) :
    ∀ (ls rs : List Nat) (i : Nat), FitsRev ls dsts → FitsRev rs dsts →
      ∃ out, broadcastRev (max ls.length rs.length) ls rs i = .ok out ∧ FitsRev out dsts := by
  induction dsts with
  | nil =>
    intro ls rs i hl hr
    cases hl
    cases hr
    exact ⟨[], rfl, FitsRev.nil []⟩
  | cons d dsts ih =>
    intro ls rs i hl hr
    obtain ⟨hlhead, hltail⟩ := hl.head
    obtain ⟨hrhead, hrtail⟩ := hr.head
    by_cases hempty : max ls.length rs.length = 0
    · rw [hempty]
      exact ⟨[], rfl, FitsRev.nil _⟩
    · have hlen : max ls.length rs.length = max ls.tail.length rs.tail.length + 1 := by
        rw [length_tail, length_tail]
        omega
      obtain ⟨m, hm, hmd⟩ := broadcastDim_of_fits hlhead hrhead
      obtain ⟨out, hout, hfits⟩ := ih ls.tail rs.tail (i + 1) hltail hrtail
      refine ⟨m :: out, ?_, FitsRev.cons hmd hfits⟩
      rw [hlen, broadcastRev, hm, hout]
      rfl

theorem broadcastWith_least : Stretches a target → Stretches b target →
      ∃ r, broadcastWith a b = .ok r ∧ Stretches r target := by
  intro ha hb
  obtain ⟨out, hout, hfits⟩ := broadcastRev_least target.reverse a.reverse b.reverse 0
    (stretches_iff.1 ha) (stretches_iff.1 hb)
  rw [length_reverse, length_reverse] at hout
  refine ⟨out.reverse, ?_, ?_⟩
  · rw [broadcastWith, hout]
  · rw [stretches_iff, reverse_reverse]
    exact hfits

/-- The result of `broadcast_with` without the error. -/
def broadcastShape (a b : Shape) : Option Shape :=
  (broadcastWith a b).toOption

theorem broadcastShape_eq_some : broadcastShape a b = some r ↔ broadcastWith a b = .ok r := by
  unfold broadcastShape
  cases broadcastWith a b with
  | error e => simp [Except.toOption]
  | ok s => simp [Except.toOption]

theorem broadcast_join : PartialJoin Stretches broadcastShape where
  refl := by
    intro a
    rw [stretches_iff]
    exact fitsRev_refl _
  trans := by
    intro a b c hab hbc
    rw [stretches_iff] at hab hbc ⊢
    exact hab.trans hbc
  antisymm := by
    intro a b hab hba
    rw [stretches_iff] at hab hba
    exact reverse_injective (hab.antisymm hba)
  left := by
    intro a b c h
    exact (broadcastWith_stretches (broadcastShape_eq_some.1 h)).1
  right := by
    intro a b c h
    exact (broadcastWith_stretches (broadcastShape_eq_some.1 h)).2
  least := by
    intro a b d had hbd
    obtain ⟨r, hr, hrd⟩ := broadcastWith_least had hbd
    exact ⟨r, broadcastShape_eq_some.2 hr, hrd⟩

/-! ## Multi-indices of a broadcast shape -/

theorem restrictAxes_cons {d c : Nat} (ds cs : List Nat) :
    restrictAxes (d :: ds) (c :: cs) = (if d = 1 then 0 else c) :: restrictAxes ds cs :=
  rfl

/-- A size of the result is a size of one of the operands. -/
theorem broadcastDim_eq_some {l r m : Nat} : broadcastDim l r = some m → m = l ∨ m = r := by
  intro h
  unfold broadcastDim at h
  split_ifs at h
  all_goals
    cases h
    tauto

/-- An operand that has the size of an axis shows its coordinate. -/
theorem head_eq_of_restrictAxes {ds cs cs' : List Nat} {m c c' : Nat} :
    m = ds.headD 1 → c < m → c' < m →
      restrictAxes ds (c :: cs) = restrictAxes ds (c' :: cs') → c = c' := by
  intro hm hc hc' h
  by_cases h1 : m = 1
  · omega
  · cases ds with
    | nil => exact absurd hm h1
    | cons d ds =>
      have hd : d ≠ 1 := fun hd => h1 (hm.trans hd)
      rw [restrictAxes_cons, restrictAxes_cons, if_neg hd, if_neg hd] at h
      exact head_eq_of_cons_eq h

theorem restrictAxes_tail {ds cs cs' : List Nat} {c c' : Nat} :
    restrictAxes ds (c :: cs) = restrictAxes ds (c' :: cs') →
      restrictAxes ds.tail cs = restrictAxes ds.tail cs' := by
  intro h
  cases ds with
  | nil => rfl
  | cons d ds => exact tail_eq_of_cons_eq h

theorem broadcastRev_coords (n : Nat) :
    ∀ (ls rs : List Nat) (i : Nat) (out : List Nat), broadcastRev n ls rs i = .ok out →
      ∀ cs cs' : List Nat, MixedRadix.Bounded out cs → MixedRadix.Bounded out cs' →
        restrictAxes ls cs = restrictAxes ls cs' → restrictAxes rs cs = restrictAxes rs cs' →
          cs = cs' := by
  induction n with
  | zero =>
    intro ls rs i out h cs cs' hcs hcs' _ _
    cases h
    rw [forall₂_nil_left_iff.1 hcs, forall₂_nil_left_iff.1 hcs']
  | succ n ih =>
    intro ls rs i out h cs cs' hcs hcs' hl hr
    obtain ⟨m, out, hd, hrest, rfl⟩ := broadcastRev_succ h
    obtain ⟨c, ct, hc, hct, rfl⟩ := forall₂_cons_left_iff.1 hcs
    obtain ⟨c', ct', hc', hct', rfl⟩ := forall₂_cons_left_iff.1 hcs'
    have htail := ih _ _ _ _ hrest ct ct' hct hct' (restrictAxes_tail hl) (restrictAxes_tail hr)
    rcases broadcastDim_eq_some hd with hm | hm
    · rw [head_eq_of_restrictAxes hm hc hc' hl, htail]
    · rw [head_eq_of_restrictAxes hm hc hc' hr, htail]

theorem broadcastRev_pos (n : Nat) :
    ∀ (ls rs : List Nat) (i : Nat) (out : List Nat), 0 ∉ ls → 0 ∉ rs →
      broadcastRev n ls rs i = .ok out → 0 ∉ out := by
  induction n with
  | zero =>
    intro ls rs i out _ _ h
    cases h
    exact not_mem_nil
  | succ n ih =>
    intro ls rs i out hl hr h
    obtain ⟨m, out, hd, hrest, rfl⟩ := broadcastRev_succ h
    have hhead : ∀ ds : List Nat, 0 ∉ ds → ds.headD 1 ≠ 0 := by
      intro ds hds
      cases ds with
      | nil => exact Nat.one_ne_zero
      | cons d ds => exact fun hd => hds (hd ▸ mem_cons_self)
    rw [mem_cons, not_or]
    refine ⟨?_, ih _ _ _ _ (fun h => hl (mem_of_mem_tail h))
      (fun h => hr (mem_of_mem_tail h)) hrest⟩
    rcases broadcastDim_eq_some hd with hm | hm
    · exact fun h0 => hhead ls hl (hm ▸ h0.symm)
    · exact fun h0 => hhead rs hr (hm ▸ h0.symm)

theorem broadcastWith_pos : broadcastWith a b = .ok r → 0 ∉ a → 0 ∉ b → 0 ∉ r := by
  intro h ha hb
  unfold broadcastWith at h
  split at h
  · rename_i out hout
    cases h
    have hpos := broadcastRev_pos _ _ _ _ _ (by simpa using ha) (by simpa using hb) hout
    simpa using hpos
  · cases h

theorem reverse_restrict {coords : List Nat} :
    src.length ≤ target.length → coords.length = target.length →
      (restrict src target coords).reverse = restrictAxes src.reverse coords.reverse := by
  intro hle hlen
  have hdrop : src.length = (coords.drop (target.length - src.length)).length := by
    rw [length_drop, hlen]
    omega
  rw [restrict, restrictAxes, reverse_zipWith hdrop, restrictAxes, reverse_drop, hlen]
  have htake : target.length - (target.length - src.length) = src.reverse.length := by
    rw [length_reverse]
    omega
  rw [htake]
  apply ext_getElem?
  intro i
  rw [getElem?_zipWith, getElem?_zipWith, getElem?_take]
  by_cases hi : i < src.reverse.length
  · rw [if_pos hi]
  · rw [getElem?_eq_none (not_lt.1 hi)]

/-- A multi-index of the broadcast shape is determined by where both operands are read for it. -/
theorem restrict_inj {I J : List Nat} (h : broadcastWith a b = .ok r) (hI : InBounds r I)
    (hJ : InBounds r J) :
    restrict a r I = restrict a r J → restrict b r I = restrict b r J → I = J := by
  intro ha hb
  obtain ⟨hla, hlb⟩ := broadcastWith_stretches h
  have hlenI : I.length = r.length := hI.length_eq.symm
  have hlenJ : J.length = r.length := hJ.length_eq.symm
  unfold broadcastWith at h
  split at h
  · rename_i out hout
    cases h
    have hrev := broadcastRev_coords _ _ _ _ _ hout I.reverse J.reverse
      (by simpa using forall₂_reverse_iff.2 hI) (by simpa using forall₂_reverse_iff.2 hJ)
      (by rw [← reverse_restrict hla.1 hlenI, ← reverse_restrict hla.1 hlenJ, ha])
      (by rw [← reverse_restrict hlb.1 hlenI, ← reverse_restrict hlb.1 hlenJ, hb])
    exact reverse_injective hrev
  · cases h

/-! ## Expanding -/

theorem expandAxis_eq_some {src dst : Nat} {stride s : Int} :
    expandAxis src dst stride = some s → FitsAxis src dst := by
  intro h
  unfold expandAxis at h
  split_ifs at h with heq h1
  · exact Or.inl heq
  · exact Or.inr h1

theorem expandLoop_fits :
    ∀ {dsts : List Nat} {strides out : List Int} {i : Nat}, srcs.length = dsts.length →
      strides.length = srcs.length → expandLoop srcs dsts strides i = .ok out →
        List.Forall₂ FitsAxis srcs dsts := by
  induction srcs with
  | nil =>
    intro dsts strides out i hlen _ _
    rw [length_eq_zero_iff.1 hlen.symm]
    exact Forall₂.nil
  | cons src srcs ih =>
    intro dsts strides out i hlen hstrides h
    cases dsts with
    | nil => cases hlen
    | cons dst dsts =>
      cases strides with
      | nil => cases hstrides
      | cons stride strides =>
        cases haxis : expandAxis src dst stride with
        | none =>
          simp only [expandLoop, haxis] at h
          cases h
        | some s =>
          cases hrest : expandLoop srcs dsts strides (i + 1) with
          | error e =>
            simp only [expandLoop, haxis, hrest] at h
            cases h
          | ok tail =>
            exact Forall₂.cons (expandAxis_eq_some haxis)
              (ih (Nat.succ.inj hlen) (Nat.succ.inj hstrides) hrest)

/-- Expanding succeeds exactly along the order. -/
theorem expandStridesTo_iff :
    (∃ strides, expandStridesTo src target = .ok strides) ↔ Stretches src target := by
  constructor
  · rintro ⟨strides, h⟩
    unfold expandStridesTo at h
    split_ifs at h with hlen
    have hle : src.length ≤ target.length := not_lt.1 hlen
    refine ⟨hle, ?_⟩
    cases hloop : expandLoop src (target.drop (target.length - src.length))
        (computeContiguousStrides src) 0 with
    | error i =>
      simp only [hloop] at h
      cases h
    | ok out =>
      refine expandLoop_fits ?_ (length_computeContiguousStrides src) hloop
      rw [length_drop]
      omega
  · intro h
    obtain ⟨strides, hstrides, _⟩ := expandStridesTo_spec h
    exact ⟨strides, hstrides⟩

/-- Expansion that succeeds. -/
def Expands (src target : Shape) : Prop :=
  ∃ strides, expandStridesTo src target = .ok strides

/-- Broadcasting is commutative, associative and idempotent where it is defined, expanding is its
order, and a broadcast shape is the least that both operands expand to. -/
theorem broadcast_partialJoin :
    (∀ a b, broadcastShape a b = broadcastShape b a) ∧
    (∀ a b c, (broadcastShape a b).bind (fun r => broadcastShape r c) =
      (broadcastShape b c).bind (fun r => broadcastShape a r)) ∧
    (∀ a, broadcastWith a a = .ok a) ∧
    (∀ a t, Expands a t ↔ broadcastWith a t = .ok t) ∧
    ∀ a b r, broadcastWith a b = .ok r →
      Expands a r ∧ Expands b r ∧ ∀ t, Expands a t → Expands b t → Expands r t := by
  refine ⟨broadcast_join.comm, broadcast_join.assoc, broadcastWith_self, ?_, ?_⟩
  · intro a t
    rw [Expands, expandStridesTo_iff, broadcast_join.le_iff, broadcastShape_eq_some]
  · intro a b r h
    have hjoin := broadcastShape_eq_some.2 h
    refine ⟨expandStridesTo_iff.2 (broadcast_join.left hjoin),
      expandStridesTo_iff.2 (broadcast_join.right hjoin), ?_⟩
    intro t ha hb
    exact expandStridesTo_iff.2
      (broadcast_join.le_of_bounds hjoin (expandStridesTo_iff.1 ha) (expandStridesTo_iff.1 hb))

end Core
end Rustorch
