import Rustorch.Core.Containment

/-!
# The contiguity flag

The flag says that the strides of all axes of size other than 1 are the row-major ones.  On a
flagged layout a multi-index is therefore stored at the offset plus its position in shape order
(`Layout.address_of_contiguous`), and on a layout of a reachable tensor without the flag some
multi-index is stored elsewhere (`Layout.exists_displaced`).
-/

namespace Rustorch
namespace Core

open List MixedRadix Layout Forall₂

/-! ## Flagged layouts -/

/-- On axes that pass the contiguity walk from stride `acc`, a multi-index is displaced by `acc`
times its position, modulo the word size.  A size-1 axis only meets coordinate 0, so its free
stride does not count. -/
theorem contiguousWalk_displacement (axes : List Axis) :
    ∀ (acc : Int) (coords : List Nat), contiguousWalk axes acc = true →
      Bounded (axes.map Axis.dim) coords →
        displacement axes coords ≡
          acc * (value (axes.map Axis.dim) coords : Int) [ZMOD 2 ^ 64] := by
  induction axes with
  | nil =>
    intro acc coords _ hb
    have hnil : coords = [] := forall₂_nil_left_iff.1 hb
    subst hnil
    simp [displacement, value]
  | cons a axes ih =>
    intro acc coords hwalk hb
    rcases forall₂_cons_left_iff.1 hb with ⟨c, cs, hc, hcs, rfl⟩
    unfold contiguousWalk at hwalk
    split at hwalk
    · cases hwalk
    · rename_i hstride
      have hrest := ih _ cs hwalk hcs
      -- a size-1 axis has coordinate 0 only, so its stride is free
      have hhead : (c : Int) * a.stride = acc * c := by
        by_cases h1 : a.dim = 1
        · have hc0 : c = 0 := by
            omega
          simp [hc0]
        · have hs : a.stride = acc := by
            by_contra hne
            exact hstride ⟨h1, hne⟩
          rw [hs, mul_comm]
      have hnext : wrapI64 (acc * asI64 a.dim) ≡ acc * a.dim [ZMOD 2 ^ 64] :=
        (wrapI64_modEq _).trans ((asI64_modEq _).mul_left acc)
      calc
        displacement (a :: axes) (c :: cs)
            = acc * c + displacement axes cs := by
              rw [displacement_cons, hhead]
        _ ≡ acc * c + acc * a.dim * (value (axes.map Axis.dim) cs : Int)
              [ZMOD 2 ^ 64] := Int.ModEq.add_left _ (hrest.trans (hnext.mul_right _))
        _ = acc * (value ((a :: axes).map Axis.dim) (c :: cs) : Int) := by
              simp only [map_cons, value]
              push_cast
              ring

variable {l : Layout} {coords : List Nat}

theorem displacement_of_contiguous : l.isContiguous = true → InBounds l.shape coords →
      displacement l.axes coords ≡ (linearOf l.shape coords : Int) [ZMOD 2 ^ 64] := by
  intro hflag hb
  have hlen : coords.length = l.axes.length := by
    simpa [shape] using (length_eq hb).symm
  have hrev : Bounded (l.axes.reverse.map Axis.dim) coords.reverse := by
    rw [map_reverse]
    exact forall₂_reverse_iff.2 hb
  have hwalk : contiguousWalk l.axes.reverse 1 = true := by
    have hc := l.flag_eq.symm.trans hflag
    unfold isContiguousStrides at hc
    split at hc
    · rename_i hempty
      rw [isEmpty_iff.1 hempty]
      rfl
    · split at hc
      · rename_i hzero
        rcases any_eq_true.1 hzero with ⟨a, ha, hdim⟩
        have hmem : 0 ∈ l.shape := by
          rw [← beq_iff_eq.1 hdim]
          exact mem_map_of_mem ha
        exact absurd hmem (not_mem_of_inBounds hb)
      · exact hc
  have hdisp := contiguousWalk_displacement l.axes.reverse 1 coords.reverse hwalk hrev
  rwa [displacement_reverse _ _ hlen, one_mul, map_reverse] at hdisp

/-- On a flagged layout the element at a multi-index is stored at the offset plus its position. -/
theorem address_of_contiguous : l.isContiguous = true → InBounds l.shape coords →
      address l.axes l.storageOffset coords =
        (l.storageOffset + linearOf l.shape coords) % 2 ^ 64 := by
  intro hflag hb
  have hval : (l.storageOffset : Int) + displacement l.axes coords ≡
      ((l.storageOffset + linearOf l.shape coords : Nat) : Int) [ZMOD 2 ^ 64] := by
    exact Int.ModEq.add_left _ (displacement_of_contiguous hflag hb)
  rw [address, asU64_congr hval, asU64]
  omega

/-- Row-major strides displace a multi-index by its position. -/
theorem dot_contiguousStrides {shape : Shape} : InBounds shape coords →
      dot (coords.map Int.ofNat) (computeContiguousStrides shape) ≡
        (linearOf shape coords : Int) [ZMOD 2 ^ 64] := by
  intro hb
  have h := displacement_of_contiguous (l := contiguous shape .f32) rfl
    (by rwa [shape_contiguous])
  rw [shape_contiguous] at h
  rw [← strides_contiguous shape .f32]
  exact h

/-! ## Layouts without the flag -/

theorem displacement_zeros (axes : List Axis) (n : Nat) :
    displacement axes (List.replicate n 0) = 0 := by
  induction axes generalizing n with
  | nil => exact displacement_nil _
  | cons a axes ih =>
    cases n with
    | zero => rfl
    | succ n => simp [replicate_succ, displacement_cons, ih]

theorem bounded_zeros {dims : List Nat} :
    (∀ d ∈ dims, 1 ≤ d) → Bounded dims (List.replicate dims.length 0) := by
  intro h
  induction dims with
  | nil => exact nil
  | cons d dims ih =>
    refine cons (h d mem_cons_self) ?_
    exact ih (fun e he => h e (mem_cons_of_mem d he))

theorem value_zeros (dims : List Nat) (n : Nat) :
    value dims (List.replicate n 0) = 0 := by
  induction dims generalizing n with
  | nil => simp [value]
  | cons d dims ih =>
    cases n with
    | zero => rfl
    | succ n => simp [replicate_succ, value, ih]

/-- Axes that fail the walk have a multi-index that is displaced elsewhere: the unit of the first
axis with a wrong stride. -/
theorem contiguousWalk_eq_false (axes : List Axis) :
    ∀ acc : Int, -(2 ^ 63) ≤ acc → acc < 2 ^ 63 →
      (∀ a ∈ axes, 1 ≤ a.dim ∧ (2 ≤ a.dim → -(2 ^ 63) ≤ a.stride ∧ a.stride < 2 ^ 63)) →
        contiguousWalk axes acc = false →
          ∃ coords, Bounded (axes.map Axis.dim) coords ∧
            ¬ displacement axes coords ≡
              acc * (value (axes.map Axis.dim) coords : Int) [ZMOD 2 ^ 64] := by
  induction axes with
  | nil =>
    intro acc _ _ _ hwalk
    cases hwalk
  | cons a axes ih =>
    intro acc hlo hhi haxes hwalk
    have hdim := haxes a mem_cons_self
    have hpos : ∀ d ∈ axes.map Axis.dim, 1 ≤ d := by
      intro d hd
      rcases mem_map.1 hd with ⟨b, hb, rfl⟩
      exact (haxes b (mem_cons_of_mem a hb)).1
    unfold contiguousWalk at hwalk
    split at hwalk
    · rename_i hbad
      have hstride := hdim.2 (by omega)
      refine ⟨1 :: replicate (axes.map Axis.dim).length 0,
        cons (by omega) (bounded_zeros hpos), ?_⟩
      intro hmod
      have hunit : a.stride ≡ acc [ZMOD 2 ^ 64] := by
        rw [displacement_cons, displacement_zeros] at hmod
        simpa [value, value_zeros] using hmod
      exact hbad.2 (eq_of_modEq_of_i64 hunit hstride.1 hstride.2 hlo hhi)
    · have hnext : wrapI64 (acc * asI64 a.dim) ≡ acc * a.dim [ZMOD 2 ^ 64] :=
        (wrapI64_modEq _).trans ((asI64_modEq _).mul_left acc)
      obtain ⟨cs, hcs, hne⟩ := ih _ (le_wrapI64 _) (wrapI64_lt _)
        (fun b hb => haxes b (mem_cons_of_mem a hb)) hwalk
      refine ⟨0 :: cs, cons (by omega) hcs, ?_⟩
      intro hmod
      refine hne (Int.ModEq.trans ?_ (hnext.symm.mul_right _))
      rw [displacement_cons] at hmod
      simpa [value, mul_assoc] using hmod

/-- A non-empty layout inside its storage and without the flag stores some multi-index elsewhere
than at its position. -/
theorem exists_displaced {n : Nat} : l.isContiguous = false → n < 2 ^ 63 → l.Inside n →
      ∃ coords, InBounds l.shape coords ∧
        address l.axes l.storageOffset coords ≠
          (l.storageOffset + linearOf l.shape coords) % 2 ^ 64 := by
  intro hflag hn hin
  have hc := l.flag_eq.symm.trans hflag
  unfold isContiguousStrides at hc
  split at hc
  · cases hc
  · split at hc
    · cases hc
    · rename_i hzero
      have hcont : Contained n l.axes l.storageOffset := by
        rcases hin with h0 | hcont
        · rcases mem_map.1 h0 with ⟨a, ha, hdim⟩
          exact absurd (any_eq_true.2 ⟨a, ha, by simp [hdim]⟩) hzero
        · exact hcont
      have haxes : ∀ a ∈ l.axes.reverse,
          1 ≤ a.dim ∧ (2 ≤ a.dim → -(2 ^ 63) ≤ a.stride ∧ a.stride < 2 ^ 63) := by
        intro a ha
        have hmem := mem_reverse.1 ha
        refine ⟨hcont.dim_pos a hmem, ?_⟩
        intro h2
        have hstride := hcont.stride_nonneg a hmem h2
        have hlt := hcont.stride_lt hmem h2
        omega
      -- the walk that refuses the strides shows a multi-index off its place
      obtain ⟨coords, hb, hne⟩ := contiguousWalk_eq_false l.axes.reverse 1 (by decide) (by decide)
        haxes hc
      have hb' : InBounds l.shape coords.reverse := by
        have hrev := forall₂_reverse_iff.2 hb
        rwa [map_reverse, reverse_reverse] at hrev
      refine ⟨coords.reverse, hb', ?_⟩
      intro heq
      refine hne ?_
      have hlen : coords.length = l.axes.length := by
        simpa using (length_eq hb).symm
      have hdisp := displacement_reverse l.axes coords.reverse (by simpa using hlen)
      rw [reverse_reverse] at hdisp
      rw [hdisp, one_mul, map_reverse]
      have hval : ((l.storageOffset : Int) + displacement l.axes coords.reverse) % 2 ^ 64 =
          ((l.storageOffset : Int) + (linearOf l.shape coords.reverse : Nat)) % 2 ^ 64 := by
        unfold address asU64 at heq
        omega
      have hmod : displacement l.axes coords.reverse ≡
          (linearOf l.shape coords.reverse : Int) [ZMOD 2 ^ 64] :=
        Int.ModEq.add_left_cancel' _ hval
      simpa [linearOf, shape] using hmod

end Core
end Rustorch
