import Mathlib.Algebra.Order.BigOperators.GroupWithZero.List
import Mathlib.Data.List.Range
import Mathlib.Tactic.Linarith
import Rustorch.Core.View

/-!
# Views stay inside their storage

`Contained n axes offset` is the invariant of a non-empty layout over a storage of `n` elements:
axes of size at least 2 have non-negative strides, and the last element lies below `n`.  Size-1
axes carry an arbitrary stride, which only ever meets coordinate 0.

Every view operation keeps the invariant, or leaves an axis of size 0 behind
(`Contained.runView`), so every logical index of a reachable tensor addresses its storage
(`reachable_readable`).
-/

namespace Rustorch
namespace Core

open List Layout

/-! ## The invariant -/

/-- Distance from the first to the last element: `Σ (dim - 1) * stride`. -/
def extent (axes : List Axis) : Int :=
  (axes.map (fun a => ((a.dim : Int) - 1) * a.stride)).sum

structure Contained (n : Nat) (axes : List Axis) (offset : Nat) : Prop where
  dim_pos : ∀ a ∈ axes, 1 ≤ a.dim
  stride_nonneg : ∀ a ∈ axes, 2 ≤ a.dim → 0 ≤ a.stride
  last_lt : (offset : Int) + extent axes < n
  numel_le : (axes.map Axis.dim).prod ≤ n

/-- Axes are empty, or contained in a storage of `n` elements. -/
def Inside (n : Nat) (axes : List Axis) (offset : Nat) : Prop :=
  0 ∈ axes.map Axis.dim ∨ Contained n axes offset

/-- The layout is empty, or contained in a storage of `n` elements. -/
def Layout.Inside (n : Nat) (l : Layout) : Prop :=
  Core.Inside n l.axes l.storageOffset

@[simp] theorem extent_cons (a : Axis) (axes : List Axis) :
    extent (a :: axes) = ((a.dim : Int) - 1) * a.stride + extent axes := by
  simp [extent]

variable {a : Axis} {axes : List Axis} {n offset : Nat} {axes' : List Axis} {start dim : Nat}

theorem axis_extent_nonneg :
    1 ≤ a.dim → (2 ≤ a.dim → 0 ≤ a.stride) → 0 ≤ ((a.dim : Int) - 1) * a.stride := by
  intro hdim hstride
  by_cases h1 : a.dim = 1
  · simp [h1]
  · exact mul_nonneg (by omega) (hstride (by omega))

theorem extent_nonneg :
    (∀ a ∈ axes, 1 ≤ a.dim) → (∀ a ∈ axes, 2 ≤ a.dim → 0 ≤ a.stride) → 0 ≤ extent axes := by
  intro hdim hstride
  refine sum_nonneg ?_
  intro x hx
  rcases mem_map.1 hx with ⟨a, ha, rfl⟩
  exact axis_extent_nonneg (hdim a ha) (hstride a ha)

/-- An axis with two elements has a stride below the number of elements. -/
theorem Contained.stride_lt : Contained n axes offset → a ∈ axes → 2 ≤ a.dim → a.stride < n := by
  intro h ha h2
  have hlast := h.last_lt
  have hstride := h.stride_nonneg a ha h2
  have hle : ((a.dim : Int) - 1) * a.stride ≤ extent axes := by
    refine single_le_sum ?_ _ (mem_map.2 ⟨a, ha, rfl⟩)
    intro x hx
    rcases mem_map.1 hx with ⟨b, hb, rfl⟩
    exact axis_extent_nonneg (h.dim_pos b hb) (h.stride_nonneg b hb)
  have hself : a.stride ≤ ((a.dim : Int) - 1) * a.stride :=
    le_mul_of_one_le_left hstride (by omega)
  omega

theorem Contained.perm : axes'.Perm axes → Contained n axes offset → Contained n axes' offset := by
  intro hperm h
  refine ⟨?_, ?_, ?_, ?_⟩
  · intro a ha
    exact h.dim_pos a (hperm.mem_iff.1 ha)
  · intro a ha
    exact h.stride_nonneg a (hperm.mem_iff.1 ha)
  · have hext : extent axes' = extent axes := (hperm.map _).sum_eq
    rw [hext]
    exact h.last_lt
  · rw [(hperm.map Axis.dim).prod_eq]
    exact h.numel_le

theorem contained_cons_one :
    a.dim = 1 → (Contained n (a :: axes) offset ↔ Contained n axes offset) := by
  intro ha
  constructor
  · intro h
    refine ⟨?_, ?_, ?_, ?_⟩
    · intro b hb
      exact h.dim_pos b (mem_cons_of_mem a hb)
    · intro b hb
      exact h.stride_nonneg b (mem_cons_of_mem a hb)
    · simpa [ha] using h.last_lt
    · simpa [ha] using h.numel_le
  · intro h
    refine ⟨?_, ?_, ?_, ?_⟩
    · intro b hb
      rcases mem_cons.1 hb with rfl | hb
      · omega
      · exact h.dim_pos b hb
    · intro b hb hdim
      rcases mem_cons.1 hb with rfl | hb
      · omega
      · exact h.stride_nonneg b hb hdim
    · simpa [ha] using h.last_lt
    · simpa [ha] using h.numel_le

/-! ## Addresses of a contained layout -/

theorem displacement_bounds : (∀ a ∈ axes, 2 ≤ a.dim → 0 ≤ a.stride) →
      ∀ coords : List Nat, InBounds (axes.map Axis.dim) coords →
        0 ≤ displacement axes coords ∧ displacement axes coords ≤ extent axes := by
  induction axes with
  | nil =>
    intro _ coords _
    simp [displacement, MixedRadix.dot, extent]
  | cons a axes ih =>
    intro hstride coords hb
    rcases forall₂_cons_left_iff.1 hb with ⟨c, cs, hc, hcs, rfl⟩
    have hrest := ih (fun b hb => hstride b (mem_cons_of_mem a hb)) cs hcs
    have hhead : 0 ≤ (c : Int) * a.stride ∧
        (c : Int) * a.stride ≤ ((a.dim : Int) - 1) * a.stride := by
      by_cases h2 : 2 ≤ a.dim
      · have hs := hstride a mem_cons_self h2
        exact ⟨mul_nonneg (by omega) hs, mul_le_mul_of_nonneg_right (by omega) hs⟩
      · -- A size-1 axis is read at coordinate 0 only.
        have hc0 : c = 0 := by
          omega
        have hd1 : a.dim = 1 := by
          omega
        simp [hc0, hd1]
    have hsplit : displacement (a :: axes) (c :: cs) =
        (c : Int) * a.stride + displacement axes cs := by
      simp [displacement]
    rw [hsplit, extent_cons]
    omega

/-- Every logical index of a contained layout is a storage index, with no wrap-around. -/
theorem Contained.address_lt : n < 2 ^ 63 → Contained n axes offset →
      ∀ coords, InBounds (axes.map Axis.dim) coords →
        (address axes offset coords : Int) = offset + displacement axes coords ∧
          address axes offset coords < n := by
  intro hn h coords hb
  have hd := displacement_bounds h.stride_nonneg coords hb
  have hlast := h.last_lt
  have haddr : address axes offset coords = ((offset : Int) + displacement axes coords).toNat :=
    asU64_of_nonneg (by omega) (by omega)
  omega

/-! ## Row-major layouts are contained -/

theorem Contained.offset_lt : Contained n axes offset → offset < n := by
  intro h
  have hlast := h.last_lt
  have hext := extent_nonneg h.dim_pos h.stride_nonneg
  omega

theorem axesFrom_dim_pos {ds : List Nat} :
    (∀ d ∈ ds, 1 ≤ d) → ∀ acc : Int, ∀ a ∈ axesFrom ds acc, 1 ≤ a.dim := by
  intro hpos acc a ha
  have hmem : a.dim ∈ (axesFrom ds acc).map Axis.dim := mem_map_of_mem ha
  rw [map_dim_axesFrom] at hmem
  exact hpos a.dim hmem

theorem axesFrom_extent (ds : List Nat) :
    ∀ acc : Nat, (∀ d ∈ ds, 1 ≤ d) → acc * ds.prod < 2 ^ 63 →
      (∀ a ∈ axesFrom ds acc, 0 ≤ a.stride) ∧
        extent (axesFrom ds acc) = (acc : Int) * ds.prod - acc := by
  induction ds with
  | nil =>
    intro acc _ _
    simp [axesFrom, extent]
  | cons d ds ih =>
    intro acc hpos hlt
    have hds : ∀ e ∈ ds, 1 ≤ e := fun e he => hpos e (mem_cons_of_mem d he)
    have hprod : 1 ≤ ds.prod := Nat.one_le_iff_ne_zero.2 (by
      intro h0
      have := hds 0 (prod_eq_zero_iff.1 h0)
      omega)
    have hmul : acc * d * ds.prod < 2 ^ 63 := by
      rw [prod_cons, ← Nat.mul_assoc] at hlt
      exact hlt
    have hacc : acc * d < 2 ^ 63 := lt_of_le_of_lt (Nat.le_mul_of_pos_right _ hprod) hmul
    have hstep : wrapI64 ((acc : Int) * asI64 d) = ((acc * d : Nat) : Int) := by
      by_cases h0 : acc = 0
      · subst h0
        simp [wrapI64]
      · have hdlt : d < 2 ^ 63 :=
          lt_of_le_of_lt (Nat.le_mul_of_pos_left d (Nat.pos_of_ne_zero h0)) hacc
        rw [asI64_eq_self hdlt, ← Nat.cast_mul]
        exact wrapI64_eq_self (by omega) (by omega)
    have hrest := ih (acc * d) hds hmul
    refine ⟨?_, ?_⟩
    · intro a ha
      rw [axesFrom, hstep] at ha
      rcases mem_cons.1 ha with rfl | ha
      · exact Int.natCast_nonneg acc
      · exact hrest.1 a ha
    · rw [axesFrom, hstep, extent_cons, hrest.2, prod_cons]
      push_cast
      ring

/-- A fresh row-major layout lies in a storage of its own size. -/
theorem inside_contiguous {shape : Shape} {dtype : Dtype} :
    shape.prod ≤ n → n < 2 ^ 63 → (contiguous shape dtype).Inside n := by
  intro hle hn
  by_cases h0 : 0 ∈ shape
  · refine Or.inl ?_
    change 0 ∈ (contiguous shape dtype).shape
    rw [shape_contiguous]
    exact h0
  · refine Or.inr ?_
    have hpos : ∀ d ∈ shape.reverse, 1 ≤ d := by
      intro d hd
      refine Nat.one_le_iff_ne_zero.2 ?_
      rintro rfl
      exact h0 (mem_reverse.1 hd)
    have hprod : shape.reverse.prod = shape.prod := (reverse_perm shape).prod_eq
    have hext := axesFrom_extent shape.reverse 1 hpos (by omega)
    have hrev : Contained n (axesFrom shape.reverse 1) 0 := by
      refine ⟨axesFrom_dim_pos hpos 1, ?_, ?_, ?_⟩
      · intro a ha _
        exact hext.1 a ha
      · have hlast := hext.2
        simp only [Nat.cast_one, one_mul] at hlast
        omega
      · rw [map_dim_axesFrom, hprod]
        exact hle
    exact hrev.perm (reverse_perm _)

/-! ## One axis narrowed or strided -/

theorem Contained.axis_room : Contained n (a :: axes) offset →
      0 ≤ extent axes ∧ (offset : Int) + ((a.dim : Int) - 1) * a.stride + extent axes < n := by
  intro h
  have hrest : 0 ≤ extent axes := by
    refine extent_nonneg ?_ ?_
    · intro b hb
      exact h.dim_pos b (mem_cons_of_mem a hb)
    · intro b hb
      exact h.stride_nonneg b (mem_cons_of_mem a hb)
  have hlast := h.last_lt
  rw [extent_cons] at hlast
  exact ⟨hrest, by omega⟩

theorem Contained.dim_le : Contained n (a :: axes) offset → a.dim ≤ n := by
  intro h
  have hpos : 0 < (axes.map Axis.dim).prod := by
    refine prod_pos ?_
    intro d hd
    rcases mem_map.1 hd with ⟨b, hb, rfl⟩
    exact h.dim_pos b (mem_cons_of_mem a hb)
  have hle := h.numel_le
  exact le_trans (Nat.le_mul_of_pos_right _ hpos) hle

theorem Contained.advanceOffset_eq : n < 2 ^ 63 → Contained n (a :: axes) offset → start < a.dim →
      (advanceOffset offset start a.stride : Int) = offset + start * a.stride ∧
        0 ≤ (start : Int) * a.stride ∧
        (start : Int) * a.stride ≤ ((a.dim : Int) - 1) * a.stride := by
  intro hn h hstart
  have hroom := h.axis_room
  have hdim := h.dim_le
  have hsize : u64Size = 2 ^ 64 := rfl
  by_cases h1 : a.dim = 1
  · have h0 : start = 0 := by
      omega
    subst h0
    have hwrap : wrapI64 (asI64 0 * a.stride) = 0 := by
      rw [asI64_eq_self (by decide)]
      simp [wrapI64]
    simp only [h1, advanceOffset, hwrap]
    simp only [h1] at hroom
    omega
  · have hs : 0 ≤ a.stride := h.stride_nonneg a mem_cons_self (by omega)
    have hle : (start : Int) * a.stride ≤ ((a.dim : Int) - 1) * a.stride :=
      mul_le_mul_of_nonneg_right (by omega) hs
    have hnn : 0 ≤ (start : Int) * a.stride := mul_nonneg (by omega) hs
    have hwrap : wrapI64 (asI64 start * a.stride) = start * a.stride := by
      rw [asI64_eq_self (by omega)]
      exact wrapI64_eq_self (by omega) (by omega)
    refine ⟨?_, hnn, hle⟩
    unfold advanceOffset
    rw [hwrap]
    omega

theorem Contained.replace_axis {stride : Int} :
    n < 2 ^ 63 → Contained n (a :: axes) offset → start < a.dim → 1 ≤ dim → dim ≤ a.dim →
      (2 ≤ dim → 0 ≤ stride) →
        (start : Int) * a.stride + ((dim : Int) - 1) * stride ≤ ((a.dim : Int) - 1) * a.stride →
          Contained n ({ dim := dim, stride := stride } :: axes)
            (advanceOffset offset start a.stride) := by
  intro hn h hstart hdim hle hstride hend
  have hadv := h.advanceOffset_eq hn hstart
  have hroom := h.axis_room
  refine ⟨?_, ?_, ?_, ?_⟩
  · intro b hb
    rcases mem_cons.1 hb with rfl | hb
    · exact hdim
    · exact h.dim_pos b (mem_cons_of_mem a hb)
  · intro b hb
    rcases mem_cons.1 hb with rfl | hb
    · exact hstride
    · exact h.stride_nonneg b (mem_cons_of_mem a hb)
  · rw [hadv.1, extent_cons]
    simp only
    omega
  · have hprod := h.numel_le
    exact le_trans (Nat.mul_le_mul_right _ hle) hprod

theorem Contained.narrow {length : Nat} :
    n < 2 ^ 63 → Contained n (a :: axes) offset → start + length ≤ a.dim → 1 ≤ length →
      Contained n ({ a with dim := length } :: axes)
        (advanceOffset offset start a.stride) := by
  intro hn h hend hlen
  refine h.replace_axis hn (by omega) hlen (by omega) ?_ ?_
  · intro h2
    exact h.stride_nonneg a mem_cons_self (by omega)
  · by_cases h1 : a.dim = 1
    · have h0 : start = 0 := by
        omega
      have hl1 : length = 1 := by
        omega
      simp [h0, hl1, h1]
    · have hs : 0 ≤ a.stride := h.stride_nonneg a mem_cons_self (by omega)
      calc
        (start : Int) * a.stride + ((length : Int) - 1) * a.stride
            = ((start : Int) + length - 1) * a.stride := by ring
        _ ≤ ((a.dim : Int) - 1) * a.stride := mul_le_mul_of_nonneg_right (by omega) hs

/-- When a stepped axis keeps two elements, the step is smaller than the axis and the new stride
does not wrap. -/
theorem Contained.slice_stride {step q : Nat} :
    n < 2 ^ 63 → Contained n (a :: axes) offset → 2 ≤ q + 1 → q * step < a.dim →
      wrapI64 (a.stride * asI64 step) = a.stride * step := by
  intro hn h hq hlt
  have hdim := h.dim_le
  have hroom := h.axis_room
  have hstep : step ≤ q * step := Nat.le_mul_of_pos_left step (by omega)
  by_cases h0 : step = 0
  · rw [h0, asI64_eq_self (by decide)]
    simp [wrapI64]
  · have hs : 0 ≤ a.stride := h.stride_nonneg a mem_cons_self (by omega)
    have hnn : 0 ≤ a.stride * (step : Int) := mul_nonneg hs (by omega)
    have hreach : a.stride * step ≤ ((a.dim : Int) - 1) * a.stride := by
      rw [mul_comm]
      exact mul_le_mul_of_nonneg_right (by omega) hs
    rw [asI64_eq_self (by omega)]
    exact wrapI64_eq_self (by omega) (by omega)

theorem Contained.slice {stop step : Nat} :
    n < 2 ^ 63 → Contained n (a :: axes) offset → start < stop → stop ≤ a.dim → 1 ≤ step →
      Contained n
        ({ dim := (stop - start - 1) / step + 1, stride := wrapI64 (a.stride * asI64 step) } :: axes)
        (advanceOffset offset start a.stride) := by
  intro hn h hspan hstop hstep
  have hquot : (stop - start - 1) / step * step ≤ stop - start - 1 := Nat.div_mul_le_self _ _
  have hquot' : (stop - start - 1) / step ≤ stop - start - 1 := Nat.div_le_self _ _
  generalize (stop - start - 1) / step = q at hquot hquot' ⊢
  by_cases hone : q = 0
  · have hadv := h.advanceOffset_eq hn (show start < a.dim by omega)
    refine h.replace_axis hn (by omega) (by omega) (by omega) (by omega) ?_
    simpa [hone] using hadv.2.2
  · have hs : 0 ≤ a.stride := h.stride_nonneg a mem_cons_self (by omega)
    have hnn : 0 ≤ a.stride * (step : Int) := mul_nonneg hs (by omega)
    rw [h.slice_stride hn (show 2 ≤ q + 1 by omega) (show q * step < a.dim by omega)]
    refine h.replace_axis hn (by omega) (by omega) (by omega) (fun _ => hnn) ?_
    calc
      (start : Int) * a.stride + (((q + 1 : Nat) : Int) - 1) * (a.stride * step)
          = ((start : Int) + q * step) * a.stride := by
            push_cast
            ring
      _ ≤ ((a.dim : Int) - 1) * a.stride := mul_le_mul_of_nonneg_right (by omega) hs

/-! ## The view operations keep the invariant -/

theorem Inside.perm : axes'.Perm axes → Inside n axes offset → Inside n axes' offset := by
  intro hperm h
  rcases h with h0 | h
  · exact Or.inl ((hperm.map Axis.dim).mem_iff.2 h0)
  · exact Or.inr (h.perm hperm)

theorem inside_cons_one : a.dim = 1 → (Inside n (a :: axes) offset ↔ Inside n axes offset) := by
  intro ha
  have hmem : (0 ∈ (a :: axes).map Axis.dim) ↔ 0 ∈ axes.map Axis.dim := by
    simp [ha]
  rw [Inside, Inside, hmem, contained_cons_one ha]

theorem validPermutation_spec {ndim : Nat} (perm : List Nat) :
    ∀ seen : List Bool, seen.length = ndim → validPermutation ndim perm seen = true →
      (∀ p ∈ perm, p < ndim ∧ seen[p]? ≠ some true) ∧ perm.Nodup := by
  induction perm with
  | nil =>
    intro seen _ _
    simp
  | cons p perm ih =>
    intro seen hlen hvalid
    unfold validPermutation at hvalid
    split at hvalid
    · cases hvalid
    · rename_i hp
      have hp' : p < ndim ∧ seen[p]? ≠ some true := by
        simpa using hp
      obtain ⟨hall, hnodup⟩ := ih (seen.set p true) (by simpa using hlen) hvalid
      have hself : (seen.set p true)[p]? = some true := by
        simp [hlen, hp'.1]
      refine ⟨?_, ?_⟩
      · intro q hq
        rcases mem_cons.1 hq with rfl | hq
        · exact hp'
        · have hne : p ≠ q := by
            rintro rfl
            exact (hall p hq).2 hself
          have hqs := (hall q hq).2
          rw [getElem?_set_ne hne] at hqs
          exact ⟨(hall q hq).1, hqs⟩
      · refine nodup_cons.2 ⟨?_, hnodup⟩
        intro hmem
        exact (hall p hmem).2 hself

theorem filterMap_getElem?_range {α : Type} (l : List α) :
    (range l.length).filterMap (fun p => l[p]?) = l := by
  induction l with
  | nil => rfl
  | cons a l ih =>
    rw [length_cons, range_succ_eq_map, filterMap_cons]
    simpa [filterMap_map, Function.comp_def] using ih

theorem permute_perm {perm : List Nat} : perm.length = axes.length →
      validPermutation axes.length perm (replicate axes.length false) = true →
        (perm.filterMap (fun p => axes[p]?)).Perm axes := by
  intro hlen hvalid
  obtain ⟨hall, hnodup⟩ := validPermutation_spec perm _ (by simp) hvalid
  have hsub : perm.Subperm (range axes.length) := by
    refine subperm_of_subset hnodup ?_
    intro p hp
    exact mem_range.2 (hall p hp).1
  have hperm : perm.Perm (range axes.length) :=
    hsub.perm_of_length_le (by simp [hlen])
  calc
    (perm.filterMap (fun p => axes[p]?)).Perm
        ((range axes.length).filterMap (fun p => axes[p]?)) := hperm.filterMap _
    _ = axes := filterMap_getElem?_range axes

theorem perm_cons_eraseIdx : axes[dim]? = some a → axes.Perm (a :: axes.eraseIdx dim) := by
  intro h
  rcases List.getElem?_eq_some_iff.1 h with ⟨hlt, rfl⟩
  exact (getElem_cons_eraseIdx_perm hlt).symm

theorem perm_set_cons_eraseIdx {b : Axis} :
    axes[dim]? = some a → (axes.set dim b).Perm (b :: axes.eraseIdx dim) := by
  intro h
  exact set_perm_cons_eraseIdx (List.getElem?_eq_some_iff.1 h).1 b

section Steps

variable {n : Nat} {l l' : Layout}

theorem Layout.Inside.view {s : Shape} :
    n < 2 ^ 63 → s.prod < u64Size → l.Inside n → l.view s = .ok l' → l'.Inside n := by
  intro hn hfits h hview
  unfold Layout.view at hview
  split at hview
  · cases hview
  · split at hview
    · cases hview
    · rename_i hnumel
      cases hview
      have hprod : s.prod = l.numel := by
        rw [← numel_of_fits hfits]
        exact not_not.1 hnumel
      rcases h with h0 | h
      · have hs0 : s.prod = 0 := by
          rw [hprod]
          exact numel_eq_zero_of_mem h0
        refine Or.inl ?_
        change 0 ∈ (contiguous s l.dtype).shape
        rw [shape_contiguous]
        exact prod_eq_zero_iff.1 hs0
      · refine inside_contiguous ?_ hn
        rw [hprod]
        exact le_trans (Nat.mod_le _ _) h.numel_le

theorem Layout.Inside.transpose {d0 d1 : Nat} :
    l.Inside n → l.transpose d0 d1 = .ok l' → l'.Inside n := by
  intro h hview
  unfold Layout.transpose at hview
  split at hview
  · split at hview
    · rename_i h0 h1
      cases hview
      exact h.perm (set_set_perm h0 h1)
    · cases hview
  · cases hview

theorem Layout.Inside.permute {perm : List Nat} :
    l.Inside n → l.permute perm = .ok l' → l'.Inside n := by
  intro h hview
  unfold Layout.permute at hview
  split at hview
  · cases hview
  · split at hview
    · cases hview
    · rename_i hlen hvalid
      cases hview
      exact h.perm (permute_perm (not_not.1 hlen) (by simpa [ndim] using hvalid))

variable {dim : Nat}

theorem Layout.Inside.unsqueeze : l.Inside n → l.unsqueeze dim = .ok l' → l'.Inside n := by
  intro h hview
  unfold Layout.unsqueeze at hview
  split at hview
  · cases hview
  · rename_i hdim
    cases hview
    refine Core.Inside.perm (perm_insertIdx _ _ (not_lt.1 hdim)) ?_
    exact (inside_cons_one rfl).2 h

theorem Layout.Inside.squeeze : l.Inside n → l.squeeze dim = .ok l' → l'.Inside n := by
  intro h hview
  unfold Layout.squeeze at hview
  split at hview
  · cases hview
  · rename_i a ha
    split at hview
    · cases hview
    · rename_i hone
      cases hview
      exact (inside_cons_one (not_not.1 hone)).1 (h.perm (perm_cons_eraseIdx ha).symm)

theorem Inside.set_axis {offset offset' : Nat} {axes : List Axis} {a b : Axis} :
    axes[dim]? = some a → (a.dim = 0 → b.dim = 0) →
      (Contained n (a :: axes.eraseIdx dim) offset → b.dim ≠ 0 →
        Contained n (b :: axes.eraseIdx dim) offset') →
        Inside n axes offset → Inside n (axes.set dim b) offset' := by
  intro ha hzero hstep h
  refine Core.Inside.perm (perm_set_cons_eraseIdx ha) ?_
  rcases Core.Inside.perm (perm_cons_eraseIdx ha).symm h with h0 | hc
  · refine Or.inl ?_
    rcases mem_cons.1 h0 with h0 | h0
    · exact mem_cons.2 (Or.inl (hzero h0.symm).symm)
    · exact mem_cons_of_mem _ h0
  · by_cases hb : b.dim = 0
    · exact Or.inl (mem_cons.2 (Or.inl hb.symm))
    · exact Or.inr (hstep hc hb)

theorem Layout.Inside.narrow {start length : Nat} :
    n < 2 ^ 63 → l.Inside n → l.narrow dim start length = .ok l' → l'.Inside n := by
  intro hn h hview
  unfold Layout.narrow at hview
  split at hview
  · cases hview
  · rename_i a ha
    split at hview
    · cases hview
    · rename_i hend
      cases hview
      refine Core.Inside.set_axis ha ?_ ?_ h
      · intro h0
        simp only
        omega
      · intro hc hlen
        exact hc.narrow hn (by omega) (Nat.one_le_iff_ne_zero.2 hlen)

theorem Layout.Inside.slice {start stop step : Nat} :
    n < 2 ^ 63 → l.Inside n → l.slice dim start stop step = .ok l' → l'.Inside n := by
  intro hn h hview
  unfold Layout.slice at hview
  split at hview
  · cases hview
  · rename_i a ha
    split at hview
    · cases hview
    · rename_i hend
      cases hview
      refine Core.Inside.set_axis ha ?_ ?_ h
      · intro h0
        have hspan : stop - start = 0 := by
          omega
        simp [hspan]
      · intro hc hdim
        by_cases hspan : stop - start = 0
        · simp [hspan] at hdim
        · simp only [hspan, if_false]
          exact hc.slice hn (by omega) (by omega) (by omega)

theorem Layout.Inside.runView {op : ViewOp} :
    n < 2 ^ 63 → op.Fits → l.Inside n → l.runView op = .ok l' → l'.Inside n := by
  intro hn hfits h hview
  cases op with
  | view s =>
    exact h.view hn hfits hview
  | reshape s =>
    have hview' : l.reshape s = .ok l' := hview
    unfold reshape at hview'
    split at hview'
    · exact h.view hn hfits hview'
    · cases hview'
  | transpose d0 d1 =>
    exact h.transpose hview
  | permute perm =>
    exact h.permute hview
  | unsqueeze dim =>
    exact h.unsqueeze hview
  | squeeze dim =>
    exact h.squeeze hview
  | narrow dim start length =>
    exact h.narrow hn hview
  | slice dim start stop step =>
    exact h.slice hn hview

end Steps

/-! ## Reachable tensors -/

section Reachable

variable {α : Type}

theorem Dtype.byteSize_pos (d : Dtype) : 1 ≤ d.byteSize := by
  cases d <;> decide

variable {t : Tensor α}

theorem reachable_inside :
    Reachable t → t.storage.length < 2 ^ 63 ∧ t.layout.Inside t.storage.length := by
  intro h
  induction h with
  | @fromVecTyped T shape data t hfits hlen hmk =>
    unfold fromVecTyped at hmk
    split at hmk
    · cases hmk
    · rename_i hnumel
      cases hmk
      have hlt : data.length < 2 ^ 63 :=
        lt_of_le_of_lt (Nat.le_mul_of_pos_right _ T.byteSize_pos) hlen
      refine ⟨hlt, inside_contiguous ?_ hlt⟩
      rw [← numel_of_fits hfits]
      exact (not_not.1 hnumel).ge
  | @zerosDtype zero shape dtype t hfits hmk =>
    simp only [zerosDtype] at hmk
    split at hmk
    · rename_i hbytes
      cases hmk
      have hpos := dtype.byteSize_pos
      have hprod : shape.prod < u64Size :=
        lt_of_le_of_lt (Nat.le_mul_of_pos_right _ hpos) hfits
      rw [numel_of_fits hprod, Nat.mod_eq_of_lt hfits] at hbytes
      have hcount : shape.prod * dtype.byteSize / dtype.byteSize = shape.prod :=
        Nat.mul_div_cancel _ hpos
      have hlt : shape.prod < 2 ^ 63 :=
        lt_of_le_of_lt (Nat.le_mul_of_pos_right _ hpos) hbytes
      simp only [length_replicate, numel_of_fits hprod, Nat.mod_eq_of_lt hfits, hcount]
      exact ⟨hlt, inside_contiguous (le_refl _) hlt⟩
    · cases hmk
  | @view t t' op _ hfits hop ih =>
    obtain ⟨l', hrun, rfl⟩ := Tensor.runView_eq_ok hop
    exact ⟨ih.1, ih.2.runView ih.1 hfits hrun⟩

/-- Every logical element of the tensor lies in its storage. -/
def Tensor.Readable (t : Tensor α) : Prop :=
  ∀ coords, InBounds t.shape coords →
    address t.layout.axes t.layout.storageOffset coords < t.storage.length

theorem reachable_readable : Reachable t → t.Readable := by
  intro h coords hb
  obtain ⟨hlen, hin⟩ := reachable_inside h
  rcases hin with h0 | hc
  · exact absurd h0 (not_mem_of_inBounds hb)
  · exact (hc.address_lt hlen coords hb).2

end Reachable

end Core
end Rustorch
