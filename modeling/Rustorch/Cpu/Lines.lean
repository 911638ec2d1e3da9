import Rustorch.Cpu.AxisScan
import Rustorch.Lib.Filling

/-!
# Lines along one axis

The multi-indices of the shape with one axis set to 1 number the lines along that axis.  A loop over
the lines, and over the cells of each, meets every cell once (`fill_line`), and a sum over one line
is a sum over the cells that the line's number names (`sum_line`).
-/

namespace Rustorch
namespace Cpu

open Rustorch.Core List MixedRadix Filling

section Lists

theorem set_eq_self_of_getD {I : List Nat} {d c : Nat} (hd : d < I.length) (h : I.getD d 0 = c) :
    I.set d c = I := by
  rw [← h, getD_eq_getElem _ _ hd, set_getElem_self]

/-- Moving one coordinate moves a dot product by its weight. -/
theorem dot_set {I ws : List Nat} {d : Nat} (k : Nat) (hd : d < I.length)
    (hlen : I.length = ws.length) :
    dot (I.set d k) ws = dot (I.set d 0) ws + k * ws.getD d 0 := by
  induction I generalizing d ws with
  | nil => cases hd
  | cons c I ih =>
    cases ws with
    | nil => cases hlen
    | cons w ws =>
      cases d with
      | zero =>
        simp only [set_cons_zero, dot_cons, getD_cons_zero, Nat.zero_mul]
        omega
      | succ d =>
        have hrest := @ih ws d (Nat.lt_of_succ_lt_succ hd) (Nat.succ.inj hlen)
        simp only [set_cons_succ, dot_cons, getD_cons_succ, hrest]
        omega

end Lists

section Lines

variable {S : Shape} {d : Nat}

/-! ## Numbers of lines -/

/-- The number of the line that a cell lies on. -/
def lineOf (S : Shape) (d l : Nat) : Nat :=
  linearOf (S.set d 1) ((coordsOf S l).set d 0)

/-- The cell `k` of a line. -/
def cellOn (S : Shape) (d m k : Nat) : Nat :=
  linearOf S ((coordsOf (S.set d 1) m).set d k)

/-- The place of a cell on its line. -/
def placeOf (S : Shape) (d l : Nat) : Nat :=
  (coordsOf S l).getD d 0

theorem zero_not_mem_set (h0 : 0 ∉ S) : 0 ∉ S.set d 1 := by
  intro h
  rcases mem_or_eq_of_mem_set h with h | h
  · exact h0 h
  · cases h

theorem prod_set_mul (h0 : 0 ∉ S) (hd : d < S.length) :
    (S.set d 1).prod * S.getD d 0 = S.prod := by
  induction S generalizing d with
  | nil => cases hd
  | cons n S ih =>
    cases d with
    | zero => simp [Nat.mul_comm]
    | succ d =>
      have hrest := @ih d (fun h => h0 (mem_cons_of_mem n h)) (Nat.lt_of_succ_lt_succ hd)
      rw [set_cons_succ, prod_cons, prod_cons, getD_cons_succ, Nat.mul_assoc, hrest]

theorem axis_size_pos (h0 : 0 ∉ S) (hd : d < S.length) : 0 < S.getD d 0 := by
  rw [getD_eq_getElem _ _ hd]
  exact Nat.pos_of_ne_zero fun hz => h0 (hz ▸ getElem_mem hd)

theorem prod_set_le (h0 : 0 ∉ S) (hd : d < S.length) : (S.set d 1).prod ≤ S.prod := by
  rw [← prod_set_mul h0 hd]
  exact Nat.le_mul_of_pos_right _ (axis_size_pos h0 hd)

theorem inBounds_set_zero {I : List Nat} (hI : InBounds S I) : InBounds (S.set d 1) (I.set d 0) := by
  induction hI generalizing d with
  | nil => exact .nil
  | cons hc htail ih =>
    cases d with
    | zero => exact .cons Nat.one_pos htail
    | succ d => exact .cons hc ih

variable {J : List Nat} {k m : Nat} {M : Type}

theorem inBounds_of_line (hJ : InBounds (S.set d 1) J) (hk : k < S.getD d 0) :
    InBounds S (J.set d k) := by
  induction S generalizing d J with
  | nil =>
    cases hJ
    exact .nil
  | cons n S ih =>
    cases d with
    | zero =>
      rcases hJ with _ | ⟨_, htail⟩
      exact .cons hk htail
    | succ d =>
      rcases hJ with _ | ⟨hc, htail⟩
      exact .cons hc (ih htail hk)

theorem getD_of_line (hJ : InBounds (S.set d 1) J) : J.getD d 0 = 0 := by
  induction S generalizing d J with
  | nil =>
    cases hJ
    rfl
  | cons n S ih =>
    cases d with
    | zero =>
      rcases hJ with _ | ⟨hc, _⟩
      exact Nat.lt_one_iff.1 hc
    | succ d =>
      rcases hJ with _ | ⟨_, htail⟩
      exact @ih d _ htail

section

variable (h0 : 0 ∉ S)

include h0

theorem coords_line (m : Nat) :
    InBounds (S.set d 1) (coordsOf (S.set d 1) m) :=
  inBounds_coordsOf (zero_not_mem_set h0)

theorem length_coords_line (m : Nat) :
    (coordsOf (S.set d 1) m).length = S.length := by
  have hlen := (@coords_line S d h0 m).length_eq
  rw [length_set] at hlen
  exact hlen.symm

theorem lineOf_lt (l : Nat) : lineOf S d l < (S.set d 1).prod :=
  linearOf_lt (inBounds_set_zero (inBounds_coordsOf h0))

theorem placeOf_lt (hd : d < S.length) (l : Nat) : placeOf S d l < S.getD d 0 := by
  have hI := @inBounds_coordsOf S l h0
  have hdI : d < (coordsOf S l).length := hI.length_eq ▸ hd
  rw [placeOf, getD_eq_getElem _ _ hd, getD_eq_getElem _ _ hdI]
  exact (forall₂_iff_get.1 hI).2 d hd hdI

theorem cellOn_lt (hk : k < S.getD d 0) : cellOn S d m k < S.prod :=
  linearOf_lt (inBounds_of_line (coords_line h0 m) hk)

theorem coords_cellOn (hk : k < S.getD d 0) :
    coordsOf S (cellOn S d m k) = (coordsOf (S.set d 1) m).set d k :=
  coordsOf_linearOf (inBounds_of_line (coords_line h0 m) hk)

variable (hd : d < S.length)

include hd

theorem lineOf_cellOn (hm : m < (S.set d 1).prod) (hk : k < S.getD d 0) :
    lineOf S d (cellOn S d m k) = m := by
  have hJ := @coords_line S d h0 m
  have hdJ : d < (coordsOf (S.set d 1) m).length := (length_coords_line h0 m).symm ▸ hd
  rw [lineOf, coords_cellOn h0 hk, set_set, set_eq_self_of_getD hdJ (getD_of_line hJ),
    linearOf_coordsOf hm]

theorem placeOf_cellOn (hk : k < S.getD d 0) :
    placeOf S d (cellOn S d m k) = k := by
  have hdJ : d < (coordsOf (S.set d 1) m).length := (length_coords_line h0 m).symm ▸ hd
  rw [placeOf, coords_cellOn h0 hk, getD_eq_getElem _ _ (by simpa using hdJ), getElem_set_self]

theorem cellOn_lineOf {l : Nat} (hl : l < S.prod) :
    cellOn S d (lineOf S d l) (placeOf S d l) = l := by
  have hI := @inBounds_coordsOf S l h0
  have hdI : d < (coordsOf S l).length := hI.length_eq ▸ hd
  rw [cellOn, lineOf, coordsOf_linearOf (inBounds_set_zero hI), set_set, placeOf,
    set_eq_self_of_getD hdI rfl, linearOf_coordsOf hl]

/-- A sum over the cells of one line. -/
theorem sum_line [AddCommMonoid M] (hm : m < (S.set d 1).prod) (g : Nat → M) :
    ∑ l ∈ (Finset.range S.prod).filter (fun l => lineOf S d l = m), g l =
      ∑ k ∈ Finset.range (S.getD d 0), g (cellOn S d m k) := by
  refine Finset.sum_nbij' (fun l => placeOf S d l) (fun k => cellOn S d m k) ?_ ?_ ?_ ?_ ?_
  · intro l _
    exact Finset.mem_range.2 (placeOf_lt h0 hd l)
  · intro k hk
    have hk := Finset.mem_range.1 hk
    exact Finset.mem_filter.2 ⟨Finset.mem_range.2 (cellOn_lt h0 hk), lineOf_cellOn h0 hd hm hk⟩
  · intro l hl
    obtain ⟨hlt, hline⟩ := Finset.mem_filter.1 hl
    rw [← hline, cellOn_lineOf h0 hd (Finset.mem_range.1 hlt)]
  · intro k hk
    exact placeOf_cellOn h0 hd (Finset.mem_range.1 hk)
  · intro l hl
    obtain ⟨hlt, hline⟩ := Finset.mem_filter.1 hl
    rw [← hline, cellOn_lineOf h0 hd (Finset.mem_range.1 hlt)]

theorem sum_lines [AddCommMonoid M] (g : Nat → M) :
    ∑ l ∈ Finset.range S.prod, g l =
      ∑ m ∈ Finset.range (S.set d 1).prod, ∑ k ∈ Finset.range (S.getD d 0), g (cellOn S d m k) := by
  have hmaps : ∀ l ∈ Finset.range S.prod, lineOf S d l ∈ Finset.range (S.set d 1).prod :=
    fun l _ => Finset.mem_range.2 (lineOf_lt h0 l)
  rw [← Finset.sum_fiberwise_of_maps_to hmaps]
  exact Finset.sum_congr rfl fun m hm => sum_line h0 hd (Finset.mem_range.1 hm) g

/-! ## Loops over lines -/

theorem lineStart_eq (m : Nat) :
    lineStart S (S.set d 1) d m = some
      (flatIndex ((coordsOf (S.set d 1) m).set d 0) (contiguousStrides S),
        (contiguousStrides S).getD d 0) := by
  have hlen : (contiguousStrides S).length = S.length := by
    rw [contiguousStrides, length_reverse, usizeStridesFrom_eq, length_map,
      length_weights, length_reverse]
  have hd' : d < (contiguousStrides S).length := hlen ▸ hd
  rw [lineStart, decodeChecked_eq, if_neg (zero_not_mem_set h0), getElem?_eq_getElem hd',
    getD_eq_getElem _ _ hd']
  rfl

/-- The address that the loops compute. -/
theorem lineCell_eq (hfit : S.prod < u64Size) (hk : k < S.getD d 0) :
    lineCell (flatIndex ((coordsOf (S.set d 1) m).set d 0) (contiguousStrides S),
      (contiguousStrides S).getD d 0) k = cellOn S d m k := by
  have hJlen := @length_coords_line S d h0 m
  have hd' : d < (coordsOf (S.set d 1) m).length := hJlen.symm ▸ hd
  have hzero : InBounds S ((coordsOf (S.set d 1) m).set d 0) :=
    inBounds_of_line (coords_line h0 m) (Nat.zero_lt_of_lt hk)
  have hslen : (coordsOf (S.set d 1) m).length = (contiguousStrides S).length := by
    rw [hJlen, contiguousStrides, length_reverse, usizeStridesFrom_eq, length_map,
      length_weights, length_reverse]
  have hmove := dot_set k hd' hslen
  rw [dot_usizeStrides S (by rw [length_set, hJlen]),
    dot_usizeStrides S (by rw [length_set, hJlen])] at hmove
  rw [lineCell, flatIndex_eq hzero hfit, ← hmove]
  exact Nat.mod_eq_of_lt ((cellOn_lt h0 hk).trans hfit)

end

variable {α : Type} {v : Nat → α}

variable {out : List α}

/-- The loop over one line. -/
theorem fill_line {body : List α → Nat → Option (List α)} (h0 : 0 ∉ S) (hd : d < S.length)
    (hout : Filling.Filled v S.prod (fun l => lineOf S d l < m) out)
    (hbody : ∀ k < S.getD d 0, ∀ out,
      body out k = LoopNest.put out (cellOn S d m k) (v (cellOn S d m k))) :
    ∃ out', (range (S.getD d 0)).foldlM body out = some out' ∧
      Filling.Filled v S.prod (fun l => lineOf S d l < m + 1) out' := by
  -- the lines before this one are filled, and the cells of this one up to the counter
  let P : Nat → List α → Prop := fun k out => Filling.Filled v S.prod
    (fun l => lineOf S d l < m ∨ (lineOf S d l = m ∧ placeOf S d l < k)) out
  have hstart : P 0 out := hout.mono fun l _ hl => hl.resolve_right fun h => Nat.not_lt_zero _ h.2
  have hstep : ∀ k < S.getD d 0, ∀ out, P k out → ∃ out', body out k = some out' ∧ P (k + 1) out' := by
    intro k hk out hk'
    obtain ⟨out', hput, hfilled⟩ := hk'.put (cellOn_lt h0 hk) rfl
    refine ⟨out', (hbody k hk out).trans hput, hfilled.mono ?_⟩
    rintro l hl (hlt | ⟨hline, hplace⟩)
    · exact Or.inl (Or.inl hlt)
    · rcases Nat.lt_succ_iff_lt_or_eq.1 hplace with hlt | heq
      · exact Or.inl (Or.inr ⟨hline, hlt⟩)
      · right
        rw [← hline, ← heq, cellOn_lineOf h0 hd hl]
  obtain ⟨out', hrun, hfilled⟩ := foldlM_range P hstart hstep
  refine ⟨out', hrun, hfilled.mono ?_⟩
  intro l _ hl
  rcases Nat.lt_succ_iff_lt_or_eq.1 hl with hlt | heq
  · exact Or.inl hlt
  · exact Or.inr ⟨heq, placeOf_lt h0 hd l⟩

theorem fill_lines {block : List α → Nat → Option (List α)} (h0 : 0 ∉ S)
    (hlen : out.length = S.prod)
    (hblock : ∀ m < (S.set d 1).prod, ∀ out,
      Filling.Filled v S.prod (fun l => lineOf S d l < m) out → ∃ out', block out m = some out' ∧
        Filling.Filled v S.prod (fun l => lineOf S d l < m + 1) out') :
    (range (S.set d 1).prod).foldlM block out = some ((range S.prod).map v) := by
  obtain ⟨out', hrun, hfilled⟩ := foldlM_range
    (fun m out => Filling.Filled v S.prod (fun l => lineOf S d l < m) out)
    ⟨hlen, fun _ _ h => absurd h (Nat.not_lt_zero _)⟩ hblock
  rw [hrun, (hfilled.mono fun l _ _ => lineOf_lt h0 l).eq_map]

end Lines

end Cpu
end Rustorch
