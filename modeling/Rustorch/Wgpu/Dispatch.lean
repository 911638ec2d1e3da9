import Rustorch.Lib.Rows

/-!
# The dispatch grid of the elementwise kernels

`elementwise.rs` rounds the number of elements up to workgroups of 64 and splits the workgroups over
two axes of at most 65535.  The kernels compute the flat index of an invocation again, in `u32`
arithmetic.  Every element is computed once up to `65535 * 1024 * 64` elements; above that, the
surplus workgroups wrap around onto the first elements (`dispatch_covers_iff`).
-/

namespace Rustorch
namespace Wgpu
namespace Dispatch

open Rows

/-! ## The host and the kernel -/

def workgroupSize : UInt32 := 64

def maxDim : UInt32 := 65535

/-- `u32::div_ceil` -/
def divCeil (n d : UInt32) : UInt32 :=
  if n % d > 0 then n / d + 1 else n / d

def splitDispatch (nGroups : UInt32) : UInt32 × UInt32 :=
  if nGroups ≤ maxDim then
    (max nGroups 1, 1)
  else
    (maxDim, divCeil nGroups maxDim)

/-- The grid that `dispatch_binary` asks for. -/
def dispatchGrid (numel : Nat) : UInt32 × UInt32 :=
  splitDispatch (max (divCeil (UInt32.ofNat numel) workgroupSize) 1)

/-- The part of the builtins that the kernels read. -/
structure Invocation where
  wgidX : UInt32
  wgidY : UInt32
  lidX : UInt32
  deriving DecidableEq, Repr

/-- `let idx = (wgid.y * nwg.x + wgid.x) * 64u + lid.x;` -/
def Invocation.idx (nwgX : UInt32) (v : Invocation) : UInt32 :=
  (v.wgidY * nwgX + v.wgidX) * workgroupSize + v.lidX

/-- The invocations of a grid. -/
structure Invocation.Runs (grid : UInt32 × UInt32) (v : Invocation) : Prop where
  wgidX : v.wgidX < grid.1
  wgidY : v.wgidY < grid.2
  lidX : v.lidX < workgroupSize

/-- The grid is within the limits, and every element is the index of one invocation. -/
def CoversOnce (numel : Nat) : Prop :=
  (dispatchGrid numel).1 ≤ maxDim ∧ (dispatchGrid numel).2 ≤ maxDim ∧
    ∀ i : UInt32, i.toNat < numel →
      ∃! v : Invocation, v.Runs (dispatchGrid numel) ∧ v.idx (dispatchGrid numel).1 = i

/-! ## The size of the grid -/

theorem toNat_divCeil {n d : UInt32} (hd : 0 < d.toNat) :
    (divCeil n d).toNat = (n.toNat + (d.toNat - 1)) / d.toNat := by
  have hdiv := Nat.div_add_mod n.toNat d.toNat
  have hmod := Nat.mod_lt n.toNat hd
  have hn := n.toNat_lt
  rw [divCeil]
  split_ifs with h
  · have hpos : 0 < n.toNat % d.toNat := by
      simpa [UInt32.lt_iff_toNat_lt] using h
    have hone : 1 < d.toNat := lt_of_le_of_lt hpos hmod
    have hlt : n.toNat / d.toNat < n.toNat := Nat.div_lt_self (by omega) hone
    have hsum : n.toNat + (d.toNat - 1) =
        (n.toNat % d.toNat - 1) + d.toNat * (n.toNat / d.toNat + 1) := by
      rw [Nat.mul_add]
      omega
    have hup : (n.toNat + (d.toNat - 1)) / d.toNat = n.toNat / d.toNat + 1 := by
      rw [hsum, Nat.add_mul_div_left _ _ hd, Nat.div_eq_of_lt (by omega), Nat.zero_add]
    rw [hup, UInt32.toNat_add, UInt32.toNat_div, UInt32.toNat_one, Nat.mod_eq_of_lt (by omega)]
  · have hzero : n.toNat % d.toNat = 0 := by
      simpa [UInt32.lt_iff_toNat_lt] using h
    have hsum : n.toNat + (d.toNat - 1) = (d.toNat - 1) + d.toNat * (n.toNat / d.toNat) := by
      omega
    have hsmall : (d.toNat - 1) / d.toNat = 0 := Nat.div_eq_of_lt (by omega)
    rw [UInt32.toNat_div, hsum, Nat.add_mul_div_left _ _ hd, hsmall, Nat.zero_add]

theorem max_one {n : UInt32} (hn : 1 ≤ n.toNat) : max n 1 = n := by
  change (if n ≤ 1 then 1 else n) = n
  split_ifs with h
  · rw [UInt32.le_iff_toNat_le] at h
    exact UInt32.toNat_inj.1 (le_antisymm hn h)
  · rfl

/-- The workgroups that the elements need. -/
def groupCount (numel : Nat) : Nat :=
  (numel + 63) / 64

theorem dispatchGrid_eq {numel : Nat} (hpos : 0 < numel) (hlt : numel < 2 ^ 32) :
    ((dispatchGrid numel).1.toNat, (dispatchGrid numel).2.toNat) =
      if groupCount numel ≤ 65535 then (groupCount numel, 1)
      else (65535, (groupCount numel + 65534) / 65535) := by
  have hgroups : (divCeil (UInt32.ofNat numel) workgroupSize).toNat = groupCount numel := by
    rw [toNat_divCeil (by decide), UInt32.toNat_ofNat_of_lt' hlt]
    rfl
  have hone : 1 ≤ groupCount numel := by
    unfold groupCount
    omega
  have hle : divCeil (UInt32.ofNat numel) workgroupSize ≤ maxDim ↔ groupCount numel ≤ 65535 := by
    rw [UInt32.le_iff_toNat_le, hgroups]
    rfl
  rw [dispatchGrid, max_one (by rwa [hgroups]), splitDispatch]
  by_cases h : groupCount numel ≤ 65535
  · rw [if_pos (hle.2 h), if_pos h, max_one (by rwa [hgroups]), hgroups]
    rfl
  · rw [if_neg (mt hle.1 h), if_neg h, toNat_divCeil (by decide), hgroups]
    rfl

/-! ## The flat index -/

variable {numel : Nat} {grid : UInt32 × UInt32} {v : Invocation}

/-- The index without wrapping. -/
def Invocation.exactIdx (nwgX : UInt32) (v : Invocation) : Nat :=
  (v.wgidY.toNat * nwgX.toNat + v.wgidX.toNat) * 64 + v.lidX.toNat

theorem toNat_idx (nwgX : UInt32) (v : Invocation) :
    (v.idx nwgX).toNat = v.exactIdx nwgX % 2 ^ 32 := by
  rw [Invocation.idx, Invocation.exactIdx, UInt32.toNat_add, UInt32.toNat_mul, UInt32.toNat_add,
    UInt32.toNat_mul]
  change ((v.wgidY.toNat * nwgX.toNat % 2 ^ 32 + v.wgidX.toNat) % 2 ^ 32 * 64 % 2 ^ 32 +
    v.lidX.toNat) % 2 ^ 32 = _
  omega

theorem exactIdx_lt (h : v.Runs grid) :
    v.exactIdx grid.1 < grid.2.toNat * grid.1.toNat * 64 :=
  cell_lt (cell_lt (UInt32.lt_iff_toNat_lt.1 h.wgidY) (UInt32.lt_iff_toNat_lt.1 h.wgidX))
    (UInt32.lt_iff_toNat_lt.1 h.lidX)

theorem exactIdx_inj {w : Invocation} (hv : v.Runs grid) (hw : w.Runs grid) :
    v.exactIdx grid.1 = w.exactIdx grid.1 → v = w := by
  intro h
  obtain ⟨hcell, hlid⟩ := cell_inj (UInt32.lt_iff_toNat_lt.1 hv.lidX)
    (UInt32.lt_iff_toNat_lt.1 hw.lidX) h
  obtain ⟨hy, hx⟩ := cell_inj (UInt32.lt_iff_toNat_lt.1 hv.wgidX)
    (UInt32.lt_iff_toNat_lt.1 hw.wgidX) hcell
  cases v
  cases w
  simp only [Invocation.mk.injEq]
  exact ⟨UInt32.toNat_inj.1 hx, UInt32.toNat_inj.1 hy, UInt32.toNat_inj.1 hlid⟩

theorem exists_exactIdx {n : Nat} :
    n < grid.2.toNat * grid.1.toNat * 64 → ∃ v : Invocation, v.Runs grid ∧ v.exactIdx grid.1 = n := by
  intro hn
  have hcell : n / 64 < grid.2.toNat * grid.1.toNat := Nat.div_lt_of_lt_mul (by rwa [Nat.mul_comm])
  have hx0 : 0 < grid.1.toNat := Nat.pos_of_ne_zero (by rintro h; simp [h] at hcell)
  have hy : n / 64 / grid.1.toNat < grid.2.toNat :=
    Nat.div_lt_of_lt_mul (by rwa [Nat.mul_comm] at hcell)
  have hx : n / 64 % grid.1.toNat < grid.1.toNat := Nat.mod_lt _ hx0
  have hl : n % 64 < 64 := Nat.mod_lt _ (by decide)
  have hgx := grid.1.toNat_lt
  have hgy := grid.2.toNat_lt
  have htoX : (UInt32.ofNat (n / 64 % grid.1.toNat)).toNat = n / 64 % grid.1.toNat :=
    UInt32.toNat_ofNat_of_lt' (lt_trans hx hgx)
  have htoY : (UInt32.ofNat (n / 64 / grid.1.toNat)).toNat = n / 64 / grid.1.toNat :=
    UInt32.toNat_ofNat_of_lt' (lt_trans hy hgy)
  have htoL : (UInt32.ofNat (n % 64)).toNat = n % 64 :=
    UInt32.toNat_ofNat_of_lt' (lt_trans hl (by decide))
  refine ⟨⟨UInt32.ofNat (n / 64 % grid.1.toNat), UInt32.ofNat (n / 64 / grid.1.toNat),
    UInt32.ofNat (n % 64)⟩, ⟨?_, ?_, ?_⟩, ?_⟩
  · rwa [UInt32.lt_iff_toNat_lt, htoX]
  · rwa [UInt32.lt_iff_toNat_lt, htoY]
  · rw [UInt32.lt_iff_toNat_lt, htoL]
    exact hl
  · rw [Invocation.exactIdx]
    simp only [htoX, htoY, htoL]
    rw [Nat.div_add_mod', Nat.div_add_mod']

/-- A grid that reaches every element without wrapping covers each once. -/
theorem covers_of_size (hnumel : numel ≤ grid.2.toNat * grid.1.toNat * 64)
    (hsize : grid.2.toNat * grid.1.toNat * 64 ≤ 2 ^ 32) :
    ∀ i : UInt32, i.toNat < numel → ∃! v : Invocation, v.Runs grid ∧ v.idx grid.1 = i := by
  intro i hi
  have hexact : ∀ {v : Invocation}, v.Runs grid → (v.idx grid.1).toNat = v.exactIdx grid.1 := by
    intro v hv
    rw [toNat_idx, Nat.mod_eq_of_lt (lt_of_lt_of_le (exactIdx_lt hv) hsize)]
  obtain ⟨v, hv, hidx⟩ := exists_exactIdx (lt_of_lt_of_le hi hnumel)
  refine ⟨v, ⟨hv, UInt32.toNat_inj.1 ((hexact hv).trans hidx)⟩, ?_⟩
  rintro w ⟨hw, rfl⟩
  exact exactIdx_inj hw hv ((hexact hw).symm.trans hidx.symm)

/-- A larger grid computes the first element twice. -/
theorem not_covers_of_size (hsize : 2 ^ 32 < grid.2.toNat * grid.1.toNat * 64) :
    ¬ ∃! v : Invocation, v.Runs grid ∧ v.idx grid.1 = 0 := by
  rintro ⟨v, _, hunique⟩
  obtain ⟨first, hfirst, hzero⟩ := exists_exactIdx (pos_of_gt hsize)
  obtain ⟨second, hsecond, hwrap⟩ := exists_exactIdx hsize
  have h₁ := hunique first ⟨hfirst, UInt32.toNat_inj.1 (by rw [toNat_idx, hzero]; rfl)⟩
  have h₂ := hunique second ⟨hsecond, UInt32.toNat_inj.1 (by rw [toNat_idx, hwrap]; rfl)⟩
  rw [h₁.trans h₂.symm, hwrap] at hzero
  exact absurd hzero (by decide)

/-! ## Coverage -/

/-- Every element is computed exactly once up to `65535 * 1024 * 64` elements, and from there on
the first element is computed twice. -/
theorem dispatch_covers_iff (numel : Nat) (hpos : 1 ≤ numel) (hlt : numel < 2 ^ 32) :
    CoversOnce numel ↔ numel ≤ 65535 * 1024 * 64 := by
  have hgrid := dispatchGrid_eq hpos hlt
  have hcount : groupCount numel * 64 < numel + 64 ∧ numel ≤ groupCount numel * 64 := by
    unfold groupCount
    omega
  have hbounds : (dispatchGrid numel).1 ≤ maxDim ∧ (dispatchGrid numel).2 ≤ maxDim := by
    rw [UInt32.le_iff_toNat_le, UInt32.le_iff_toNat_le]
    change _ ≤ 65535 ∧ _ ≤ 65535
    split_ifs at hgrid with h
    · simp only [Prod.mk.injEq] at hgrid
      omega
    · simp only [Prod.mk.injEq] at hgrid
      omega
  have hsize : numel ≤ (dispatchGrid numel).2.toNat * (dispatchGrid numel).1.toNat * 64 ∧
      ((dispatchGrid numel).2.toNat * (dispatchGrid numel).1.toNat * 64 ≤ 2 ^ 32 ↔
        numel ≤ 65535 * 1024 * 64) := by
    split_ifs at hgrid with h
    · simp only [Prod.mk.injEq] at hgrid
      rw [hgrid.1, hgrid.2]
      omega
    · simp only [Prod.mk.injEq] at hgrid
      rw [hgrid.1, hgrid.2]
      omega
  constructor
  · rintro ⟨_, _, hcovers⟩
    by_contra hlarge
    exact not_covers_of_size (by omega) (hcovers 0 hpos)
  · intro hle
    exact ⟨hbounds.1, hbounds.2, covers_of_size hsize.1 (hsize.2.2 hle)⟩

/-- Five rows of workgroups. -/
theorem dispatch_covers_rows : CoversOnce (2 ^ 24) :=
  (dispatch_covers_iff (2 ^ 24) (by decide) (by decide)).2 (by decide)

/-- The last group that is needed starts a row, and the rest of the row wraps around. -/
theorem dispatch_wraps :
    1 ≤ 65535 * 1024 * 64 + 1 ∧ 65535 * 1024 * 64 + 1 < 2 ^ 32 ∧
      ¬ CoversOnce (65535 * 1024 * 64 + 1) := by
  refine ⟨by decide, by decide, ?_⟩
  rintro ⟨_, _, hcovers⟩
  refine not_covers_of_size ?_ (hcovers 0 (by decide))
  decide

end Dispatch
end Wgpu
end Rustorch
