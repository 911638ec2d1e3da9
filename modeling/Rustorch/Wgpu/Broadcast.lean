import Mathlib.Algebra.BigOperators.ModEq
import Rustorch.Cpu.Reduction

/-!
# The broadcast plan of the GPU

`broadcast_shape` plans a broadcast for at most 8 axes: the output shape and, for each operand, its
row-major strides with 0 for missing and size-1 axes.  The plan goes to the kernel as 28 `u32`
slots, and the kernel finds the coordinates of an output index by remainders and divisions.  The
plan succeeds exactly where the core's broadcast does, and the kernel reads the cells that the
core's expanded strides name (`broadcastPlan_refines`).
-/

namespace Rustorch
namespace Wgpu

open Rustorch.Core List MixedRadix

/-! ## The plan -/

def maxBroadcastDims : Nat := 8

inductive WgpuError
  | shapeMismatch (message : String)
  deriving DecidableEq, Repr

/-- `repeat(1).take(n - shape.len()).chain(shape)`. -/
def padOnes (n : Nat) (shape : Shape) : List Nat :=
  replicate (n - shape.length) 1 ++ shape

/-- The `match` on two aligned sizes. -/
def joinDim (a b : Nat) : Option Nat :=
  if a = 1 then
    some b
  else if b = 1 then
    some a
  else if a = b then
    some a
  else
    none

/-- The loop over the padded shapes, from axis `i` on. -/
def outDims : List Nat → List Nat → Nat → Except WgpuError (List Nat)
  | a :: as, b :: bs, i =>
    match joinDim a b with
    | some x => (outDims as bs (i + 1)).map (fun out => x :: out)
    | none =>
      .error (.shapeMismatch s!"broadcast: incompatible dims at axis {i}: {a} vs {b}")
  | _, _, _ => .ok []

/-- The `usize` strides of reversed dimensions, starting from `acc` for the innermost axis. -/
def origStridesFrom : List Nat → Nat → List Nat
  | [], _ => []
  | d :: ds, acc => acc :: origStridesFrom ds (acc * d % u64Size)

def makeStrides (orig : Shape) (padded : List Nat) : List Nat :=
  replicate (padded.length - orig.length) 0 ++
    zipWith (fun d s => if d = 1 then 0 else s) orig (origStridesFrom orig.reverse 1).reverse

structure BroadcastPlan where
  outShape : Shape
  lhsStrides : List Nat
  rhsStrides : List Nat
  deriving DecidableEq, Repr

def broadcastShape (lhsShape rhsShape : Shape) : Except WgpuError BroadcastPlan :=
  let n := max lhsShape.length rhsShape.length
  if maxBroadcastDims < n then
    .error (.shapeMismatch
      s!"broadcast: result rank {n} exceeds MAX_BROADCAST_DIMS {maxBroadcastDims}")
  else
    let lPad := padOnes n lhsShape
    let rPad := padOnes n rhsShape
    (outDims lPad rPad 0).map fun outShape =>
      { outShape := outShape
        lhsStrides := makeStrides lhsShape lPad
        rhsStrides := makeStrides rhsShape rPad }

/-! ## The kernel -/

/-- The loop that packs one list of sizes from slot `base` on. -/
def packFrom (base : Nat) (sizes : List Nat) (params : List UInt32) : List UInt32 :=
  (sizes.zipIdx.take maxBroadcastDims).foldl
    (fun params si => params.set (base + si.2) (UInt32.ofNat si.1)) params

/-- The 28 slots of the uniform buffer. -/
def packParams (plan : BroadcastPlan) : List UInt32 :=
  let params := replicate 28 0
  let params := packFrom 0 plan.outShape params
  let params := packFrom 8 plan.lhsStrides params
  let params := packFrom 16 plan.rhsStrides params
  let params := params.set 24 (UInt32.ofNat plan.outShape.length)
  params.set 25 (UInt32.ofNat (numel plan.outShape))

/-- `dim` of the shader: component `k` of the vector `j`. -/
def dim (params : List UInt32) (arrBase i : UInt32) : UInt32 :=
  let v := arrBase + i
  let j := v / 4
  let k := v % 4
  params.getD (j.toNat * 4 + k.toNat) 0

/-- The loop over the axes from the last to the first. -/
def decodeLoop (params : List UInt32) : Nat → UInt32 → List UInt32 → List UInt32
  | 0, _, coordAcc => coordAcc
  | i + 1, rem, coordAcc =>
    let s := dim params 0 (UInt32.ofNat i)
    decodeLoop params i (rem / s) (coordAcc.set i (rem % s))

/-- The loop that adds up both offsets. -/
def offsetLoop (params : List UInt32) (ndim : Nat) (coordAcc : List UInt32) : UInt32 × UInt32 :=
  (range ndim).foldl (fun off j =>
    (off.1 + coordAcc.getD j 0 * dim params 8 (UInt32.ofNat j),
      off.2 + coordAcc.getD j 0 * dim params 16 (UInt32.ofNat j))) (0, 0)

/-- The two loops. -/
def decodeOffsets (params : List UInt32) (idx : UInt32) : UInt32 × UInt32 :=
  let ndim := params.getD 24 0
  offsetLoop params ndim.toNat (decodeLoop params ndim.toNat idx (replicate 8 0))

/-- The two offsets that one invocation reads at; an invocation past the end reads nothing. -/
def kernelOffsets (params : List UInt32) (idx : UInt32) : Option (UInt32 × UInt32) :=
  let total := params.getD 25 0
  if total ≤ idx then
    none
  else
    some (decodeOffsets params idx)

/-! ## The shapes agree -/

theorem joinDim_eq (a b : Nat) : joinDim a b = broadcastDim a b := by
  unfold joinDim broadcastDim
  split_ifs
  all_goals first | rfl | omega | (congr 1; omega)

theorem outDims_eq_ok (as : List Nat) :
    ∀ (bs : List Nat) (i : Nat) (out : List Nat), as.length = bs.length →
      (outDims as bs i = .ok out ↔
        Forall₂ (fun ab d => broadcastDim ab.1 ab.2 = some d) (as.zip bs) out) := by
  induction as with
  | nil =>
    intro bs i out _
    cases out with
    | nil => simp [outDims]
    | cons d out => simp [outDims]
  | cons a as ih =>
    intro bs i out hlen
    cases bs with
    | nil => cases hlen
    | cons b bs =>
      have hrest := fun out => ih bs (i + 1) out (Nat.succ.inj hlen)
      rw [outDims, zip_cons_cons, joinDim_eq]
      cases hd : broadcastDim a b with
      | none =>
        cases out with
        | nil => simp
        | cons x out => simp [hd]
      | some x =>
        cases out with
        | nil => cases hcall : outDims as bs (i + 1) <;> simp [Except.map]
        | cons y out =>
          rw [forall₂_cons, hd, ← hrest]
          cases hcall : outDims as bs (i + 1) <;> simp [Except.map]

/-- A reversed shape with the missing sizes. -/
theorem broadcastRev_eq_ok (n : Nat) :
    ∀ (ls rs : List Nat) (i : Nat) (out : List Nat), ls.length ≤ n → rs.length ≤ n →
      (broadcastRev n ls rs i = .ok out ↔
        Forall₂ (fun ab d => broadcastDim ab.1 ab.2 = some d)
          ((ls ++ replicate (n - ls.length) 1).zip
            (rs ++ replicate (n - rs.length) 1)) out) := by
  have hsplit : ∀ (ls : List Nat) (n : Nat), ls.length ≤ n + 1 →
      ls ++ replicate (n + 1 - ls.length) 1 =
        ls.headD 1 :: (ls.tail ++ replicate (n - ls.tail.length) 1) := by
    intro ls n hls
    cases ls with
    | nil => rfl
    | cons l ls =>
      simp only [length_cons, headD_cons, tail_cons, cons_append]
      rw [Nat.add_sub_add_right]
  induction n with
  | zero =>
    intro ls rs i out hls hrs
    cases length_eq_zero_iff.1 (Nat.le_zero.1 hls)
    cases length_eq_zero_iff.1 (Nat.le_zero.1 hrs)
    cases out with
    | nil => simp [broadcastRev]
    | cons d out => simp [broadcastRev]
  | succ n ih =>
    intro ls rs i out hls hrs
    have hrest := fun out => ih ls.tail rs.tail (i + 1) out (by rw [length_tail]; omega)
      (by rw [length_tail]; omega)
    rw [broadcastRev, hsplit ls n hls, hsplit rs n hrs, zip_cons_cons]
    cases hd : broadcastDim (ls.headD 1) (rs.headD 1) with
    | none =>
      cases out with
      | nil => simp
      | cons x out =>
        rw [forall₂_cons, hd]
        simp
    | some x =>
      cases out with
      | nil => cases hcall : broadcastRev n ls.tail rs.tail (i + 1) <;> simp [Except.map]
      | cons y out =>
        rw [forall₂_cons, hd, ← hrest]
        cases hcall : broadcastRev n ls.tail rs.tail (i + 1) <;> simp [Except.map]

theorem outDims_iff (a b S : Shape) :
    outDims (padOnes (max a.length b.length) a) (padOnes (max a.length b.length) b) 0 = .ok S ↔
      broadcastWith a b = .ok S := by
  let n := max a.length b.length
  have hla : a.length ≤ n := le_max_left _ _
  have hlb : b.length ≤ n := le_max_right _ _
  have hpad : ∀ c : Shape, c.length ≤ n → (padOnes n c).length = n := by
    intro c hc
    rw [padOnes, length_append, length_replicate]
    omega
  have hrev : ∀ c : Shape, (padOnes n c).reverse =
      c.reverse ++ replicate (n - c.reverse.length) 1 := by
    intro c
    rw [padOnes, reverse_append, reverse_replicate, length_reverse]
  have hzip : (((padOnes n a).zip (padOnes n b))).reverse =
      (padOnes n a).reverse.zip (padOnes n b).reverse :=
    reverse_zipWith ((hpad a hla).trans (hpad b hlb).symm)
  have hcore : ∀ out, broadcastRev n a.reverse b.reverse 0 = .ok out ↔
      outDims (padOnes n a) (padOnes n b) 0 = .ok out.reverse := by
    intro out
    rw [broadcastRev_eq_ok n _ _ 0 out (by simpa using hla) (by simpa using hlb),
      outDims_eq_ok _ _ _ _ ((hpad a hla).trans (hpad b hlb).symm), ← hrev, ← hrev, ← hzip,
      ← forall₂_reverse_iff, reverse_reverse]
  change outDims (padOnes n a) (padOnes n b) 0 = .ok S ↔ _
  unfold broadcastWith
  cases hcall : broadcastRev (max a.length b.length) a.reverse b.reverse 0 with
  | ok out =>
    rw [(hcore out).1 hcall]
    simp
  | error i =>
    have hnone : outDims (padOnes n a) (padOnes n b) 0 ≠ .ok S := by
      intro hok
      rw [← reverse_reverse S, ← hcore, hcall] at hok
      cases hok
    simp [hnone]

theorem length_padOnes {n : Nat} {c : Shape} (h : c.length ≤ n) : (padOnes n c).length = n := by
  rw [padOnes, length_append, length_replicate]
  omega

variable {a b S : Shape} {params : List UInt32} {plan : BroadcastPlan} {base idx : UInt32}

theorem length_outShape (hS : broadcastWith a b = .ok S) : S.length = max a.length b.length := by
  have hpad := fun c h => @length_padOnes (max a.length b.length) c h
  have hall := (outDims_eq_ok _ _ 0 S ((hpad a (le_max_left _ _)).trans
    (hpad b (le_max_right _ _)).symm)).1 ((outDims_iff a b S).2 hS)
  rw [← hall.length_eq, length_zip, hpad a (le_max_left _ _), hpad b (le_max_right _ _), min_self]

theorem outShape_lt {m : Nat} (hm : 1 < m) (ha : ∀ d ∈ a, d < m) (hb : ∀ d ∈ b, d < m)
    (hS : broadcastWith a b = .ok S) : ∀ d ∈ S, d < m := by
  have hpad : ∀ (n : Nat) (c : Shape), (∀ d ∈ c, d < m) → ∀ d ∈ padOnes n c, d < m := by
    intro n c hc d hd
    rcases mem_append.1 hd with hd | hd
    · rw [(mem_replicate.1 hd).2]
      exact hm
    · exact hc d hd
  have hlen : (padOnes (max a.length b.length) a).length =
      (padOnes (max a.length b.length) b).length := by
    rw [length_padOnes (le_max_left _ _), length_padOnes (le_max_right _ _)]
  have hall := (outDims_eq_ok _ _ 0 S hlen).1 ((outDims_iff a b S).2 hS)
  have hsize : ∀ {zs : List (Nat × Nat)} {out : List Nat},
      Forall₂ (fun ab d => broadcastDim ab.1 ab.2 = some d) zs out →
        (∀ ab ∈ zs, ab.1 < m ∧ ab.2 < m) → ∀ d ∈ out, d < m := by
    intro zs out h
    induction h with
    | nil => simp
    | @cons ab x zs out hx _ ih =>
      intro hzs d hd
      rcases mem_cons.1 hd with rfl | hd
      · have hab := hzs ab mem_cons_self
        unfold broadcastDim at hx
        split_ifs at hx
        all_goals
          cases hx
          omega
      · exact ih (fun ab hab => hzs ab (mem_cons_of_mem _ hab)) d hd
  refine hsize hall ?_
  rintro ⟨x, y⟩ hxy
  obtain ⟨hx, hy⟩ := of_mem_zip hxy
  exact ⟨hpad _ a ha x hx, hpad _ b hb y hy⟩

/-! ## Strides -/

theorem origStridesFrom_eq (ds : List Nat) :
    ∀ acc : Nat, origStridesFrom ds (acc % u64Size) =
      (Cpu.usizeStridesFrom ds acc).map (· % u64Size) := by
  induction ds with
  | nil =>
    intro acc
    rfl
  | cons d ds ih =>
    intro acc
    rw [origStridesFrom, Cpu.usizeStridesFrom, map_cons, Nat.mod_mul_mod, ih]

theorem dot_zeros (n : Nat) (cs : List Nat) : dot cs (replicate n 0) = 0 := by
  induction n generalizing cs with
  | zero => simp [dot]
  | succ n ih =>
    cases cs with
    | nil => simp
    | cons c cs => simp [replicate_succ, ih]

/-- A stride of 0 on the axes of size 1 reads them at coordinate 0. -/
theorem dot_zeroed (srcs : List Nat) :
    ∀ cs ss : List Nat,
      dot cs (zipWith (fun d s => if d = 1 then 0 else s) srcs ss) =
        dot (restrictAxes srcs cs) ss := by
  induction srcs with
  | nil =>
    intro cs ss
    cases cs <;> simp [restrictAxes, dot]
  | cons d srcs ih =>
    intro cs ss
    cases cs with
    | nil => simp [restrictAxes]
    | cons c cs =>
      cases ss with
      | nil => simp [dot]
      | cons s ss =>
        have hrest := ih cs ss
        rw [restrictAxes] at hrest
        rw [zipWith_cons_cons, dot_cons, restrictAxes, zipWith_cons_cons, dot_cons, hrest]
        split_ifs
        · rw [Nat.mul_zero, Nat.zero_mul]
        · rfl

/-- Wrapped strides displace an index as exact ones do, in `u32` arithmetic. -/
theorem dot_wrapped (cs : List Nat) :
    ∀ ss : List Nat,
      dot cs (ss.map (· % u64Size)) ≡ dot cs ss [MOD 2 ^ 32] := by
  induction cs with
  | nil =>
    intro ss
    simp [Nat.ModEq.refl]
  | cons c cs ih =>
    intro ss
    cases ss with
    | nil => exact Nat.ModEq.refl _
    | cons s ss =>
      have hhead : s % u64Size ≡ s [MOD 2 ^ 32] :=
        (Nat.mod_modEq s u64Size).of_dvd (by decide)
      exact (hhead.mul_left c).add (ih ss)

theorem dot_makeStrides {padded coords : List Nat} (h : Stretches a S)
    (hpad : padded.length = S.length) (hcoords : coords.length = S.length) :
    dot coords (makeStrides a padded) ≡ linearOf a (restrict a S coords)
      [MOD 2 ^ 32] := by
  have hle := h.1
  have hstrides : (origStridesFrom a.reverse 1).reverse =
      (Cpu.contiguousStrides a).map (· % u64Size) := by
    have hone := origStridesFrom_eq a.reverse 1
    rw [Nat.mod_eq_of_lt (by decide)] at hone
    rw [hone, Cpu.contiguousStrides, map_reverse]
  have hlen : (restrict a S coords).length = a.length := by
    rw [restrict, restrictAxes, length_zipWith, length_drop]
    omega
  have hsplit := dot_append (coords.take (S.length - a.length))
    (replicate (S.length - a.length) 0) (coords.drop (S.length - a.length))
    (zipWith (fun d s => if d = 1 then 0 else s) a (origStridesFrom a.reverse 1).reverse)
    (by simp; omega)
  rw [take_append_drop, dot_zeros, Nat.zero_add, dot_zeroed] at hsplit
  rw [makeStrides, hpad, hsplit, hstrides]
  refine (dot_wrapped _ _).trans ?_
  rw [← Cpu.dot_usizeStrides a hlen]
  rfl

theorem length_makeStrides {padded : List Nat} (h : a.length ≤ padded.length) :
    (makeStrides a padded).length = padded.length := by
  have hstrides : ∀ (ds : List Nat) (acc : Nat), (origStridesFrom ds acc).length = ds.length := by
    intro ds
    induction ds with
    | nil => exact fun _ => rfl
    | cons d ds ih => exact fun acc => congrArg (· + 1) (ih _)
  simp only [makeStrides, length_append, length_replicate, length_zipWith, length_reverse, hstrides]
  omega

/-! ## The packed slots -/

theorem foldl_set_getD (base : Nat) (sizes : List Nat) (k : Nat) :
    ∀ (s : Nat) (params : List UInt32), base + s + sizes.length ≤ params.length →
      ((sizes.zipIdx s).foldl (fun params si => params.set (base + si.2) (UInt32.ofNat si.1))
        params).getD k 0 =
        if base + s ≤ k ∧ k < base + s + sizes.length then
          UInt32.ofNat (sizes.getD (k - (base + s)) 0)
        else
          params.getD k 0 := by
  induction sizes with
  | nil =>
    intro s params _
    rw [zipIdx_nil, foldl_nil, if_neg (by simp)]
  | cons d sizes ih =>
    intro s params hlen
    rw [length_cons] at hlen
    rw [zipIdx_cons, foldl_cons, ih (s + 1) _ (by rw [length_set]; omega)]
    simp only [length_cons]
    by_cases hk : k = base + s
    · subst hk
      rw [if_neg (by omega), if_pos (by omega), Nat.sub_self, getD_cons_zero,
        getD_eq_getElem _ _ (by rw [length_set]; omega), getElem_set_self]
    · by_cases hin : base + (s + 1) ≤ k ∧ k < base + (s + 1) + sizes.length
      · rw [if_pos hin, if_pos (by omega),
          show k - (base + s) = (k - (base + (s + 1))) + 1 by omega, getD_cons_succ]
      · rw [if_neg hin, if_neg (by omega), getD_eq_getElem?_getD, getElem?_set_ne
          (Ne.symm hk), getD_eq_getElem?_getD]

theorem length_packFrom (base : Nat) (sizes : List Nat) (params : List UInt32) :
    (packFrom base sizes params).length = params.length := by
  unfold packFrom
  induction sizes.zipIdx.take maxBroadcastDims generalizing params with
  | nil => rfl
  | cons si sizes ih => rw [foldl_cons, ih, length_set]

theorem packFrom_getD {base : Nat} {sizes : List Nat} (k : Nat) (hsizes : sizes.length ≤ 8)
    (hlen : base + 8 ≤ params.length) : (packFrom base sizes params).getD k 0 =
      if base ≤ k ∧ k < base + sizes.length then UInt32.ofNat (sizes.getD (k - base) 0)
      else params.getD k 0 := by
  have hall : sizes.zipIdx.take maxBroadcastDims = sizes.zipIdx :=
    take_of_length_le (by simpa [maxBroadcastDims] using hsizes)
  rw [packFrom, hall]
  exact foldl_set_getD base sizes k 0 params (by omega)

/-- The slots that the shader reads. -/
structure Packed (plan : BroadcastPlan) (params : List UInt32) : Prop where
  shape : ∀ j < plan.outShape.length, params.getD j 0 = UInt32.ofNat (plan.outShape.getD j 0)
  lhs : ∀ j < plan.outShape.length, params.getD (8 + j) 0 = UInt32.ofNat (plan.lhsStrides.getD j 0)
  rhs : ∀ j < plan.outShape.length, params.getD (16 + j) 0 = UInt32.ofNat (plan.rhsStrides.getD j 0)
  ndim : params.getD 24 0 = UInt32.ofNat plan.outShape.length
  total : params.getD 25 0 = UInt32.ofNat (numel plan.outShape)

theorem getD_set {k i : Nat} {v : UInt32} (hi : i < params.length) :
    (params.set i v).getD k 0 = if k = i then v else params.getD k 0 := by
  by_cases hk : k = i
  · subst hk
    rw [if_pos rfl, getD_eq_getElem _ _ (by rwa [length_set]), getElem_set_self]
  · rw [if_neg hk, getD_eq_getElem?_getD, getElem?_set_ne (Ne.symm hk), getD_eq_getElem?_getD]

theorem packParams_packed (hS : plan.outShape.length ≤ 8)
    (hl : plan.lhsStrides.length = plan.outShape.length)
    (hr : plan.rhsStrides.length = plan.outShape.length) : Packed plan (packParams plan) := by
  have hlen0 : (replicate 28 (0 : UInt32)).length = 28 := length_replicate
  have hlen1 := (length_packFrom 0 plan.outShape (replicate 28 0)).trans hlen0
  have hlen2 := (length_packFrom 8 plan.lhsStrides _).trans hlen1
  have hlen3 := (length_packFrom 16 plan.rhsStrides _).trans hlen2
  have hread : ∀ k, (packParams plan).getD k 0 =
      if k = 25 then UInt32.ofNat (numel plan.outShape)
      else if k = 24 then UInt32.ofNat plan.outShape.length
      else if 16 ≤ k ∧ k < 16 + plan.outShape.length then
        UInt32.ofNat (plan.rhsStrides.getD (k - 16) 0)
      else if 8 ≤ k ∧ k < 8 + plan.outShape.length then
        UInt32.ofNat (plan.lhsStrides.getD (k - 8) 0)
      else if 0 ≤ k ∧ k < 0 + plan.outShape.length then
        UInt32.ofNat (plan.outShape.getD (k - 0) 0)
      else (replicate 28 (0 : UInt32)).getD k 0 := by
    intro k
    simp only [packParams]
    rw [getD_set (by rw [length_set, hlen3]; decide), getD_set (by rw [hlen3]; decide),
      packFrom_getD k (hr.le.trans hS) (by rw [hlen2]; decide), packFrom_getD k (hl.le.trans hS)
        (by rw [hlen1]; decide), packFrom_getD k hS (by rw [hlen0]; decide), hl, hr]
  refine ⟨?_, ?_, ?_, ?_, ?_⟩
  · intro j hj
    rw [hread, if_neg (by omega), if_neg (by omega), if_neg (by omega), if_neg (by omega),
      if_pos (by omega), Nat.sub_zero]
  · intro j hj
    rw [hread, if_neg (by omega), if_neg (by omega), if_neg (by omega), if_pos (by omega),
      Nat.add_sub_cancel_left]
  · intro j hj
    rw [hread, if_neg (by omega), if_neg (by omega), if_pos (by omega), Nat.add_sub_cancel_left]
  · rw [hread, if_neg (by decide), if_pos rfl]
  · rw [hread, if_pos rfl]

/-! ## The loops of the kernel -/

theorem dim_eq {j : Nat} (hbase : base.toNat ≤ 16) (hj : j < 8) :
    dim params base (UInt32.ofNat j) = params.getD (base.toNat + j) 0 := by
  have hsum : (base + UInt32.ofNat j).toNat = base.toNat + j := by
    rw [UInt32.toNat_add, UInt32.toNat_ofNat']
    omega
  rw [dim, UInt32.toNat_div, UInt32.toNat_mod, hsum]
  congr 1
  change (base.toNat + j) / 4 * 4 + (base.toNat + j) % 4 = base.toNat + j
  omega

theorem coordsOf_concat (L : Shape) (D i : Nat) :
    coordsOf (L ++ [D]) i = coordsOf L (i / D) ++ [i % D] := by
  simp [coordsOf, digits]

/-- Remainders and divisions give the coordinates, from the last axis to the first. -/
theorem decodeLoop_eq (S : Shape) :
    ∀ (rem : UInt32) (acc : List UInt32), S.length ≤ 8 → acc.length = 8 → (∀ d ∈ S, d < 2 ^ 32) →
      (∀ j < S.length, params.getD j 0 = UInt32.ofNat (S.getD j 0)) →
        decodeLoop params S.length rem acc =
          (coordsOf S rem.toNat).map UInt32.ofNat ++ acc.drop S.length := by
  induction S using reverseRecOn with
  | nil =>
    intro rem acc _ _ _ _
    rfl
  | append_singleton L D ih =>
    intro rem acc hrank hacc hsizes hparams
    rw [length_append, length_singleton] at hrank hparams
    have hD : D < 2 ^ 32 := hsizes D (by simp)
    have hdim : dim params 0 (UInt32.ofNat L.length) = UInt32.ofNat D := by
      rw [dim_eq (by decide) (by omega)]
      have hslot := hparams L.length (by omega)
      rw [getD_append_right _ _ _ _ le_rfl, Nat.sub_self, getD_cons_zero] at hslot
      rw [← hslot]
      congr 1
      exact Nat.zero_add _
    have hrest : ∀ j < L.length, params.getD j 0 = UInt32.ofNat (L.getD j 0) := by
      intro j hj
      rw [hparams j (by omega), getD_append _ _ _ _ hj]
    have hdiv : (rem / UInt32.ofNat D).toNat = rem.toNat / D := by
      rw [UInt32.toNat_div, UInt32.toNat_ofNat', Nat.mod_eq_of_lt hD]
    have hmod : rem % UInt32.ofNat D = UInt32.ofNat (rem.toNat % D) := by
      rw [← UInt32.toNat_inj, UInt32.toNat_mod, UInt32.toNat_ofNat', Nat.mod_eq_of_lt hD,
        UInt32.toNat_ofNat']
      exact (Nat.mod_eq_of_lt ((Nat.mod_le _ _).trans_lt rem.toNat_lt)).symm
    rw [length_append, length_singleton, decodeLoop, hdim,
      ih _ _ (by omega) (by rw [length_set, hacc]) (fun d hd => hsizes d (by simp [hd]))
        hrest, hdiv, hmod, coordsOf_concat, map_append, map_singleton, append_assoc]
    rw [drop_eq_getElem_cons (by rw [length_set]; omega), getElem_set_self,
      drop_set_of_lt (by omega)]
    rfl

theorem offsetLoop_eq (params coords : List UInt32) (n : Nat) :
    (offsetLoop params n coords).1.toNat = (∑ j ∈ Finset.range n,
        (coords.getD j 0).toNat * (dim params 8 (UInt32.ofNat j)).toNat) % 2 ^ 32 ∧
      (offsetLoop params n coords).2.toNat = (∑ j ∈ Finset.range n,
        (coords.getD j 0).toNat * (dim params 16 (UInt32.ofNat j)).toNat) % 2 ^ 32 := by
  induction n with
  | zero => exact ⟨rfl, rfl⟩
  | succ n ih =>
    obtain ⟨hl, hr⟩ := ih
    have hstep : offsetLoop params (n + 1) coords =
        ((offsetLoop params n coords).1 + coords.getD n 0 * dim params 8 (UInt32.ofNat n),
          (offsetLoop params n coords).2 + coords.getD n 0 * dim params 16 (UInt32.ofNat n)) := by
      rw [offsetLoop, range_succ, foldl_append]
      rfl
    rw [hstep, UInt32.toNat_add, UInt32.toNat_mul, hl, UInt32.toNat_add, UInt32.toNat_mul, hr,
      Finset.sum_range_succ, Finset.sum_range_succ]
    constructor
    · exact (Nat.add_mod _ _ _).symm
    · exact (Nat.add_mod _ _ _).symm

theorem sum_eq_dot (cs : List Nat) :
    ∀ ss : List Nat, ss.length = cs.length →
      ∑ j ∈ Finset.range cs.length, cs.getD j 0 * ss.getD j 0 = dot cs ss := by
  induction cs with
  | nil =>
    intro ss _
    simp
  | cons c cs ih =>
    intro ss hlen
    cases ss with
    | nil => cases hlen
    | cons s ss =>
      rw [length_cons, Finset.sum_range_succ', dot_cons, ← ih ss (Nat.succ.inj hlen), Nat.add_comm]
      rfl

theorem offset_eq {strides : List Nat} {sum : Nat} (hrank : S.length ≤ 8) (hbase : base.toNat ≤ 16)
    (ha : a.prod < 2 ^ 32) (hstretch : Stretches a S) (hidx : idx.toNat < S.prod)
    (hstrides : strides = makeStrides a (padOnes S.length a))
    (hparams : ∀ j < S.length, params.getD (base.toNat + j) 0 = UInt32.ofNat (strides.getD j 0))
    (hsum : sum = (∑ j ∈ Finset.range S.length,
      (((coordsOf S idx.toNat).map UInt32.ofNat ++ (replicate 8 0).drop S.length).getD j
        0).toNat * (dim params base (UInt32.ofNat j)).toNat) % 2 ^ 32) :
    sum = linearOf a (restrict a S (coordsOf S idx.toNat)) := by
  have h0 := not_mem_of_lt_prod hidx
  have hbound : InBounds S (coordsOf S idx.toNat) := inBounds_coordsOf h0
  have hclen : (coordsOf S idx.toNat).length = S.length := hbound.length_eq.symm
  have hpad := length_padOnes hstretch.1
  have hslen : strides.length = S.length := by
    rw [hstrides, length_makeStrides (hstretch.1.trans hpad.ge), hpad]
  have hterm : ∀ j ∈ Finset.range S.length,
      (((coordsOf S idx.toNat).map UInt32.ofNat ++ (replicate 8 0).drop S.length).getD j
        0).toNat * (dim params base (UInt32.ofNat j)).toNat ≡
      (coordsOf S idx.toNat).getD j 0 * strides.getD j 0 [MOD 2 ^ 32] := by
    intro j hj
    have hj := Finset.mem_range.1 hj
    have hjc : j < (coordsOf S idx.toNat).length := hclen.symm ▸ hj
    rw [dim_eq hbase (by omega), hparams j hj, UInt32.toNat_ofNat',
      getD_append _ _ _ _ (by simpa using hjc), getD_eq_getElem _ _ (by simpa using hjc),
      getElem_map, UInt32.toNat_ofNat', getD_eq_getElem _ _ hjc]
    exact (Nat.mod_modEq _ _).mul (Nat.mod_modEq _ _)
  have hmod : sum ≡ linearOf a (restrict a S (coordsOf S idx.toNat)) [MOD 2 ^ 32] := by
    calc
      sum ≡ ∑ j ∈ Finset.range S.length,
          (((coordsOf S idx.toNat).map UInt32.ofNat ++ (replicate 8 0).drop S.length).getD j
            0).toNat * (dim params base (UInt32.ofNat j)).toNat [MOD 2 ^ 32] :=
          hsum ▸ Nat.mod_modEq _ _
      _ ≡ ∑ j ∈ Finset.range S.length, (coordsOf S idx.toNat).getD j 0 * strides.getD j 0
          [MOD 2 ^ 32] := Nat.ModEq.sum hterm
      _ = dot (coordsOf S idx.toNat) strides := by
          rw [← hclen, sum_eq_dot _ _ (hslen.trans hclen.symm)]
      _ ≡ linearOf a (restrict a S (coordsOf S idx.toNat)) [MOD 2 ^ 32] :=
          hstrides ▸ dot_makeStrides hstretch hpad hclen
  have hlt := linearOf_lt (inBounds_restrict hstretch hbound)
  have hsmall : sum < 2 ^ 32 := hsum ▸ Nat.mod_lt _ (by decide)
  exact Nat.ModEq.eq_of_lt_of_lt hmod hsmall (hlt.trans ha)

/-! ## The plan refines the core's broadcast -/

theorem broadcastShape_eq_ok : broadcastShape a b = .ok plan ↔
      max a.length b.length ≤ 8 ∧ broadcastWith a b = .ok plan.outShape ∧
        plan.lhsStrides = makeStrides a (padOnes (max a.length b.length) a) ∧
        plan.rhsStrides = makeStrides b (padOnes (max a.length b.length) b) := by
  rw [broadcastShape, ← outDims_iff]
  dsimp only
  by_cases hrank : maxBroadcastDims < max a.length b.length
  · rw [if_pos hrank]
    constructor
    · intro h
      cases h
    · rintro ⟨hle, _⟩
      exact absurd hle (not_le.2 hrank)
  · rw [if_neg hrank]
    constructor
    · intro h
      cases hdims : outDims (padOnes (max a.length b.length) a)
          (padOnes (max a.length b.length) b) 0 with
      | error e =>
        rw [hdims] at h
        cases h
      | ok S =>
        rw [hdims] at h
        cases h
        exact ⟨not_lt.1 hrank, rfl, rfl, rfl⟩
    · rintro ⟨_, hdims, hl, hr⟩
      rw [hdims, ← hl, ← hr]
      rfl

theorem broadcastShape_packed (hplan : broadcastShape a b = .ok plan) :
    Packed plan (packParams plan) := by
  obtain ⟨hrank, hS, hl, hr⟩ := broadcastShape_eq_ok.1 hplan
  obtain ⟨hsa, hsb⟩ := broadcastWith_stretches hS
  rw [← length_outShape hS] at hrank hl hr
  have hpad : ∀ {c : Shape}, Stretches c plan.outShape →
      (makeStrides c (padOnes plan.outShape.length c)).length = plan.outShape.length := by
    intro c hc
    have hpadlen := length_padOnes hc.1
    rw [length_makeStrides (hc.1.trans hpadlen.ge), hpadlen]
  exact packParams_packed hrank (hl ▸ hpad hsa) (hr ▸ hpad hsb)

/-- The kernel runs the second loop over the coordinates of its index. -/
theorem Packed.decodeOffsets_eq (h : Packed plan params) (hrank : plan.outShape.length ≤ 8)
    (hsizes : ∀ d ∈ plan.outShape, d < 2 ^ 32) (idx : UInt32) :
    decodeOffsets params idx = offsetLoop params plan.outShape.length
      ((coordsOf plan.outShape idx.toNat).map UInt32.ofNat ++
        (replicate 8 0).drop plan.outShape.length) := by
  have hndim : (params.getD 24 0).toNat = plan.outShape.length := by
    rw [h.ndim, UInt32.toNat_ofNat']
    omega
  have hcoords := decodeLoop_eq plan.outShape idx (replicate 8 0) hrank
    length_replicate hsizes h.shape
  rw [decodeOffsets, hndim, hcoords]

/-- No invocation below the product of the sizes is turned away. -/
theorem Packed.kernelOffsets_eq (h : Packed plan params) (hfits : plan.outShape.prod < 2 ^ 32)
    (hidx : idx.toNat < plan.outShape.prod) :
    kernelOffsets params idx = some (decodeOffsets params idx) := by
  have htotal : (params.getD 25 0).toNat = plan.outShape.prod := by
    rw [h.total, UInt32.toNat_ofNat', numel_of_fits (hfits.trans (by decide)),
      Nat.mod_eq_of_lt hfits]
  have hinside : ¬ params.getD 25 0 ≤ idx := by
    rw [UInt32.le_iff_toNat_le, htotal]
    exact not_le.2 hidx
  rw [kernelOffsets]
  simp only [if_neg hinside]

theorem linearToOffset_restrict {i : Nat} {strides : List Int} (ha : a.prod < 2 ^ 32)
    (hstretch : Stretches a S) (hi : i < S.prod) (hstrides : expandStridesTo a S = .ok strides) :
    linearOf a (restrict a S (coordsOf S i)) = linearToOffset i S strides 0 ∧
      linearOf a (restrict a S (coordsOf S i)) < a.prod := by
  have h0 := not_mem_of_lt_prod hi
  have hlt := linearOf_lt (inBounds_restrict hstretch (inBounds_coordsOf (i := i) h0))
  refine ⟨?_, hlt⟩
  rw [linearToOffset_expand hstretch hstrides h0, Nat.zero_add]
  exact (Nat.mod_eq_of_lt (hlt.trans (ha.trans (by decide)))).symm

theorem broadcastPlan_refines {a b : Shape} (hrank : max a.length b.length ≤ 8)
    (hda : ∀ d ∈ a, d < 2 ^ 32) (hdb : ∀ d ∈ b, d < 2 ^ 32) (hna : a.prod < 2 ^ 32)
    (hnb : b.prod < 2 ^ 32) :
    (∀ S, (∃ plan, broadcastShape a b = .ok plan ∧ plan.outShape = S) ↔
        broadcastWith a b = .ok S) ∧
      ∀ plan, broadcastShape a b = .ok plan → ∃ ls rs,
        expandStridesTo a plan.outShape = .ok ls ∧ expandStridesTo b plan.outShape = .ok rs ∧
          ∀ idx : UInt32, idx.toNat < plan.outShape.prod →
            ((decodeOffsets (packParams plan) idx).1.toNat =
                linearToOffset idx.toNat plan.outShape ls 0 ∧
              (decodeOffsets (packParams plan) idx).1.toNat < a.prod) ∧
            ((decodeOffsets (packParams plan) idx).2.toNat =
                linearToOffset idx.toNat plan.outShape rs 0 ∧
              (decodeOffsets (packParams plan) idx).2.toNat < b.prod) ∧
            (plan.outShape.prod < 2 ^ 32 →
              kernelOffsets (packParams plan) idx =
                some (decodeOffsets (packParams plan) idx)) := by
  constructor
  · intro S
    constructor
    · rintro ⟨plan, hplan, rfl⟩
      exact (broadcastShape_eq_ok.1 hplan).2.1
    · intro hS
      exact ⟨⟨S, _, _⟩, broadcastShape_eq_ok.2 ⟨hrank, hS, rfl, rfl⟩, rfl⟩
  · intro plan hplan
    have hpacked := broadcastShape_packed hplan
    obtain ⟨_, hS, hl, hr⟩ := broadcastShape_eq_ok.1 hplan
    obtain ⟨hsa, hsb⟩ := broadcastWith_stretches hS
    rw [← length_outShape hS] at hl hr hrank
    obtain ⟨ls, hls, _⟩ := expandStridesTo_spec hsa
    obtain ⟨rs, hrs, _⟩ := expandStridesTo_spec hsb
    refine ⟨ls, rs, hls, hrs, fun idx hidx => ?_⟩
    have hoffsets := offsetLoop_eq (packParams plan) ((coordsOf plan.outShape idx.toNat).map
      UInt32.ofNat ++ (replicate 8 0).drop plan.outShape.length) plan.outShape.length
    rw [← hpacked.decodeOffsets_eq hrank (outShape_lt (by decide) hda hdb hS) idx] at hoffsets
    refine ⟨?_, ?_, fun hfits => hpacked.kernelOffsets_eq hfits hidx⟩
    · rw [offset_eq hrank (by decide) hna hsa hidx hl hpacked.lhs hoffsets.1]
      exact linearToOffset_restrict hna hsa hidx hls
    · rw [offset_eq hrank (by decide) hnb hsb hidx hr hpacked.rhs hoffsets.2]
      exact linearToOffset_restrict hnb hsb hidx hrs

/-- A column and a row. -/
theorem broadcastPlan_refines_column :
    (∀ S, (∃ plan, broadcastShape [2, 1] [3] = .ok plan ∧ plan.outShape = S) ↔
        broadcastWith [2, 1] [3] = .ok S) ∧
      ∀ plan, broadcastShape [2, 1] [3] = .ok plan → ∃ ls rs,
        expandStridesTo [2, 1] plan.outShape = .ok ls ∧
          expandStridesTo [3] plan.outShape = .ok rs ∧
          ∀ idx : UInt32, idx.toNat < plan.outShape.prod →
            ((decodeOffsets (packParams plan) idx).1.toNat =
                linearToOffset idx.toNat plan.outShape ls 0 ∧
              (decodeOffsets (packParams plan) idx).1.toNat < [2, 1].prod) ∧
            ((decodeOffsets (packParams plan) idx).2.toNat =
                linearToOffset idx.toNat plan.outShape rs 0 ∧
              (decodeOffsets (packParams plan) idx).2.toNat < [3].prod) ∧
            (plan.outShape.prod < 2 ^ 32 →
              kernelOffsets (packParams plan) idx = some (decodeOffsets (packParams plan) idx)) :=
  broadcastPlan_refines (by decide) (by decide) (by decide) (by decide) (by decide)

end Wgpu
end Rustorch
