import Rustorch.Cpu.Coords

/-!
# Splitting along an axis

`split` cuts a tensor into ranges of one axis, the last one shorter if need be; each piece is a
`narrow` view made contiguous.  `chunk` does so with the size that gives at most the asked number of
pieces.  The elements of a piece are those of a window of the tensor (`windowed`).
-/

namespace Rustorch
namespace Cpu

open Rustorch.Core List Outcome Layout

/-! ## The kernels -/

section Model

variable {α : Type}

/-- `src.narrow(dim, start, len)` and `contiguous()`. -/
def splitPiece (src : Tensor α) (dim dimSize start len : Nat) : Outcome BackendError (Tensor α) := do
  let piece ← mapErr (fun _ => .indexOutOfBounds "split" start dimSize)
    (ofExcept (src.runView (.narrow dim start len)))
  expect piece.contiguous

/-- `while start < dim_size`.  Every round advances, so `dim_size` rounds are enough; the first
argument bounds their number. -/
def splitLoop (src : Tensor α) (splitSize dim dimSize : Nat) :
    Nat → Nat → Outcome BackendError (List (Tensor α))
  | 0, _ => .ok []
  | rounds + 1, start =>
    if start < dimSize then do
      let len := min (dimSize - start) splitSize
      let piece ← splitPiece src dim dimSize start len
      let pieces ← splitLoop src splitSize dim dimSize rounds (start + len)
      .ok (piece :: pieces)
    else
      .ok []

def split (src : Tensor α) (splitSize dim : Nat) : Outcome BackendError (List (Tensor α)) :=
  if src.shape.length ≤ dim then
    .err (.indexOutOfBounds "split" dim src.shape.length)
  else if splitSize = 0 then
    .err (.shapeMismatch "split" src.shape [splitSize])
  else
    let dimSize := src.shape.getD dim 0
    splitLoop src splitSize dim dimSize dimSize 0

/-- `dim_size.div_ceil(n_chunks).max(1)`. -/
def chunkSize (dimSize nChunks : Nat) : Nat :=
  max ((dimSize + nChunks - 1) / nChunks) 1

def chunk (src : Tensor α) (nChunks dim : Nat) : Outcome BackendError (List (Tensor α)) :=
  if nChunks = 0 then
    .err (.shapeMismatch "chunk" src.shape [nChunks])
  else if src.shape.length ≤ dim then
    .err (.indexOutOfBounds "chunk" dim src.shape.length)
  else
    split src (chunkSize (src.shape.getD dim 0) nChunks) dim

end Model

/-! ## Positions around one axis -/

/-- A multi-index is split by an axis. -/
theorem inBounds_around {pre post : Shape} {n : Nat} :
    ∀ {I : List Nat}, InBounds (pre ++ n :: post) I →
      ∃ J c K, I = J ++ c :: K ∧ InBounds pre J ∧ c < n ∧ InBounds post K := by
  induction pre with
  | nil =>
    rintro I (_ | ⟨hc, hK⟩)
    exact ⟨[], _, _, rfl, .nil, hc, hK⟩
  | cons d pre ih =>
    rintro I (_ | ⟨hi, hrest⟩)
    obtain ⟨J, c, K, rfl, hJ, hc, hK⟩ := ih hrest
    exact ⟨_ :: J, c, K, rfl, .cons hi hJ, hc, hK⟩

theorem set_around (pre post : Shape) (n m : Nat) :
    (pre ++ n :: post).set pre.length m = pre ++ m :: post := by
  rw [set_append_right _ _ le_rfl, Nat.sub_self, set_cons_zero]

theorem getD_around (pre post : Shape) (n : Nat) : (pre ++ n :: post).getD pre.length 0 = n := by
  rw [getD_append_right _ _ _ _ le_rfl, Nat.sub_self, getD_cons_zero]

theorem linearOf_around {post K : List Nat} (n c : Nat) (hK : K.length = post.length) :
    ∀ {pre J : List Nat}, J.length = pre.length →
      linearOf (pre ++ n :: post) (J ++ c :: K) =
        (linearOf pre J * n + c) * post.prod + linearOf post K := by
  intro pre
  induction pre with
  | nil =>
    intro J hJ
    obtain rfl := length_eq_zero_iff.1 hJ
    rw [nil_append, nil_append, linearOf_cons n c hK]
    simp [linearOf, MixedRadix.value]
    ring
  | cons d pre ih =>
    intro J hJ
    cases J with
    | nil => cases hJ
    | cons i J =>
      have hJ : J.length = pre.length := Nat.succ.inj hJ
      rw [cons_append, cons_append, linearOf_cons d i (by simp [hJ, hK]), ih hJ,
        linearOf_cons d i hJ, prod_append, prod_cons]
      ring

/-! ## Windows -/

section Windows

variable {α : Type} {t : Tensor α} {T : Dtype} {pre post : Shape} {n m start : Nat} {f : Nat → α}

/-- The elements of the window `[start, start + m)` of an axis of `n` cells with `inner` elements
each, by linear index. -/
def windowed (f : Nat → α) (n inner start m l : Nat) : α :=
  f ((l / (m * inner) * n + start) * inner + l % (m * inner))

theorem displacement_set {a : Axis} (s m : Nat) :
    ∀ {axes : List Axis} {dim : Nat} {J : List Nat}, axes[dim]? = some a → dim < J.length →
      displacement axes (J.modify dim (s + ·)) =
        s * a.stride + displacement (axes.set dim { a with dim := m }) J := by
  intro axes
  induction axes with
  | nil =>
    intro dim J ha
    cases ha
  | cons b axes ih =>
    intro dim J ha hJ
    cases J with
    | nil => cases hJ
    | cons c J =>
      cases dim with
      | zero =>
        obtain rfl := Option.some.inj ha
        rw [modify_zero_cons, set_cons_zero, displacement_cons, displacement_cons]
        push_cast
        ring
      | succ dim =>
        rw [modify_succ_cons, set_cons_succ, displacement_cons, displacement_cons,
          ih ha (Nat.lt_of_succ_lt_succ hJ)]
        ring

section Narrow

variable (hx : Reachable t) (h : Holds t T (pre ++ n :: post) f) (h0 : 0 ∉ pre ++ n :: post)

include hx h h0

/-- The axis of a tensor without empty axes, whose first cell is inside of the storage. -/
theorem axis_contained :
    ∃ a, t.layout.axes[pre.length]? = some a ∧ a.dim = n ∧ n < u64Size ∧
      ∀ s < n, advanceOffset t.layout.storageOffset s a.stride =
        t.layout.storageOffset + s * a.stride := by
  have hdims : t.layout.axes.map Axis.dim = pre ++ n :: post := h.shape
  obtain ⟨a, ha, hadim⟩ : ∃ a, t.layout.axes[pre.length]? = some a ∧ a.dim = n := by
    have hget := congrArg (fun axes => axes[pre.length]?) hdims
    simp only [getElem?_map, getElem?_append_right le_rfl, Nat.sub_self, getElem?_cons_zero] at hget
    exact Option.map_eq_some_iff.1 hget
  have hnle : n ≤ (pre ++ n :: post).prod :=
    Nat.le_of_dvd (prod_pos fun d hd => Nat.pos_of_ne_zero fun hz => h0 (hz ▸ hd))
      (dvd_prod (by simp))
  obtain ⟨hlen, hin⟩ := reachable_inside hx
  -- The axis goes first, since the offset is advanced along it.
  have hcontained : Contained t.storage.length (a :: t.layout.axes.eraseIdx pre.length)
      t.layout.storageOffset := by
    rcases Core.Inside.perm (perm_cons_eraseIdx ha).symm hin with hzero | hcontained
    · rw [((perm_cons_eraseIdx ha).symm.map Axis.dim).mem_iff, hdims] at hzero
      exact absurd hzero h0
    · exact hcontained
  refine ⟨a, ha, hadim, lt_of_le_of_lt hnle (prod_lt_of_bytes h.bytes), ?_⟩
  intro s hs
  exact (hcontained.advanceOffset_eq hlen (hadim ▸ hs)).1

theorem narrow_view (hm : 0 < m) (hend : start + m ≤ n) :
    ∃ p, t.runView (.narrow pre.length start m) = .ok p ∧ Reachable p ∧ p.storage = t.storage ∧
      p.shape = pre ++ m :: post ∧ p.layout.dtype = T ∧
      ∀ J : List Nat, pre.length < J.length →
        address p.layout.axes p.layout.storageOffset J =
          address t.layout.axes t.layout.storageOffset (J.modify pre.length (start + ·)) := by
  obtain ⟨a, ha, hadim, hfit, hadvance⟩ := axis_contained hx h h0
  have hrun : t.runView (.narrow pre.length start m) = .ok
      { storage := t.storage
        layout := ofAxes (t.layout.axes.set pre.length { a with dim := m })
          (advanceOffset t.layout.storageOffset start a.stride)
          (advanceOffset_lt t.layout.storageOffset start a.stride) t.layout.dtype } := by
    have hguard : ¬ (u64Size ≤ start + m ∨ a.dim < start + m) := by
      omega
    rw [Tensor.runView, runView, narrow, ha]
    simp only [if_neg hguard]
    rfl
  have hreach := @Reachable.view α t _ (.narrow pre.length start m) hx trivial hrun
  refine ⟨_, hrun, hreach, rfl, ?_, h.dtype, ?_⟩
  · have hdims : t.layout.axes.map Axis.dim = pre ++ n :: post := h.shape
    have hset : (t.layout.axes.set pre.length { a with dim := m }).map Axis.dim =
        pre ++ m :: post := by
      rw [map_set, hdims, set_around]
    exact hset
  · intro J hJ
    have hdisp := displacement_set start m ha hJ
    have hsum : ((advanceOffset t.layout.storageOffset start a.stride : Nat) : Int) +
        displacement (t.layout.axes.set pre.length { a with dim := m }) J =
          t.layout.storageOffset +
            displacement t.layout.axes (J.modify pre.length (start + ·)) := by
      rw [hadvance start (by omega), hdisp]
      ring
    exact congrArg asU64 hsum

theorem narrow_holds (hm : 0 < m) (hend : start + m ≤ n) :
    ∃ p, t.runView (.narrow pre.length start m) = .ok p ∧ Reachable p ∧
      Holds p T (pre ++ m :: post) (windowed f n post.prod start m) := by
  obtain ⟨p, hrun, hreach, hstorage, hshape, hdtype, haddress⟩ := narrow_view hx h h0 hm hend
  let _ : Inhabited α := ⟨f 0⟩
  obtain ⟨g, hg⟩ := reachable_holds hreach
  rw [hshape, hdtype] at hg
  refine ⟨p, hrun, hreach, hg.congr ?_⟩
  intro l hl
  have h0' : 0 ∉ pre ++ m :: post := not_mem_of_lt_prod hl
  have hJ := inBounds_coordsOf (i := l) h0'
  have hread := hg.address hJ
  rw [linearOf_coordsOf hl] at hread
  obtain ⟨J, c, K, hcoords, hpre, hc, hK⟩ := inBounds_around hJ
  have hmodify : (J ++ c :: K).modify pre.length (start + ·) = J ++ (start + c) :: K := by
    rw [hpre.length_eq, modify_eq_set, getElem?_append_right le_rfl,
      set_append_right _ _ le_rfl, Nat.sub_self, set_cons_zero]
    rfl
  have hI : InBounds (pre ++ n :: post) (J ++ (start + c) :: K) :=
    rel_append hpre (.cons (by omega) hK)
  have hsource := h.address hI
  rw [hcoords, haddress _ (by simp [hpre.length_eq]), hmodify, hstorage, hsource] at hread
  rw [← Option.some.inj hread, windowed]
  -- The position of the multi-index before and after the narrowing.
  have hlinear := @linearOf_around post K m c hK.length_eq.symm pre J hpre.length_eq.symm
  rw [← hcoords, linearOf_coordsOf hl] at hlinear
  have hrest : c * post.prod + linearOf post K < m * post.prod := Rows.cell_lt hc (linearOf_lt hK)
  have hsplit : l = m * post.prod * linearOf pre J + (c * post.prod + linearOf post K) := by
    rw [hlinear]
    ring
  have hpos : 0 < m * post.prod := Nat.zero_lt_of_lt hrest
  rw [linearOf_around n (start + c) hK.length_eq.symm hpre.length_eq.symm, hsplit,
    Nat.mul_add_div hpos, Nat.mul_add_mod, Nat.div_eq_of_lt hrest, Nat.mod_eq_of_lt hrest]
  congr 1
  ring

end Narrow

/-- A copy in row-major order holds the same elements. -/
theorem contiguous_holds {S : Shape} (hx : Reachable t) (h : Holds t T S f) :
    ∃ c, t.contiguous = some c ∧ Holds c T S f := by
  let _ : Inhabited α := ⟨f 0⟩
  obtain ⟨c, hc, hshape, hdtype, helems, _⟩ := reachable_contiguous hx
  refine ⟨c, hc, hdtype.trans h.dtype, hshape.trans h.shape, h.bytes, ?_⟩
  rw [helems, h.elements]

end Windows

/-! ## The pieces -/

section Pieces

variable {α : Type} {t : Tensor α} {T : Dtype} {pre post : Shape} {n k : Nat} {f : Nat → α}

/-- The tensors hold the windows of an axis of `n` cells from `start` on, each of `k` cells but the
last one. -/
def Covers (T : Dtype) (pre post : Shape) (n k : Nat) (f : Nat → α) : Nat → List (Tensor α) → Prop
  | start, [] => start = n
  | start, p :: ps =>
    start < n ∧
      Holds p T (pre ++ min (n - start) k :: post)
        (windowed f n post.prod start (min (n - start) k)) ∧
      Covers T pre post n k f (start + min (n - start) k) ps

section Loop

variable (hx : Reachable t) (h : Holds t T (pre ++ n :: post) f) (h0 : 0 ∉ pre ++ n :: post)

include hx h h0

theorem splitPiece_holds {start m : Nat} (hm : 0 < m) (hend : start + m ≤ n) :
    ∃ p, splitPiece t pre.length n start m = .ok p ∧
      Holds p T (pre ++ m :: post) (windowed f n post.prod start m) := by
  obtain ⟨v, hrun, hreach, hv⟩ := narrow_holds hx h h0 hm hend
  obtain ⟨c, hc, hholds⟩ := contiguous_holds hreach hv
  refine ⟨c, ?_, hholds⟩
  rw [splitPiece, hrun]
  exact congrArg expect hc

theorem splitLoop_covers (hk : 0 < k) (rounds : Nat) :
    ∀ start, start ≤ n → n ≤ start + rounds →
      ∃ ps, splitLoop t k pre.length n rounds start = .ok ps ∧
        Covers T pre post n k f start ps := by
  induction rounds with
  | zero =>
    intro start hle hge
    exact ⟨[], rfl, by rw [Covers]; omega⟩
  | succ rounds ih =>
    intro start hle hge
    rw [splitLoop]
    by_cases hlt : start < n
    · obtain ⟨p, hp, hholds⟩ := @splitPiece_holds _ _ _ _ _ _ _ hx h h0 start (min (n - start) k)
        (by omega) (by omega)
      obtain ⟨ps, hps, hcovers⟩ := ih (start + min (n - start) k) (by omega) (by omega)
      refine ⟨p :: ps, ?_, hlt, hholds, hcovers⟩
      simp only [if_pos hlt, hp, hps, ok_bind]
    · exact ⟨[], if_neg hlt, by rw [Covers]; omega⟩

end Loop

namespace Covers

variable {ps : List (Tensor α)}

theorem length (hk : 0 < k) :
    ∀ {start : Nat}, Covers T pre post n k f start ps → ps.length = (n - start + k - 1) / k := by
  induction ps with
  | nil =>
    rintro start rfl
    rw [Nat.sub_self, Nat.zero_add, length_nil, Nat.div_eq_of_lt (by omega)]
  | cons p ps ih =>
    rintro start ⟨hlt, _, hrest⟩
    rw [length_cons, ih hrest]
    rcases le_total (n - start) k with hle | hle
    · rw [Nat.min_eq_left hle, Nat.add_sub_cancel' hlt.le, Nat.sub_self, Nat.zero_add,
        Nat.div_eq_of_lt (by omega)]
      refine (Nat.div_eq_of_lt_le ?_ ?_).symm <;> omega
    · rw [Nat.min_eq_right hle, ← Nat.add_div_right _ hk]
      congr 1
      omega

theorem shape :
    ∀ {start i : Nat} {p : Tensor α}, Covers T pre post n k f start ps → ps[i]? = some p →
      p.shape = pre ++ min (n - (start + i * k)) k :: post := by
  induction ps with
  | nil =>
    intro start i p _ hp
    cases hp
  | cons q ps ih =>
    rintro start i p ⟨hlt, hq, hrest⟩ hp
    cases i with
    | zero =>
      obtain rfl := Option.some.inj hp
      rw [Nat.zero_mul, Nat.add_zero]
      exact hq.shape
    | succ i =>
      rw [ih hrest hp]
      rcases le_total (n - start) k with hle | hle
      · -- A shorter piece is the last one.
        rw [Nat.min_eq_left hle, Nat.add_sub_cancel' hlt.le] at hrest
        cases ps with
        | nil => cases hp
        | cons _ _ => exact absurd hrest.1 (lt_irrefl n)
      · rw [Nat.min_eq_right hle, Nat.succ_mul, Nat.add_comm (i * k), ← Nat.add_assoc]

end Covers

end Pieces

end Cpu
end Rustorch
