import Rustorch.Cpu.Cat
import Rustorch.Cpu.Split
import Rustorch.Cpu.SumDim

/-!
# Joining the pieces of a split

`cat` copies, for every position of the leading axes, a run of each input; a split cuts the run of
the whole tensor at the same places.  So the pieces of a split or a chunk give the tensor again, for
the element types that `cat` has an arm for (`cat_split_chunk`).
-/

namespace Rustorch
namespace Cpu

open Rustorch.Core List Outcome

section Parts

variable {α : Type} {p : Tensor α} {T : Dtype} {pre post : Shape} {n m k : Nat} {f g : Nat → α}

theorem prod_around (pre post : Shape) (m : Nat) :
    (pre ++ m :: post).prod = pre.prod * (m * post.prod) := by
  rw [prod_append, prod_cons]

variable {outer : Nat}

/-- The run that an input contributes to one position of the leading axes. -/
theorem catPart_holds (h : Holds p T (pre ++ m :: post) g) (hpost : 0 < post.prod)
    (houter : outer < pre.prod) (hm : 0 < m) : catPart T pre.length outer p =
      .ok ((range (m * post.prod)).map fun j => g (outer * (m * post.prod) + j)) := by
  have hprod := prod_around pre post m
  have hfit : pre.prod * (m * post.prod) < u64Size := by
    rw [← hprod]
    exact prod_lt_of_bytes h.bytes
  have hinner : max (numel post) 1 = post.prod := by
    have hpre : 0 < pre.prod := Nat.zero_lt_of_lt houter
    have hle : post.prod ≤ pre.prod * (m * post.prod) :=
      Nat.le_of_dvd (by positivity) ⟨pre.prod * m, by ring⟩
    rw [numel_of_fits (lt_of_le_of_lt hle hfit)]
    omega
  have hsize : p.shape.getD pre.length 0 = m := by
    rw [h.shape, getD_around]
  have hdrop : p.shape.drop (pre.length + 1) = post := by
    rw [h.shape, drop_append, drop_eq_nil_of_le (Nat.le_succ _), Nat.add_sub_cancel_left]
    rfl
  have hslice := @rowSlice_eq _ g pre.prod (m * post.prod) outer houter hfit
  simp only [catPart, hsize, hdrop, hinner, collect_holds h, ok_bind, hprod,
    ← Nat.add_mod, Nat.mul_assoc]
  exact hslice

theorem catPart_windowed {start : Nat} (hpost : 0 < post.prod) (houter : outer < pre.prod)
    (hm : 0 < m) (h : Holds p T (pre ++ m :: post) (windowed f n post.prod start m)) :
    catPart T pre.length outer p =
      .ok ((range (m * post.prod)).map fun j => f ((outer * n + start) * post.prod + j)) := by
  rw [catPart_holds h hpost houter hm]
  refine congrArg ok (map_congr_left ?_)
  intro j hj
  have hj := mem_range.1 hj
  have hpos : 0 < m * post.prod := Nat.zero_lt_of_lt hj
  rw [windowed, Nat.mul_comm outer, Nat.mul_add_div hpos, Nat.mul_add_mod, Nat.div_eq_of_lt hj,
    Nat.mod_eq_of_lt hj, Nat.add_zero]

/-- The runs of the pieces, one after the other, are the run of the whole axis. -/
theorem mapM_catPart (hpost : 0 < post.prod) (houter : outer < pre.prod) (hk : 0 < k)
    {ps : List (Tensor α)} : ∀ {start : Nat}, Covers T pre post n k f start ps →
      ∃ parts, ps.mapM (catPart T pre.length outer) = .ok parts ∧
        parts.flatten = (range ((n - start) * post.prod)).map fun j =>
          f ((outer * n + start) * post.prod + j) := by
  induction ps with
  | nil =>
    rintro start rfl
    refine ⟨[], rfl, ?_⟩
    rw [Nat.sub_self, Nat.zero_mul]
    rfl
  | cons p ps ih =>
    rintro start ⟨hlt, hp, hrest⟩
    obtain ⟨parts, hparts, hflat⟩ := ih hrest
    have hm : 0 < min (n - start) k := by omega
    have hrun : (p :: ps).mapM (catPart T pre.length outer) =
        .ok (((range (min (n - start) k * post.prod)).map fun j =>
          f ((outer * n + start) * post.prod + j)) :: parts) := by
      rw [mapM_cons, catPart_windowed hpost houter hm hp, hparts]
      rfl
    refine ⟨_, hrun, ?_⟩
    have hsum : (n - start) * post.prod = min (n - start) k * post.prod +
        (n - (start + min (n - start) k)) * post.prod := by
      rw [← Nat.add_mul]
      congr 1
      omega
    rw [flatten_cons, hflat, hsum, range_add, map_append, map_map]
    congr 1
    refine map_congr_left ?_
    intro j _
    rw [Function.comp_apply]
    congr 1
    ring

end Parts

/-! ## The whole tensor -/

section Whole

variable {α : Type} {T : Dtype} {pre post : Shape} {n k : Nat} {f : Nat → α} {ps : List (Tensor α)}

namespace Covers

/-- The pieces can be joined, and their sizes add up to what they cover. -/
theorem joinable : ∀ {start : Nat}, Covers T pre post n k f start ps →
    Joinable T (pre ++ n :: post) pre.length ps ∧ (ps.map (sizeAt pre.length)).sum = n - start := by
  induction ps with
  | nil =>
    rintro start rfl
    refine ⟨⟨?_, ?_, by simp⟩, (Nat.sub_self _).symm⟩
    · intro t ht
      cases ht
    · intro t ht
      cases ht
  | cons p ps ih =>
    rintro start ⟨hlt, hp, hrest⟩
    obtain ⟨hjoin, hsum⟩ := ih hrest
    have hsize : sizeAt pre.length p = min (n - start) k := by
      rw [sizeAt, hp.shape, getD_around]
    refine ⟨⟨?_, ?_, hjoin.axis⟩, ?_⟩
    · intro t ht
      rcases mem_cons.1 ht with rfl | ht
      · exact hp.dtype
      · exact hjoin.dtype t ht
    · intro t ht
      rcases mem_cons.1 ht with rfl | ht
      · rw [hsize, hp.shape, set_around]
      · exact hjoin.shape t ht
    · rw [map_cons, sum_cons, hsize, hsum]
      omega

/-- The runs for every position of the leading axes, one after the other, are the elements. -/
theorem cat_data (hc : Covers T pre post n k f 0 ps) (hk : 0 < k) (hpost : 0 < post.prod) :
    ∃ parts : Nat → List (List α),
      (∀ outer ∈ range pre.prod, ps.mapM (catPart T pre.length outer) = .ok (parts outer)) ∧
        (((range pre.prod).map parts).flatten).flatten = (range (pre ++ n :: post).prod).map f := by
  have hparts : ∀ outer ∈ range pre.prod, ∃ parts,
      ps.mapM (catPart T pre.length outer) = .ok parts ∧
        parts.flatten = (range (n * post.prod)).map fun j =>
          f (outer * (n * post.prod) + j) := by
    intro outer hmem
    obtain ⟨parts, hrun, hflat⟩ := mapM_catPart hpost (mem_range.1 hmem) hk hc
    refine ⟨parts, hrun, ?_⟩
    rw [hflat, Nat.sub_zero, Nat.add_zero, Nat.mul_assoc]
  choose! parts hrun hflat using hparts
  refine ⟨parts, hrun, ?_⟩
  have hruns : (range pre.prod).map (flatten ∘ parts) = (range pre.prod).map
      fun outer => (range (n * post.prod)).map fun j => f (outer * (n * post.prod) + j) :=
    map_congr_left hflat
  rw [flatten_flatten, map_map, hruns, Accumulate.flatten_map_range, prod_around]

/-- Joining pieces that cover the axis gives the tensor. -/
theorem cat_eq (hc : Covers T pre post n k f 0 ps) (harm : catable T = true)
    (h0 : 0 ∉ pre ++ n :: post) (hk : 0 < k)
    (hbytes : (pre ++ n :: post).prod * T.byteSize < 2 ^ 63) :
    ∃ y, cat ps pre.length = .ok y ∧ Holds y T (pre ++ n :: post) f := by
  have hpos : ∀ d ∈ pre ++ n :: post, 0 < d := fun d hd => Nat.pos_of_ne_zero fun hz => h0 (hz ▸ hd)
  have hn : 0 < n := hpos n (by simp)
  have hpre : 0 < pre.prod := prod_pos fun d hd => hpos d (by simp [hd])
  have hpost : 0 < post.prod := prod_pos fun d hd => hpos d (by simp [hd])
  have hfit := prod_lt_of_bytes hbytes
  have hle : pre.prod ≤ (pre ++ n :: post).prod ∧ n ≤ (pre ++ n :: post).prod := by
    rw [prod_around]
    exact ⟨Nat.le_mul_of_pos_right _ (by positivity),
      Nat.le_of_dvd (by positivity) ⟨pre.prod * post.prod, by ring⟩⟩
  obtain ⟨hjoin, hsum⟩ := hc.joinable
  have hne : ps ≠ [] := by
    rintro rfl
    exact hn.ne hc
  have hshape : (pre ++ n :: post).set pre.length ((ps.map (sizeAt pre.length)).sum % u64Size) =
      pre ++ n :: post := by
    rw [hsum, Nat.sub_zero, Nat.mod_eq_of_lt (lt_of_le_of_lt hle.2 hfit), set_around]
  have houter : max (numel ((pre ++ n :: post).take pre.length)) 1 = pre.prod := by
    rw [take_left, numel_of_fits (lt_of_le_of_lt hle.1 hfit)]
    omega
  obtain ⟨parts, hrun, hdata⟩ := hc.cat_data hk hpost
  obtain ⟨y, hy, hfresh⟩ := @fromVecOrOom_fresh α T (pre ++ n :: post) f
    (numel (pre ++ n :: post)) hbytes
  refine ⟨y, ?_, hfresh.holds⟩
  have hcap : withCapacity T (numel (pre ++ n :: post)) = .ok () := by
    rw [numel_of_fits hfit]
    exact withCapacity_ok hbytes
  rw [cat_joinable hjoin hne, if_pos harm, hshape, catTyped, hcap]
  simp only [ok_bind, houter, mapM_eq_ok hrun, hdata]
  exact hy

end Covers

end Whole

/-! ## Splits and chunks -/

section Laws

variable {α : Type}

/-- The call returns pieces of `k` cells but the last one, and joining them gives the tensor again,
for the element types that `cat` has an arm for. -/
def Rejoins (x : Tensor α) (dim k : Nat) (call : Outcome BackendError (List (Tensor α))) : Prop :=
  ∃ ps, call = .ok ps ∧ ps.length = (x.shape.getD dim 0 + k - 1) / k ∧
    (∀ i p, ps[i]? = some p → p.shape = x.shape.set dim (min (x.shape.getD dim 0 - i * k) k)) ∧
    (catable x.layout.dtype = true → ∃ y, cat ps dim = .ok y ∧ SameElements y x)

theorem split_rejoins [Inhabited α] {x : Tensor α} {dim k : Nat} (hx : Reachable x)
    (h0 : 0 ∉ x.shape) (hdim : dim < x.shape.length) (hk : 0 < k) :
    Rejoins x dim k (split x k dim) := by
  obtain ⟨f, hf⟩ := reachable_holds hx
  obtain ⟨pre, n, post, hshape, hlen⟩ : ∃ pre n post, x.shape = pre ++ n :: post ∧
      pre.length = dim := by
    refine ⟨x.shape.take dim, x.shape[dim], x.shape.drop (dim + 1), ?_, ?_⟩
    · rw [← drop_eq_getElem_cons hdim, take_append_drop]
    · exact length_take_of_le hdim.le
  subst hlen
  rw [hshape] at hf h0
  have hsize : x.shape.getD pre.length 0 = n := by
    rw [hshape, getD_around]
  have hset : ∀ m, x.shape.set pre.length m = pre ++ m :: post := by
    intro m
    rw [hshape, set_around]
  obtain ⟨ps, hps, hcovers⟩ := splitLoop_covers hx hf h0 hk n 0 (Nat.zero_le n) (by omega)
  refine ⟨ps, ?_, ?_, ?_, ?_⟩
  · rw [split, if_neg (not_le.2 hdim), if_neg hk.ne', hsize, hps]
  · rw [hsize, hcovers.length hk, Nat.sub_zero]
  · intro i p hp
    rw [hset, hsize, hcovers.shape hp, Nat.zero_add]
  · intro harm
    obtain ⟨y, hy, hholds⟩ := hcovers.cat_eq harm h0 hk hf.bytes
    exact ⟨y, hy, .of_holds hholds hf⟩

/-- `cat` undoes `split` and `chunk`. -/
theorem cat_split_chunk [Inhabited α] {x : Tensor α} {dim : Nat} (hx : Reachable x)
    (h0 : 0 ∉ x.shape) (hdim : dim < x.shape.length) :
    (∀ k, 1 ≤ k → Rejoins x dim k (split x k dim)) ∧
      ∀ c, 1 ≤ c → Rejoins x dim (chunkSize (x.shape.getD dim 0) c) (chunk x c dim) := by
  constructor
  · intro k hk
    exact split_rejoins hx h0 hdim hk
  · intro c hc
    have hpos : 0 < chunkSize (x.shape.getD dim 0) c := by
      unfold chunkSize
      omega
    rw [chunk, if_neg (by omega), if_neg (not_le.2 hdim)]
    exact split_rejoins hx h0 hdim hpos

end Laws

/-! ## Three elements -/

def threeOf (T : Dtype) : Tensor Nat where
  storage := [5, 6, 7]
  layout := Layout.contiguous [3] T

theorem threeOf_reachable {T : Dtype} : Reachable (threeOf T) := by
  refine @Reachable.fromVecTyped Nat T [3] [5, 6, 7] (threeOf T) (by decide) ?_ rfl
  cases T <;> decide

theorem cat_split_chunk_three :
    (∀ k, 1 ≤ k → Rejoins (threeOf .f32) 0 k (split (threeOf .f32) k 0)) ∧
      ∀ c, 1 ≤ c → Rejoins (threeOf .f32) 0 (chunkSize ((threeOf .f32).shape.getD 0 0) c)
        (chunk (threeOf .f32) c 0) :=
  cat_split_chunk threeOf_reachable (by decide) (by decide)

/-- The pieces of a half-precision tensor cannot be joined. -/
theorem cat_split_half_fails :
    Reachable (threeOf .f16) ∧ 0 ∉ (threeOf .f16).shape ∧
      ∃ ps, split (threeOf .f16) 2 0 = .ok ps ∧ cat ps 0 = .err (.dtypeMismatch "cat" .f16 .f16) :=
  ⟨threeOf_reachable, by decide, _, rfl, rfl⟩

end Cpu
end Rustorch
