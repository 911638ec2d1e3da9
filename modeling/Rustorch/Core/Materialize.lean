import Rustorch.Core.Dense

/-!
# What the contiguity flag means

On a reachable tensor the flag is set exactly if every element is stored at the offset plus its
position in shape order (`reachable_flag_iff`).  So the slice of a flagged tensor lists its
elements, and `contiguous` is either the tensor itself or a copy made from its iterator.
-/

namespace Rustorch
namespace Core

open List Layout

section Flag

variable {α : Type} {t : Tensor α}

/-! ## The flag -/

theorem reachable_numel : Reachable t → t.numel = t.shape.prod := by
  intro h
  exact numel_of_bytes (reachable_shape_bytes h)

theorem reachable_contained {i : Nat} :
    Reachable t → i < t.numel →
      Contained t.storage.length t.layout.axes t.layout.storageOffset := by
  intro h hi
  rcases (reachable_inside h).2 with h0 | hc
  · exact absurd h0 (zero_not_mem_of_lt_numel hi)
  · exact hc

theorem reachable_indexAt {i : Nat} :
    Reachable t → t.layout.isContiguous = true → i < t.numel →
      t.layout.indexAt i = t.layout.storageOffset + i := by
  intro h hflag hi
  have hoffset := (reachable_contained h hi).offset_lt
  have hlen := (reachable_inside h).1
  have hle := reachable_prod_le h
  have hprod : i < t.shape.prod := lt_of_lt_of_eq hi (reachable_numel h)
  rw [indexAt_of_contiguous hflag hi]
  omega

/-- The flag is set exactly if the elements lie one after the other from the offset on. -/
theorem reachable_flag_iff :
    Reachable t →
      (t.layout.isContiguous = true ↔
        ∀ i < t.numel, t.layout.indexAt i = t.layout.storageOffset + i) := by
  intro h
  constructor
  · intro hflag i hi
    exact reachable_indexAt h hflag hi
  · intro hall
    by_contra hflag
    rcases reachable_inside h with ⟨hlen, hin⟩
    -- Without the flag some multi-index is stored elsewhere than at its position.
    rcases exists_displaced (by simpa using hflag) hlen hin with ⟨coords, hb, hne⟩
    have hlt : linearOf t.layout.shape coords < t.numel :=
      lt_of_lt_of_eq (linearOf_lt hb) (reachable_numel h).symm
    have hstored := hall _ hlt
    rw [indexAt_eq, coordsOf_linearOf hb] at hstored
    refine hne ?_
    have haddr : address t.layout.axes t.layout.storageOffset coords < 2 ^ 64 := asU64_lt _
    rw [hstored] at haddr ⊢
    exact (Nat.mod_eq_of_lt haddr).symm

/-! ## The slice -/

theorem reachable_asSlice {T : Dtype} {s : List α} :
    Reachable t → t.asSlice T = .ok s → t.elements = some s := by
  intro h hs
  unfold Tensor.asSlice at hs
  split_ifs at hs with hguard hempty hshort
  cases hs
  have hfree : t.layout.dtype = T ∧ t.layout.isContiguous = true ∧ t.layout.storageOffset = 0 := by
    simpa [not_or] using hguard
  rw [Tensor.elements_eq]
  have hcell : ∀ i ∈ range t.numel, t.storage[t.layout.indexAt i]? = t.storage[i]? := by
    intro i hi
    rw [reachable_indexAt h hfree.2.1 (mem_range.1 hi), hfree.2.2, Nat.zero_add]
  rw [Traversal.mapM_congr hcell]
  refine (Traversal.mapM_eq_some _ _).2 ?_
  rw [forall₂_iff_get]
  have hlen : (t.storage.take t.numel).length = t.numel :=
    length_take_of_le (not_lt.1 hshort)
  refine ⟨by rw [hlen, length_range], ?_⟩
  intro i _ hi
  have hi' : i < t.storage.length := by
    omega
  simp [hi']

/-! ## `contiguous` -/

namespace Tensor

/-- `copy_to_contiguous::<T>`; `none` is a failed `expect`. -/
def copyToContiguous (T : Dtype) (src : Tensor α) : Option (Tensor α) := do
  let it ← src.iterElements T
  let collected ← it.collect it.numel
  (fromVecTyped T src.shape collected).toOption

/-- `contiguous`: the tensor itself, or a copy in the arm of its dtype. -/
def contiguous (t : Tensor α) : Option (Tensor α) :=
  if t.layout.isContiguous ∧ t.layout.storageOffset = 0 then
    some t
  else
    t.copyToContiguous t.layout.dtype

end Tensor

theorem reachable_copyToContiguous [Inhabited α] :
    Reachable t → ∃ c, t.copyToContiguous t.layout.dtype = some c ∧ c.shape = t.shape ∧
      c.layout.dtype = t.layout.dtype ∧ c.elements = t.elements ∧
      c.layout.isContiguous = true := by
  intro h
  rcases reachable_elements h with ⟨xs, hxs, hlen⟩
  have hnumel : numel t.shape = t.shape.prod := numel_of_bytes (reachable_shape_bytes h)
  have hmk : fromVecTyped t.layout.dtype t.shape xs =
      .ok { storage := xs, layout := contiguous t.shape t.layout.dtype } := by
    rw [fromVecTyped, if_neg (by rw [hnumel, hlen]; exact not_not.2 rfl)]
  rcases fromVecTyped_elements hlen (reachable_shape_bytes h) with ⟨c, hc, hshape, hdtype, helems⟩
  cases hmk.symm.trans hc
  refine ⟨_, ?_, hshape, hdtype, ?_, rfl⟩
  · have hiter : (t.iterElements t.layout.dtype).bind (fun it => it.collect it.numel) =
        some xs := hxs
    unfold Tensor.copyToContiguous
    cases hit : t.iterElements t.layout.dtype with
    | none =>
      rw [hit] at hiter
      cases hiter
    | some it =>
      rw [hit, Option.bind_some] at hiter
      simp only [Option.bind_eq_bind, Option.bind_some, hiter, hmk]
      rfl
  · rw [helems, hxs]

theorem reachable_contiguous [Inhabited α] :
    Reachable t → ∃ c, t.contiguous = some c ∧ c.shape = t.shape ∧
      c.layout.dtype = t.layout.dtype ∧ c.elements = t.elements ∧
      c.layout.isContiguous = true := by
  intro h
  unfold Tensor.contiguous
  split
  · rename_i hfast
    exact ⟨t, rfl, rfl, rfl, rfl, hfast.1⟩
  · exact reachable_copyToContiguous h

end Flag

end Core
end Rustorch
