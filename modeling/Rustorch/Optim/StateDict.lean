import Rustorch.Lib.Separated
import Rustorch.Lib.StringMap
import Rustorch.Optim.ParamLoop

/-!
# Optimiser snapshots

An optimiser is saved in two parts: its buffers, as tensors under the keys `"{prefix}.{i}"`, and
its hyperparameters.  Reading the buffers back gives the buffers that were written
(`unflattenBuffers_flatten`).
-/

namespace Rustorch
namespace Optim

open Rustorch.Core Autograd List

section Snapshots

variable {F : Type}

/-- The optional buffer of each parameter. -/
abbrev Buffers (F : Type) : Type := List (Option (List F))

/-- Hyperparameters and step counters. -/
structure OptimMeta (F : Type) where
  lr : F
  stepT : Nat
  betas : Option (F × F)
  eps : Option F
  weightDecay : Option F
  momentum : Option F
  alpha : Option F
  deriving DecidableEq, Repr

def OptimMeta.default [Zero F] : OptimMeta F where
  lr := 0
  stepT := 0
  betas := none
  eps := none
  weightDecay := none
  momentum := none
  alpha := none

/-- `format!("{prefix}.{i}")`. -/
def bufferKey (pre : String) (i : Nat) : String :=
  pre ++ "." ++ toString i

/-- The loop of `flatten_buffers` from index `i` on. -/
def flattenFrom (pre : String) :
    Nat → Buffers F → StringMap (Tensor F) → Outcome Unit (StringMap (Tensor F))
  | _, [], map => .ok map
  | i, none :: rest, map => flattenFrom pre (i + 1) rest map
  | i, some b :: rest, map =>
    match fromVecTyped .f32 [b.length] b with
    | .ok t => flattenFrom pre (i + 1) rest (map.insert (bufferKey pre i) t)
    | .error _ => .panic

def flattenBuffers (map : StringMap (Tensor F)) (pre : String) (buffers : Buffers F) :
    Outcome Unit (StringMap (Tensor F)) :=
  flattenFrom pre 0 buffers map

/-- The loop of `unflatten_buffers` over the indices. -/
def unflattenFrom (map : StringMap (Tensor F)) (pre : String) :
    List Nat → Outcome Unit (Buffers F)
  | [] => .ok []
  | i :: rest =>
    match map[bufferKey pre i]? with
    | none => do
      let bufs ← unflattenFrom map pre rest
      .ok (none :: bufs)
    | some t => do
      let b ← readSlice t
      let bufs ← unflattenFrom map pre rest
      .ok (some b :: bufs)

def unflattenBuffers (map : StringMap (Tensor F)) (pre : String) (nParams : Nat) :
    Outcome Unit (Buffers F) :=
  unflattenFrom map pre (List.range nParams)

/-! ## Reading back -/

variable {pre : String} {buffers : Buffers F} {map map' : StringMap (Tensor F)}

theorem bufferKey_inj {i j : Nat} : bufferKey pre i = bufferKey pre j → i = j := by
  intro h
  exact Separated.toString_inj (Separated.dotted_right_inj h)

theorem bufferKey_ne {pre' : String} {i j : Nat} :
    '.' ∉ pre.toList → '.' ∉ pre'.toList → pre ≠ pre' → bufferKey pre i ≠ bufferKey pre' j := by
  intro h h' hne heq
  exact hne (Separated.dotted_left_inj h h' heq)

/-- The buffers fit in a machine word. -/
def Short (buffers : Buffers F) : Prop :=
  ∀ b, some b ∈ buffers → b.length < u64Size

/-- An optional buffer of `n` elements. -/
def BufferFits (n : Nat) (buf : Option (List F)) : Prop :=
  ∀ b, buf = some b → b.length = n

theorem short_of_fits {params : List Var} {σ : Store F} :
    BuffersFit BufferFits params buffers σ → Short buffers := by
  intro h b hb
  obtain ⟨i, hi, hget⟩ := mem_iff_getElem.1 hb
  have hlen := Forall₂.length_eq h
  have hfit := (forall₂_iff_get.1 h).2 i (by omega) hi
  have hsize := hfit b (by simpa using hget)
  rw [hsize]
  exact numel_lt _

theorem flattenFrom_spec (pre : String) (buffers : Buffers F) :
    ∀ (i : Nat) (map : StringMap (Tensor F)), Short buffers →
      ∃ map', flattenFrom pre i buffers map = .ok map' ∧
        (∀ key, (∀ j, key ≠ bufferKey pre j) → map'[key]? = map[key]?) ∧
        (∀ j < i, map'[bufferKey pre j]? = map[bufferKey pre j]?) ∧
        ∀ j, i ≤ j → match buffers[j - i]? with
          | some (some b) => ∃ t, map'[bufferKey pre j]? = some t ∧ t.asSlice .f32 = .ok b
          | _ => map'[bufferKey pre j]? = map[bufferKey pre j]? := by
  induction buffers with
  | nil =>
    intro i map _
    exact ⟨map, rfl, fun _ _ => rfl, fun _ _ => rfl, by simp⟩
  | cons buf buffers ih =>
    intro i map hshort
    have hshort' : Short buffers := fun b hb => hshort b (mem_cons_of_mem buf hb)
    cases buf with
    | none =>
      -- an absent buffer writes nothing, so its key is as before
      obtain ⟨map', hmap', hother, hbefore, hafter⟩ := ih (i + 1) map hshort'
      refine ⟨map', hmap', hother, fun j hj => hbefore j (by omega), ?_⟩
      intro j hj
      by_cases hji : j = i
      · subst hji
        simpa using hbefore j (by omega)
      · have hsub : j - i = (j - (i + 1)) + 1 := by
          omega
        rw [hsub, getElem?_cons_succ]
        exact hafter j (by omega)
    | some b =>
      have hlen : b.length < u64Size := hshort b mem_cons_self
      -- a buffer is written under its key, which no later one overwrites
      obtain ⟨t, ht⟩ : ∃ t, fromVecTyped .f32 [b.length] b = .ok t := by
        refine ⟨_, if_neg ?_⟩
        rw [not_not, numel_of_fits (by simpa using hlen)]
        simp
      obtain ⟨map', hmap', hother, hbefore, hafter⟩ :=
        ih (i + 1) (map.insert (bufferKey pre i) t) hshort'
      have hkeep : ∀ key, key ≠ bufferKey pre i →
          (map.insert (bufferKey pre i) t)[key]? = map[key]? := by
        intro key hkey
        rw [Std.TreeMap.getElem?_insert, if_neg]
        intro heq
        exact hkey (Std.LawfulEqOrd.eq_of_compare heq).symm
      refine ⟨map', ?_, ?_, ?_, ?_⟩
      · rw [flattenFrom, ht]
        exact hmap'
      · intro key hkey
        rw [hother key hkey, hkeep key (hkey i)]
      · intro j hj
        rw [hbefore j (by omega), hkeep]
        intro heq
        have hij := bufferKey_inj heq
        omega
      · intro j hj
        by_cases hji : j = i
        · subst hji
          have hself := hbefore j (by omega)
          rw [Std.TreeMap.getElem?_insert_self] at hself
          simpa using ⟨t, hself, (fromVecTyped_eq_ok ht).2.1⟩
        · have hsub : j - i = (j - (i + 1)) + 1 := by
            omega
          have hrest := hafter j (by omega)
          rw [hsub, getElem?_cons_succ]
          rwa [hkeep _ (fun heq => hji (bufferKey_inj heq))] at hrest

theorem unflattenFrom_eq (idxs : List Nat) :
    ∀ buffers : Buffers F, List.Forall₂ (fun i buf => match buf with
        | some b => ∃ t, map[bufferKey pre i]? = some t ∧ t.asSlice .f32 = .ok b
        | none => map[bufferKey pre i]? = none) idxs buffers →
      unflattenFrom map pre idxs = .ok buffers := by
  induction idxs with
  | nil =>
    intro buffers h
    rw [forall₂_nil_left_iff.1 h]
    rfl
  | cons i idxs ih =>
    intro buffers h
    rcases forall₂_cons_left_iff.1 h with ⟨buf, rest, hbuf, hrest, rfl⟩
    have hih := ih rest hrest
    cases buf with
    | none => simp [unflattenFrom, hbuf, hih]
    | some b =>
      obtain ⟨t, ht, hslice⟩ := hbuf
      simp [unflattenFrom, ht, readSlice_eq_ok.2 hslice, hih]

/-- A map that was empty at the keys of a prefix gives the flattened buffers back. -/
theorem unflattenBuffers_flatten : Short buffers → (∀ j, map[bufferKey pre j]? = none) →
      flattenBuffers map pre buffers = .ok map' →
        unflattenBuffers map' pre buffers.length = .ok buffers := by
  intro hshort hempty hflat
  obtain ⟨map'', hmap'', _, _, hafter⟩ := flattenFrom_spec pre buffers 0 map hshort
  cases hflat.symm.trans hmap''
  refine unflattenFrom_eq _ _ (forall₂_iff_get.2 ⟨by simp, ?_⟩)
  intro j hj hj'
  have hentry := hafter j (Nat.zero_le j)
  simp only [Nat.sub_zero, getElem?_eq_getElem hj', get_eq_getElem, getElem_range]
    at hentry ⊢
  cases hbuf : buffers[j] with
  | none =>
    rw [hbuf] at hentry
    exact hentry.trans (hempty j)
  | some b =>
    rw [hbuf] at hentry
    exact hentry

/-- Flattening another prefix keeps the entries. -/
theorem unflattenFrom_congr (idxs : List Nat) :
    (∀ j, map'[bufferKey pre j]? = map[bufferKey pre j]?) →
      unflattenFrom map' pre idxs = unflattenFrom map pre idxs := by
  intro h
  induction idxs with
  | nil => rfl
  | cons i idxs ih => simp only [unflattenFrom, h i, ih]

end Snapshots

end Optim
end Rustorch
