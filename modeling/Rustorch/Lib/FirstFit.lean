import Mathlib.Algebra.BigOperators.Fin
import Mathlib.Algebra.Order.BigOperators.Group.Finset

/-!
# First-fit packing

A first-fit packer scans its bins in creation order and puts an item into the first bin that
accepts it, or opens a new bin.  The packer is generic in the item type, in the bin type and in
the three bin operations (`fits`, `fresh`, `add`).

- `place`  : one item into the bins, with the index of the bin it went to
- `pack`   : a whole list of items, with the placement list
- `Filled` : the ways a bin can come to hold a list of items, each step under a guard
- `RunOk`  : the guards hold at every step of a run

`pack_packed` says that every final bin was filled by exactly the items placed in it, so a
property of bins is proved by induction on `Filled`.  A packer that sorts its items first sees them
in one order, whatever order they come in, when its key tells them apart
(`insertionSort_eq_of_perm`).
-/

namespace FirstFit

open List Prod

/-! ## The order of the items -/

theorem insertionSort_eq_of_perm {α : Type*} {r : α → α → Prop} [DecidableRel r] [Std.Total r]
    [IsTrans α r] {as bs : List α} :
    as.Perm bs → (∀ a ∈ bs, ∀ b ∈ bs, r a b → r b a → a = b) →
      as.insertionSort r = bs.insertionSort r := by
  intro hperm hanti
  have hsame : (as.insertionSort r).Perm (bs.insertionSort r) :=
    (perm_insertionSort r as).trans (hperm.trans (perm_insertionSort r bs).symm)
  refine hsame.eq_of_pairwise ?_ (pairwise_insertionSort r as)
    (pairwise_insertionSort r bs)
  intro a b ha hb
  have ha' := (perm_insertionSort r bs).mem_iff.1 (hsame.mem_iff.1 ha)
  have hb' := (perm_insertionSort r bs).mem_iff.1 hb
  exact hanti a ha' b hb'

variable {σ α : Type*} (fits : σ → α → Bool) (fresh : α → σ) (add : σ → α → σ)

/-! ## Placing one item -/

/-- Put `a` into the first bin that accepts it, else into a new last bin. -/
def place : List σ → α → List σ × Nat
  | [], a => ([fresh a], 0)
  | s :: bins, a =>
    if fits s a then
      (add s a :: bins, 0)
    else
      let r := place bins a
      (s :: r.1, r.2 + 1)

theorem place_cases (bins : List σ) (a : α) :
    (∃ s, bins.find? (fun s => fits s a) = some s ∧
        bins[(place fits fresh add bins a).2]? = some s ∧
        (place fits fresh add bins a).1 =
          bins.set (place fits fresh add bins a).2 (add s a)) ∨
      (bins.find? (fun s => fits s a) = none ∧
        (place fits fresh add bins a).2 = bins.length ∧
        (place fits fresh add bins a).1 = bins ++ [fresh a]) := by
  induction bins with
  | nil =>
    exact Or.inr ⟨rfl, rfl, rfl⟩
  | cons s bins ih =>
    by_cases hfit : fits s a = true
    · refine Or.inl ⟨s, ?_, ?_, ?_⟩
      · simp [hfit]
      · simp [place, hfit]
      · simp [place, hfit]
    · rcases ih with ⟨t, hfind, ht, hset⟩ | ⟨hfind, hidx, happ⟩
      · refine Or.inl ⟨t, ?_, ?_, ?_⟩
        · simpa [hfit] using hfind
        · simpa [place, hfit] using ht
        · simpa [place, hfit] using hset
      · refine Or.inr ⟨?_, ?_, ?_⟩
        · simpa [hfit] using hfind
        · simpa [place, hfit] using hidx
        · simpa [place, hfit] using happ

/-! ## Packing a list -/

/-- One packing step: the bins so far and the items placed so far with their bin index. -/
def packStep (acc : List σ × List (α × Nat)) (a : α) : List σ × List (α × Nat) :=
  let r := place fits fresh add acc.1 a
  (r.1, acc.2 ++ [(a, r.2)])

def pack (items : List α) : List σ × List (α × Nat) :=
  items.foldl (packStep fits fresh add) ([], [])

/-- The items placed into bin `k`, in placement order. -/
def contents (placed : List (α × Nat)) (k : Nat) : List α :=
  (placed.filter (fun p => p.2 == k)).map fst

@[simp] theorem contents_nil (k : Nat) : contents ([] : List (α × Nat)) k = [] := rfl

theorem contents_snoc (placed : List (α × Nat)) (a : α) (i k : Nat) :
    contents (placed ++ [(a, i)]) k =
      if i = k then contents placed k ++ [a] else contents placed k := by
  by_cases h : i = k
  · simp [contents, h]
  · simp [contents, h]

theorem mem_contents {placed : List (α × Nat)} {k : Nat} {a : α} :
    a ∈ contents placed k ↔ (a, k) ∈ placed := by
  simp [contents]

theorem contents_sublist (placed : List (α × Nat)) (k : Nat) :
    (contents placed k).Sublist (placed.map fst) :=
  filter_sublist.map fst

/-- Summing over the bins' contents is summing over the placed items. -/
theorem sum_contents (f : α → Nat) {n : Nat} (placed : List (α × Nat)) :
    (∀ p ∈ placed, p.2 < n) →
      ∑ k : Fin n, ((contents placed k).map f).sum = (placed.map (fun p => f p.1)).sum := by
  induction placed with
  | nil =>
    intro _
    simp
  | cons p placed ih =>
    intro hbound
    have hp : p.2 < n := hbound p mem_cons_self
    have hcons : ∀ k : Fin n, ((contents (p :: placed) k).map f).sum =
        (if k = ⟨p.2, hp⟩ then f p.1 else 0) + ((contents placed k).map f).sum := by
      intro k
      by_cases hk : p.2 = k
      · have hkp : k = ⟨p.2, hp⟩ := Fin.ext hk.symm
        simp [contents, hkp]
      · have hkp : k ≠ ⟨p.2, hp⟩ := by
          intro heq
          exact hk (congrArg Fin.val heq).symm
        simp [contents, hk, hkp]
    calc
      ∑ k : Fin n, ((contents (p :: placed) k).map f).sum
          = ∑ k : Fin n, ((if k = ⟨p.2, hp⟩ then f p.1 else 0) +
              ((contents placed k).map f).sum) := Finset.sum_congr rfl (fun k _ => hcons k)
      _ = f p.1 + ∑ k : Fin n, ((contents placed k).map f).sum := by
            rw [Finset.sum_add_distrib]
            simp
      _ = ((p :: placed).map (fun q => f q.1)).sum := by
            rw [ih (fun q hq => hbound q (mem_cons_of_mem p hq))]
            simp

/-! ## Guards on the steps of a run -/

variable (openOk : α → Prop) (addOk : σ → α → Prop)

/-- The guard of the step that places `a`: `addOk` for the bin that takes it, `openOk` when a
bin is opened for it. -/
def StepOk (bins : List σ) (a : α) : Prop :=
  match bins.find? (fun s => fits s a) with
  | some s => addOk s a
  | none => openOk a

/-- Every step of the run from `bins` over the items meets its guard. -/
def RunOk : List σ → List α → Prop
  | _, [] => True
  | bins, a :: items =>
    StepOk fits openOk addOk bins a ∧ RunOk (place fits fresh add bins a).1 items

instance [DecidablePred openOk] [∀ s a, Decidable (addOk s a)] (bins : List σ) (a : α) :
    Decidable (StepOk fits openOk addOk bins a) :=
  match h : bins.find? (fun s => fits s a) with
  | some s => decidable_of_iff (addOk s a) (by simp [StepOk, h])
  | none => decidable_of_iff (openOk a) (by simp [StepOk, h])

instance decidableRunOk [DecidablePred openOk] [∀ s a, Decidable (addOk s a)] :
    (bins : List σ) → (items : List α) → Decidable (RunOk fits fresh add openOk addOk bins items)
  | _, [] => isTrue trivial
  | bins, a :: items =>
    have := decidableRunOk (place fits fresh add bins a).1 items
    inferInstanceAs (Decidable (StepOk fits openOk addOk bins a ∧ _))

/-- The guard that only says what the packer itself checked always holds. -/
theorem runOk_fits (items : List α) :
    ∀ bins : List σ, RunOk fits fresh add (fun _ => True) (fun s a => fits s a = true)
      bins items := by
  induction items with
  | nil =>
    intro bins
    trivial
  | cons a items ih =>
    intro bins
    refine ⟨?_, ih _⟩
    unfold StepOk
    split
    · rename_i s hs
      exact find?_some (p := fun s => fits s a) hs
    · trivial

/-- `Filled l s`: bin `s` was opened by the first item of `l` and took the others in order,
every step under its guard. -/
inductive Filled : List α → σ → Prop
  | fresh {a : α} : openOk a → Filled [a] (fresh a)
  | add {l : List α} {s : σ} {a : α} : Filled l s → addOk s a → Filled (l ++ [a]) (add s a)

/-- What a packing state keeps: the bins are filled by their placed items, and every placement
points at an existing bin. -/
structure Packed (acc : List σ × List (α × Nat)) : Prop where
  filled : ∀ k s, acc.1[k]? = some s → Filled fresh add openOk addOk (contents acc.2 k) s
  bound : ∀ p ∈ acc.2, p.2 < acc.1.length

variable {fits fresh add openOk addOk}

variable {acc : List σ × List (α × Nat)}

theorem Packed.contents_length :
    Packed fresh add openOk addOk acc → contents acc.2 acc.1.length = [] := by
  intro h
  refine eq_nil_iff_forall_not_mem.2 ?_
  intro a ha
  exact absurd (h.bound _ (mem_contents.1 ha)) (Nat.lt_irrefl _)

theorem packed_nil : Packed fresh add openOk addOk (([], []) : List σ × List (α × Nat)) := by
  refine ⟨?_, ?_⟩
  · intro k s h
    simp at h
  · intro p hp
    cases hp

theorem packStep_packed {a : α} :
    StepOk fits openOk addOk acc.1 a → Packed fresh add openOk addOk acc →
      Packed fresh add openOk addOk (packStep fits fresh add acc a) := by
  intro hok h
  rcases place_cases fits fresh add acc.1 a with ⟨s, hfind, hs, hset⟩ | ⟨hfind, hidx, happ⟩
  · -- an open bin accepts the item: its contents grow by one, the others stay
    have hadd : addOk s a := by
      simpa [StepOk, hfind] using hok
    have hlt : (place fits fresh add acc.1 a).2 < acc.1.length :=
      (List.getElem?_eq_some_iff.1 hs).1
    refine ⟨?_, ?_⟩
    · intro k t hk
      have hk' : (acc.1.set (place fits fresh add acc.1 a).2 (add s a))[k]? = some t := by
        simpa [packStep, hset] using hk
      simp only [packStep, contents_snoc]
      by_cases hki : (place fits fresh add acc.1 a).2 = k
      · subst hki
        have ht : add s a = t := by
          simpa [getElem?_set, hlt] using hk'
        rw [if_pos rfl, ← ht]
        exact Filled.add (h.filled _ s hs) hadd
      · rw [if_neg hki]
        exact h.filled k t (by simpa [getElem?_set, hki] using hk')
    · intro p hp
      have hp' : p ∈ acc.2 ∨ p = (a, (place fits fresh add acc.1 a).2) := by
        simpa [packStep] using hp
      rcases hp' with hp' | rfl
      · simpa [packStep, hset] using h.bound p hp'
      · simpa [packStep, hset] using hlt
  · -- no bin accepts it: a new last bin holds this item alone
    have hopen : openOk a := by
      simpa [StepOk, hfind] using hok
    refine ⟨?_, ?_⟩
    · intro k t hk
      have hk' : (acc.1 ++ [fresh a])[k]? = some t := by
        simpa [packStep, happ] using hk
      simp only [packStep, contents_snoc, hidx]
      by_cases hki : acc.1.length = k
      · subst hki
        have ht : fresh a = t := by
          simpa using hk'
        rw [if_pos rfl, h.contents_length, ← ht]
        exact Filled.fresh hopen
      · rw [if_neg hki]
        have hlt : k < acc.1.length := by
          have hlen := (List.getElem?_eq_some_iff.1 hk').1
          simp only [length_append, length_cons, length_nil] at hlen
          omega
        exact h.filled k t (by simpa [getElem?_append_left hlt] using hk')
    · intro p hp
      have hp' : p ∈ acc.2 ∨ p = (a, (place fits fresh add acc.1 a).2) := by
        simpa [packStep] using hp
      have hlen : (packStep fits fresh add acc a).1.length = acc.1.length + 1 := by
        simp [packStep, happ]
      rcases hp' with hp' | rfl
      · have := h.bound p hp'
        omega
      · simp [hlen, hidx]

theorem foldl_packStep_packed (items : List α) :
    ∀ acc : List σ × List (α × Nat), RunOk fits fresh add openOk addOk acc.1 items →
      Packed fresh add openOk addOk acc →
        Packed fresh add openOk addOk (items.foldl (packStep fits fresh add) acc) := by
  induction items with
  | nil =>
    intro acc _ h
    exact h
  | cons a items ih =>
    intro acc hrun h
    exact ih (packStep fits fresh add acc a) hrun.2 (packStep_packed hrun.1 h)

/-- Every bin of a finished packing was filled by exactly the items placed in it. -/
theorem pack_packed {items : List α} :
    RunOk fits fresh add openOk addOk [] items →
      Packed fresh add openOk addOk (pack fits fresh add items) := by
  intro hrun
  exact foldl_packStep_packed items ([], []) hrun packed_nil

theorem foldl_packStep_items (items : List α) :
    ∀ acc : List σ × List (α × Nat),
      (items.foldl (packStep fits fresh add) acc).2.map fst = acc.2.map fst ++ items := by
  induction items with
  | nil =>
    intro acc
    simp
  | cons a items ih =>
    intro acc
    simp [ih, packStep]

theorem pack_items (items : List α) :
    (pack fits fresh add items).2.map fst = items := by
  simpa [pack] using @foldl_packStep_items σ α fits fresh add items
    ([], [])

theorem RunOk.left {items rest : List α} :
    ∀ {bins : List σ}, RunOk fits fresh add openOk addOk bins (items ++ rest) →
      RunOk fits fresh add openOk addOk bins items := by
  induction items with
  | nil =>
    intro bins _
    trivial
  | cons a items ih =>
    intro bins h
    exact ⟨h.1, ih h.2⟩

theorem Packed.sum_le (size : σ → Nat) (cost : α → Nat) : Packed fresh add openOk addOk acc →
      (∀ k s, acc.1[k]? = some s → size s ≤ ((contents acc.2 k).map cost).sum) →
        (acc.1.map size).sum ≤ (acc.2.map (fun p => cost p.1)).sum := by
  intro h hle
  calc
    (acc.1.map size).sum = ∑ k : Fin acc.1.length, size acc.1[k.1] :=
          (Fin.sum_univ_fun_getElem acc.1 size).symm
    _ ≤ ∑ k : Fin acc.1.length, ((contents acc.2 k).map cost).sum :=
          Finset.sum_le_sum (fun k _ => hle k _ (getElem?_eq_getElem k.2))
    _ = (acc.2.map (fun p => cost p.1)).sum := sum_contents cost acc.2 h.bound

/-! ## Properties of filled bins -/

/-- If the add guard refuses items that conflict with an item already in the bin, then the
items of a bin are pairwise free of conflict. -/
theorem Filled.pairwise {R : α → α → Prop}
    (hadd : ∀ {l s a}, Filled fresh add openOk addOk l s → addOk s a → ∀ b ∈ l, R b a)
    {l : List α} {s : σ} : Filled fresh add openOk addOk l s → l.Pairwise R := by
  intro h
  induction h with
  | fresh _ =>
    exact pairwise_singleton R _
  | @add l s a hl hok ih =>
    refine pairwise_append.2 ⟨ih, pairwise_singleton R a, ?_⟩
    intro b hb c hc
    have hca : c = a := by
      simpa using hc
    subst hca
    exact hadd hl hok b hb

end FirstFit
