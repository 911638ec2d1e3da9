import Mathlib.Algebra.BigOperators.Finprod

/-!
# Sums over the paths of an acyclic graph

Every node has a list of arrows; an arrow leads to a node, to a sink, or nowhere, and carries a map.
`along` composes the maps of a path and `total` sums it over all paths from a node to an end.

- `total_eq`  : the sum over the paths is a sum over the first arrows
- `total_add` : it is additive in the value that enters
-/

namespace PathSum

open Set List

variable {K T M : Type*}

/-- The arrows of each node, and the map that each of them carries. -/
structure Net (K T M : Type*) where
  arrows : K → List (Option (K ⊕ T))
  map : K → Nat → M → M

namespace Net

variable (net : Net K T M)

/-- Where a path leads, given by the positions of its arrows. -/
def follow : K → List Nat → Option (K ⊕ T)
  | k, [] => some (.inl k)
  | k, i :: p =>
    match (net.arrows k)[i]? with
    | some (some (.inl n)) => follow n p
    | some (some (.inr t)) => if p = [] then some (.inr t) else none
    | _ => none

/-- The composition of the maps along a path. -/
def along : K → List Nat → M → M
  | _, [], x => x
  | k, i :: p, x =>
    match (net.arrows k)[i]? with
    | some (some (.inl n)) => along n p (net.map k i x)
    | _ => net.map k i x

def pathsTo (k : K) (t : K ⊕ T) : Set (List Nat) :=
  {p | net.follow k p = some t}

variable {net} {k : K} {t : K ⊕ T} {x y : M} {rank : K → Nat}

/-- The rank falls along every arrow to a node. -/
def Falls (net : Net K T M) (rank : K → Nat) : Prop :=
  ∀ k n, some (Sum.inl n) ∈ net.arrows k → rank n < rank k

/-- The rest of the paths to an end whose first arrow is the `i`-th one. -/
def rests (net : Net K T M) (k : K) (t : K ⊕ T) (i : Nat) : Set (List Nat) :=
  {p | net.follow k (i :: p) = some t}

theorem pathsTo_eq : net.pathsTo k t = {p | p = [] ∧ t = .inl k} ∪
    ⋃ i ∈ (Finset.range (net.arrows k).length : Set Nat), (i :: ·) '' net.rests k t i := by
  ext p
  cases p with
  | nil =>
    simp [pathsTo, follow, eq_comm]
  | cons i p =>
    have hlt : net.follow k (i :: p) = some t → i < (net.arrows k).length := by
      intro h
      by_contra hle
      unfold follow at h
      rw [getElem?_eq_none (Nat.le_of_not_lt hle)] at h
      cases h
    simp [pathsTo, rests]
    exact hlt

theorem rests_node {i : Nat} {n : K} (h : (net.arrows k)[i]? = some (some (.inl n))) :
    net.rests k t i = net.pathsTo n t := by
  ext p
  simp [rests, pathsTo, follow, h]

theorem rests_sink {i : Nat} {s : T} (h : (net.arrows k)[i]? = some (some (.inr s))) :
    net.rests k t i = {p | p = [] ∧ t = .inr s} := by
  ext p
  simp only [rests, follow, h, mem_ofPred_eq]
  split
  · next hp => simp [hp, eq_comm]
  · next hp => simp [hp]

theorem rests_none {i : Nat} (h : (net.arrows k)[i]? = some none) : net.rests k t i = ∅ := by
  ext p
  simp [rests, follow, h]

theorem finite_pathsTo (hfalls : Falls net rank) : (net.pathsTo k t).Finite := by
  induction hr : rank k using Nat.strong_induction_on generalizing k with
  | _ r ih =>
    rw [pathsTo_eq]
    apply Finite.union
    · exact (finite_singleton []).subset (fun p hp => hp.1)
    · apply (Finset.finite_toSet _).biUnion
      intro i hi
      apply Finite.image
      have hlt : i < (net.arrows k).length := by simpa using hi
      have hget := getElem?_eq_getElem hlt
      have hmem := getElem_mem hlt
      cases harrow : (net.arrows k)[i] with
      | none =>
        rw [harrow] at hget
        rw [rests_none hget]
        exact finite_empty
      | some d =>
        rw [harrow] at hget hmem
        cases d with
        | inl n =>
          rw [rests_node hget]
          exact ih (rank n) (hr ▸ hfalls k n hmem) rfl
        | inr s =>
          rw [rests_sink hget]
          exact (finite_singleton []).subset (fun p hp => hp.1)

/-- Where a set of nodes is closed under the arrows, paths to nodes stay in it. -/
theorem follow_node {ks : List K} {n : K}
    (hclosed : ∀ k ∈ ks, ∀ n, some (Sum.inl n) ∈ net.arrows k → n ∈ ks) :
    ∀ (p : List Nat) (k : K), k ∈ ks → net.follow k p = some (.inl n) → n ∈ ks := by
  intro p
  induction p with
  | nil =>
    intro k hk hfollow
    cases hfollow
    exact hk
  | cons i p ih =>
    intro k hk hfollow
    unfold follow at hfollow
    split at hfollow
    · next m harrow => exact ih m (hclosed k hk m (mem_of_getElem? harrow)) hfollow
    · next s harrow =>
        split at hfollow
        · cases hfollow
        · cases hfollow
    · cases hfollow

/-! ## Sums -/

section Sums

variable [AddCommMonoid M]

structure Additive (net : Net K T M) : Prop where
  zero : ∀ k i, net.map k i 0 = 0
  add : ∀ k i x y, net.map k i (x + y) = net.map k i x + net.map k i y

variable (net) in
noncomputable def total (t : K ⊕ T) (k : K) (x : M) : M :=
  ∑ᶠ p ∈ net.pathsTo k t, net.along k p x

variable (net) in
/-- What a value contributes to an end once it has come through an arrow. -/
noncomputable def enter [DecidableEq K] [DecidableEq T] (t : K ⊕ T) : Option (K ⊕ T) → M → M
  | some (.inl n), y => net.total t n y
  | some (.inr s), y => if t = .inr s then y else 0
  | none, _ => 0


theorem total_rests [DecidableEq K] [DecidableEq T] {i : Nat} (hlt : i < (net.arrows k).length) :
    ∑ᶠ p ∈ net.rests k t i, net.along k (i :: p) x =
      net.enter t (net.arrows k)[i] (net.map k i x) := by
  have hget := getElem?_eq_getElem hlt
  cases harrow : (net.arrows k)[i] with
  | none =>
    rw [harrow] at hget
    rw [rests_none hget, finsum_mem_empty]
    rfl
  | some d =>
    rw [harrow] at hget
    cases d with
    | inl n =>
      rw [rests_node hget]
      simp only [along, hget]
      rfl
    | inr s =>
      rw [rests_sink hget]
      simp only [along, hget, enter]
      split
      · next ht => simp [ht]
      · next ht => simp [ht]

theorem total_eq [DecidableEq K] [DecidableEq T] (hfalls : Falls net rank) :
    net.total t k x = (if t = .inl k then x else 0) +
      ((range (net.arrows k).length).map (fun i =>
        net.enter t ((net.arrows k)[i]?.getD none) (net.map k i x))).sum := by
  have hfinite : ∀ i, (net.rests k t i).Finite := by
    intro i
    have himage : ((i :: ·) '' net.rests k t i).Finite := by
      apply (finite_pathsTo (k := k) (t := t) hfalls).subset
      rintro _ ⟨p, hp, rfl⟩
      exact hp
    exact himage.of_finite_image (fun p _ q _ h => (cons.inj h).2)
  -- a path that is not empty starts with one arrow, and goes on with a path from its end
  have hdisjoint : ((Finset.range (net.arrows k).length : Finset Nat) : Set Nat).PairwiseDisjoint
      (fun i => (i :: ·) '' net.rests k t i) := by
    intro i _ j _ hij
    apply Set.disjoint_left.2
    rintro _ ⟨p, _, rfl⟩ ⟨q, _, heq⟩
    exact hij (cons.inj heq).1.symm
  have hnil : ({p | p = [] ∧ t = .inl k} : Set (List Nat)).Finite :=
    (finite_singleton []).subset (fun p hp => hp.1)
  have harms : (⋃ i ∈ ((Finset.range (net.arrows k).length : Finset Nat) : Set Nat),
      (i :: ·) '' net.rests k t i).Finite :=
    (Finset.finite_toSet _).biUnion (fun i _ => (hfinite i).image _)
  have hapart : Disjoint ({p | p = [] ∧ t = .inl k} : Set (List Nat))
      (⋃ i ∈ ((Finset.range (net.arrows k).length : Finset Nat) : Set Nat),
        (i :: ·) '' net.rests k t i) := by
    apply Set.disjoint_left.2
    rintro p ⟨rfl, _⟩ hp
    obtain ⟨i, hi⟩ := Set.mem_iUnion.1 hp
    obtain ⟨_, q, _, hq⟩ := Set.mem_iUnion.1 hi
    cases hq
  have hfirst : ∑ᶠ p ∈ ({p | p = [] ∧ t = .inl k} : Set (List Nat)), net.along k p x =
      if t = .inl k then x else 0 := by
    split
    · next ht => simp [ht, along]
    · next ht => simp [ht]
  have harm : ∀ i ∈ Finset.range (net.arrows k).length,
      ∑ᶠ p ∈ (i :: ·) '' net.rests k t i, net.along k p x =
        net.enter t ((net.arrows k)[i]?.getD none) (net.map k i x) := by
    intro i hi
    have hlt := Finset.mem_range.1 hi
    rw [finsum_mem_image (fun p _ q _ h => (cons.inj h).2), total_rests hlt,
      getElem?_eq_getElem hlt, Option.getD_some]
  calc
    net.total t k x
        = ∑ᶠ p ∈ ({p | p = [] ∧ t = .inl k} : Set (List Nat)), net.along k p x +
            ∑ᶠ i ∈ ((Finset.range (net.arrows k).length : Finset Nat) : Set Nat),
              ∑ᶠ p ∈ (i :: ·) '' net.rests k t i, net.along k p x := by
          unfold total
          rw [pathsTo_eq, finsum_mem_union hapart hnil harms, finsum_mem_biUnion hdisjoint
            (Finset.finite_toSet _) (fun i _ => (hfinite i).image _)]
    _ = (if t = .inl k then x else 0) + ∑ i ∈ Finset.range (net.arrows k).length,
          net.enter t ((net.arrows k)[i]?.getD none) (net.map k i x) := by
          rw [hfirst, finsum_mem_coe_finset, Finset.sum_congr rfl harm]
    _ = _ := rfl

section

variable (hadd : Additive net)

include hadd

theorem along_zero : ∀ (p : List Nat) (k : K), net.along k p 0 = 0 := by
  intro p
  induction p with
  | nil => exact fun _ => rfl
  | cons i p ih =>
    intro k
    unfold along
    rw [hadd.zero]
    split
    · exact ih _
    · rfl

theorem along_add : ∀ (p : List Nat) (k : K) (x y : M),
    net.along k p (x + y) = net.along k p x + net.along k p y := by
  intro p
  induction p with
  | nil => exact fun _ _ _ => rfl
  | cons i p ih =>
    intro k x y
    unfold along
    rw [hadd.add]
    split
    · exact ih _ _ _
    · rfl

theorem total_zero : net.total t k 0 = 0 := by
  unfold total
  simp only [along_zero hadd]
  exact finsum_mem_zero _

theorem total_add (hfalls : Falls net rank) :
    net.total t k (x + y) = net.total t k x + net.total t k y := by
  unfold total
  simp only [along_add hadd]
  exact finsum_mem_add_distrib (finite_pathsTo hfalls)

end

theorem total_of_unreached (h : net.pathsTo k t = ∅) : net.total t k x = 0 := by
  unfold total
  rw [h, finsum_mem_empty]

/-- A node on no cycle comes to itself by the empty path only. -/
theorem total_self (h : ∀ i p, net.follow k (i :: p) ≠ some (.inl k)) :
    net.total (.inl k) k x = x := by
  have hpaths : net.pathsTo k (.inl k) = {[]} := by
    ext p
    cases p with
    | nil => simp [pathsTo, follow]
    | cons i p => simp [pathsTo, h i p]
  unfold total
  rw [hpaths, finsum_mem_singleton]
  rfl

end Sums

end Net

end PathSum
