import Mathlib.Data.Fintype.Powerset

/-!
# Depth-first post-order

`visit` lists the nodes below a node, each after the nodes it leads to.  On an acyclic graph the
reversed list is `Ordered`: every node stands before the nodes it leads to, and only once.

- `visit_spec`  : what a visit adds, from any state that a depth-first search can be in
- `exists_rank` : a finite acyclic graph has a rank that falls along its arrows
-/

namespace PostOrder

open List Finset

variable {K : Type*} (succ : K → List K)

/-- Each node of the list leads only to nodes further down, and stands there once. -/
def Ordered : List K → Prop
  | [] => True
  | k :: rest => k ∉ rest ∧ (∀ n ∈ succ k, n ∈ rest) ∧ Ordered rest

variable {succ} in
theorem Ordered.nodup {ks : List K} : Ordered succ ks → ks.Nodup := by
  induction ks with
  | nil => exact fun _ => nodup_nil
  | cons k ks ih => exact fun h => nodup_cons.2 ⟨h.1, ih h.2.2⟩

variable {before after : List K}

variable {succ} in
/-- What a node of an ordered list leads to stands behind it. -/
theorem Ordered.succ_mem {k : K} :
    Ordered succ (before ++ k :: after) → ∀ n ∈ succ k, n ∈ after := by
  induction before with
  | nil => exact fun h => h.2.1
  | cons j before ih => exact fun h => ih h.2.2

variable {succ} in
/-- A node that nothing before it leads to may be taken out. -/
theorem Ordered.remove {k : K} (hfree : ∀ j ∈ before, k ∉ succ j) :
    Ordered succ (before ++ k :: after) → Ordered succ (before ++ after) := by
  induction before with
  | nil => exact fun h => h.2.2
  | cons j before ih =>
    rintro ⟨hout, hlead, hrest⟩
    refine ⟨?_, ?_, ih (fun i hi => hfree i (mem_cons_of_mem j hi)) hrest⟩
    · intro hin
      apply hout
      rcases mem_append.1 hin with hin | hin
      · exact mem_append_left _ hin
      · exact mem_append_right _ (mem_cons_of_mem k hin)
    · intro n hn
      rcases mem_append.1 (hlead n hn) with hin | hin
      · exact mem_append_left _ hin
      · rcases mem_cons.1 hin with heq | hin
        · exact absurd (heq ▸ hn) (hfree j mem_cons_self)
        · exact mem_append_right _ hin

/-! ## Numbered nodes -/

/-- The numbers below `n`, from the largest. -/
def descending : Nat → List Nat
  | 0 => []
  | n + 1 => n :: descending n

theorem mem_descending {k : Nat} : ∀ {n : Nat}, k ∈ descending n ↔ k < n
  | 0 => by simp [descending]
  | n + 1 => by
    have ih := mem_descending (k := k) (n := n)
    simp only [descending, List.mem_cons, ih]
    omega

theorem descending_add (n : Nat) : ∀ p : Nat,
    descending (n + p) = (descending p).map (fun i => n + i) ++ descending n
  | 0 => rfl
  | p + 1 => by
    have ih := descending_add n p
    change (n + p) :: descending (n + p) = _
    rw [ih]
    rfl

theorem ordered_descending {succ : Nat → List Nat} (hbelow : ∀ k, ∀ n ∈ succ k, n < k) :
    ∀ n : Nat, Ordered succ (descending n)
  | 0 => trivial
  | n + 1 => by
    refine ⟨?_, ?_, ordered_descending hbelow n⟩
    · exact fun hin => lt_irrefl n (mem_descending.1 hin)
    · exact fun j hj => mem_descending.2 (hbelow n j hj)

section Visit

variable [DecidableEq K]

/-- The nodes listed so far and the nodes that were met. -/
def visit : Nat → K → List K × Finset K → List K × Finset K
  | 0, _, st => st
  | fuel + 1, k, (topo, visited) =>
    if k ∈ visited then (topo, visited)
    else
      let (topo, visited) :=
        (succ k).foldl (fun st n => visit fuel n st) (topo, insert k visited)
      (topo ++ [k], visited)

variable {succ} {rank : K → Nat} {level fuel : Nat} {k : K} {st st' st'' : List K × Finset K}

/-- What is listed is in order and was met; what was met and is not listed has at least the rank
`level`. -/
structure Sound (succ : K → List K) (rank : K → Nat) (level : Nat) (st : List K × Finset K) :
    Prop where
  ordered : Ordered succ st.1.reverse
  met : ∀ v ∈ st.1, v ∈ st.2
  above : ∀ v ∈ st.2, v ∈ st.1 ∨ level ≤ rank v

/-- What was listed or met stays so; only listed nodes are met anew, and none of them was met
before. -/
structure Grows (st st' : List K × Finset K) : Prop where
  listed : ∀ v ∈ st.1, v ∈ st'.1
  kept : ∀ v ∈ st.2, v ∈ st'.2
  met : ∀ v ∈ st'.2, v ∈ st'.1 ∨ v ∈ st.2
  fresh : ∀ v ∈ st'.1, v ∈ st.1 ∨ v ∉ st.2

omit [DecidableEq K] in
theorem Grows.refl (st : List K × Finset K) : Grows st st :=
  ⟨fun _ hv => hv, fun _ hv => hv, fun _ hv => Or.inr hv, fun _ hv => Or.inl hv⟩

omit [DecidableEq K] in
theorem Grows.trans (h : Grows st st') (h' : Grows st' st'') : Grows st st'' where
  listed v hv := h'.listed v (h.listed v hv)
  kept v hv := h'.kept v (h.kept v hv)
  met v hv := by
    rcases h'.met v hv with hin | hin
    · exact Or.inl hin
    · exact (h.met v hin).imp (h'.listed v) id
  fresh v hv := by
    rcases h'.fresh v hv with hin | hout
    · exact h.fresh v hin
    · exact Or.inr (fun hin => hout (h.kept v hin))

omit [DecidableEq K] in
theorem Sound.grows (h : Sound succ rank level st) (hgrows : Grows st st')
    (hordered : Ordered succ st'.1.reverse) (hmet : ∀ v ∈ st'.1, v ∈ st'.2) :
    Sound succ rank level st' where
  ordered := hordered
  met := hmet
  above v hv := by
    rcases hgrows.met v hv with hin | hin
    · exact Or.inl hin
    · exact (h.above v hin).imp (hgrows.listed v) id

/-- What a visit of one node does, from any state that the search can be in. -/
structure Visits (succ : K → List K) (rank : K → Nat) (level : Nat) (k : K)
    (st st' : List K × Finset K) : Prop where
  sound : Sound succ rank level st'
  grows : Grows st st'
  listed : k ∈ st'.1

theorem foldl_visit_spec (ns : List K)
    (ih : ∀ n ∈ ns, ∀ st, Sound succ rank level st →
      Visits succ rank level n st (visit succ fuel n st)) :
    ∀ st, Sound succ rank level st →
      Sound succ rank level (ns.foldl (fun st n => visit succ fuel n st) st) ∧
        Grows st (ns.foldl (fun st n => visit succ fuel n st) st) ∧
        ∀ n ∈ ns, n ∈ (ns.foldl (fun st n => visit succ fuel n st) st).1 := by
  induction ns with
  | nil =>
    intro st h
    exact ⟨h, Grows.refl st, fun n hn => absurd hn not_mem_nil⟩
  | cons m ns ihns =>
    intro st h
    have hone := ih m mem_cons_self st h
    obtain ⟨hsound, hgrows, hlisted⟩ := ihns (fun n hn => ih n (mem_cons_of_mem m hn)) _
      hone.sound
    refine ⟨hsound, hone.grows.trans hgrows, ?_⟩
    intro n hn
    rcases mem_cons.1 hn with heq | hmem
    · rw [heq]
      exact hgrows.listed m hone.listed
    · exact hlisted n hmem

/-- With more fuel than the rank of the node, its visit lists it and everything it leads to. -/
theorem visit_spec (hrank : ∀ k, ∀ n ∈ succ k, rank n < rank k) :
    rank k < fuel → rank k < level → Sound succ rank level st →
      Visits succ rank level k st (visit succ fuel k st) := by
  induction fuel generalizing k level st with
  | zero => exact fun hfuel => absurd hfuel (Nat.not_lt_zero _)
  | succ fuel ih =>
    intro hfuel hlevel h
    obtain ⟨topo, visited⟩ := st
    unfold visit
    split
    · next hmet =>
        -- a node that was met below its own level is listed
        have hlisted : k ∈ topo := by
          rcases h.above k hmet with hin | hle
          · exact hin
          · exact absurd hlevel (Nat.not_lt.2 hle)
        exact ⟨h, Grows.refl _, hlisted⟩
    · next hnew =>
        have hbelow : Sound succ rank (rank k) (topo, insert k visited) := by
          constructor
          · exact h.ordered
          · exact fun v hv => mem_insert_of_mem (h.met v hv)
          · intro v hv
            rcases mem_insert.1 hv with heq | hin
            · exact Or.inr (heq ▸ le_refl _)
            · exact (h.above v hin).imp id (le_trans hlevel.le)
        obtain ⟨hsound, hgrows, hlisted⟩ := foldl_visit_spec (succ k)
          (fun n hn st hst => ih (by have := hrank k n hn; omega) (hrank k n hn) hst) _ hbelow
        generalize (succ k).foldl (fun st n => visit succ fuel n st) (topo, insert k visited) =
          st' at hsound hgrows hlisted
        obtain ⟨topo', visited'⟩ := st'
        have hout : k ∉ topo' := by
          intro hin
          rcases hgrows.fresh k hin with hold | hold
          · exact hnew (h.met k hold)
          · exact hold (mem_insert_self k visited)
        have hgrows' : Grows (topo, visited) (topo' ++ [k], visited') := by
          constructor
          · exact fun v hv => mem_append_left _ (hgrows.listed v hv)
          · exact fun v hv => hgrows.kept v (mem_insert_of_mem hv)
          · intro v hv
            rcases hgrows.met v hv with hin | hin
            · exact Or.inl (mem_append_left _ hin)
            · rcases mem_insert.1 hin with heq | hin
              · exact Or.inl (mem_append_right _ (heq ▸ List.mem_singleton_self v))
              · exact Or.inr hin
          · intro v hv
            rcases mem_append.1 hv with hin | hin
            · exact (hgrows.fresh v hin).imp id (fun hne hmem =>
                hne (mem_insert_of_mem hmem))
            · rw [List.mem_singleton.1 hin]
              exact Or.inr hnew
        refine ⟨h.grows hgrows' ?_ ?_, hgrows', ?_⟩
        · rw [reverse_append]
          refine ⟨fun hin => hout (mem_reverse.1 hin), ?_, hsound.ordered⟩
          exact fun n hn => mem_reverse.2 (hlisted n hn)
        · intro v hv
          rcases mem_append.1 hv with hin | hin
          · exact hsound.met v hin
          · rw [List.mem_singleton.1 hin]
            exact hgrows.kept k (mem_insert_self k visited)
        · exact mem_append_right _ (List.mem_singleton_self k)

/-- A search does not leave a set that nothing leads out of. -/
theorem visit_inside {inside : K → Prop} (hclosed : ∀ k, inside k → ∀ n ∈ succ k, inside n)
    (fuel : Nat) : ∀ (k : K) (st : List K × Finset K), inside k → (∀ v ∈ st.1, inside v) →
      ∀ v ∈ (visit succ fuel k st).1, inside v := by
  induction fuel with
  | zero => exact fun _ _ _ hst => hst
  | succ fuel ih =>
    intro k st hk hst
    obtain ⟨topo, visited⟩ := st
    have hfold : ∀ (ns : List K) (st : List K × Finset K), (∀ n ∈ ns, inside n) →
        (∀ v ∈ st.1, inside v) →
          ∀ v ∈ (ns.foldl (fun st n => visit succ fuel n st) st).1, inside v := by
      intro ns
      induction ns with
      | nil => exact fun _ _ h => h
      | cons n ns ihn =>
        intro st hns h
        exact ihn _ (fun m hm => hns m (mem_cons_of_mem n hm))
          (ih n st (hns n mem_cons_self) h)
    unfold visit
    split
    · exact hst
    · intro v hv
      rcases mem_append.1 hv with hin | hin
      · exact hfold (succ k) (topo, insert k visited) (hclosed k hk) hst v hin
      · rw [List.mem_singleton.1 hin]
        exact hk

/-- A search from nothing lists the node and everything below it in order. -/
theorem ordered_visit (hrank : ∀ k, ∀ n ∈ succ k, rank n < rank k) (hfuel : rank k < fuel) :
    Ordered succ (visit succ fuel k ([], ∅)).1.reverse ∧ k ∈ (visit succ fuel k ([], ∅)).1 := by
  have hempty : Sound succ rank (rank k + 1) (([], ∅) : List K × Finset K) :=
    ⟨trivial, fun v hv => absurd hv not_mem_nil, fun v hv => absurd hv (notMem_empty v)⟩
  have hvisits := visit_spec hrank hfuel (Nat.lt_succ_self _) hempty
  exact ⟨hvisits.sound.ordered, hvisits.listed⟩

end Visit

/-! ## Ranks -/

variable {succ} in
/-- In a finite graph without cycles, the number of nodes below a node falls along each arrow. -/
theorem exists_rank [Fintype K] (hacyclic : ∀ k, ¬ Relation.TransGen (fun a b => b ∈ succ a) k k) :
    ∃ rank : K → Nat, (∀ k, ∀ n ∈ succ k, rank n < rank k) ∧ ∀ k, rank k < Fintype.card K := by
  classical
  let below : K → Finset K := fun k =>
    univ.filter (fun v => Relation.TransGen (fun a b => b ∈ succ a) k v)
  have hmem : ∀ k v, v ∈ below k ↔ Relation.TransGen (fun a b => b ∈ succ a) k v := by
    intro k v
    simp [below]
  refine ⟨fun k => (below k).card, ?_, ?_⟩
  · intro k n hn
    apply card_lt_card
    refine (ssubset_iff_of_subset ?_).2 ⟨n, ?_, ?_⟩
    · intro v hv
      exact (hmem k v).2 (Relation.TransGen.head hn ((hmem n v).1 hv))
    · exact (hmem k n).2 (Relation.TransGen.single hn)
    · exact fun hin => hacyclic n ((hmem n n).1 hin)
  · intro k
    have hsub : below k ⊂ univ := by
      refine (ssubset_iff_of_subset (subset_univ _)).2 ⟨k, mem_univ k, ?_⟩
      exact fun hin => hacyclic k ((hmem k k).1 hin)
    exact card_lt_card hsub

end PostOrder
