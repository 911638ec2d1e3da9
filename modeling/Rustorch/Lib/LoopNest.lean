import Rustorch.Lib.Accumulate
import Rustorch.Lib.MixedRadix

/-!
# Loop nests

A nest of counting loops runs its body at every multi-index, the last index fastest.  The body is
partial; `none` is a panic.  A nest is a fold over the list of its multi-indices (`run_eq`), so a
nest that accumulates gives a sum (`run_add`), and one that writes the cells of a buffer in order
gives the list of the values (`run_write`).
-/

namespace LoopNest

open List MixedRadix

/-! ## Multi-indices -/

/-- The multi-indices of a nest, in the order of the loops. -/
def indices : List Nat → List (List Nat)
  | [] => [[]]
  | d :: ds => (range d).flatMap fun i => (indices ds).map (i :: ·)

theorem mem_indices {ds : List Nat} : ∀ {I : List Nat}, I ∈ indices ds ↔ Bounded ds I := by
  induction ds with
  | nil =>
    intro I
    rw [indices, mem_singleton, Bounded, forall₂_nil_left_iff]
  | cons d ds ih =>
    intro I
    rw [indices, mem_flatMap, Bounded, forall₂_cons_left_iff]
    constructor
    · rintro ⟨i, hi, hI⟩
      obtain ⟨K, hK, rfl⟩ := mem_map.1 hI
      exact ⟨i, K, mem_range.1 hi, ih.1 hK, rfl⟩
    · rintro ⟨i, K, hi, hK, rfl⟩
      exact ⟨i, mem_range.2 hi, mem_map_of_mem (ih.2 hK)⟩

theorem nodup_indices (ds : List Nat) : (indices ds).Nodup := by
  induction ds with
  | nil => exact nodup_singleton []
  | cons d ds ih =>
    rw [indices, nodup_flatMap]
    constructor
    · intro i _
      exact ih.map (cons_injective)
    · refine nodup_range.imp ?_
      intro i j hij I hi hj
      obtain ⟨K, _, rfl⟩ := mem_map.1 hi
      obtain ⟨K', _, hK⟩ := mem_map.1 hj
      exact hij (head_eq_of_cons_eq hK).symm

@[simp] theorem length_indices (ds : List Nat) : (indices ds).length = ds.prod := by
  induction ds with
  | nil => rfl
  | cons d ds ih =>
    rw [indices, length_flatMap]
    simp [ih]

/-! ## Sums over the multi-indices -/

section Sums

variable {M : Type} [AddCommMonoid M]

@[simp] theorem sum_indices_nil (f : List Nat → M) : ((indices []).map f).sum = f [] := by
  simp [indices]

theorem sum_indices_cons (d : Nat) (ds : List Nat) (f : List Nat → M) :
    ((indices (d :: ds)).map f).sum =
      ∑ i ∈ Finset.range d, ((indices ds).map fun I => f (i :: I)).sum := by
  rw [indices, map_flatMap]
  induction d with
  | zero => simp
  | succ d ih =>
    rw [range_succ, flatMap_append, sum_append, ih, Finset.sum_range_succ,
      flatMap_singleton, map_map]
    rfl

theorem sum_indices_single {ds I : List Nat} {f : List Nat → M} (hI : Bounded ds I)
    (h : ∀ J, Bounded ds J → J ≠ I → f J = 0) : ((indices ds).map f).sum = f I := by
  have hsingle := sum_map_eq_nsmul_single I f fun J hne hJ => h J (mem_indices.1 hJ) hne
  have hcount := @count_eq_one_of_mem _ instBEqOfDecidableEq _ I _ (nodup_indices ds)
    (mem_indices.2 hI)
  rw [hsingle, hcount, one_nsmul]

theorem sum_position {n : Nat} {p : Option Nat} {q : Nat → Prop} [DecidablePred q] {f : Nat → M} :
    (∀ i < n, q i ↔ p = some i) → (∀ i, p = some i → i < n) →
      p.elim 0 f = ∑ i ∈ Finset.range n, if q i then f i else 0 := by
  intro hq hn
  cases p with
  | none =>
    refine (Finset.sum_eq_zero ?_).symm
    intro i hi
    exact if_neg fun hqi => Option.some_ne_none i ((hq i (Finset.mem_range.1 hi)).1 hqi).symm
  | some j =>
    rw [Finset.sum_eq_single j, if_pos ((hq j (hn j rfl)).2 rfl)]
    · rfl
    · intro i hi hij
      refine if_neg fun hqi => hij ?_
      exact (Option.some.inj ((hq i (Finset.mem_range.1 hi)).1 hqi)).symm
    · intro hnot
      exact absurd (Finset.mem_range.2 (hn j rfl)) hnot

/-! ### Other orders -/

/-- The entries at the given places. -/
def pick (σ I : List Nat) : List Nat :=
  σ.map fun k => I.getD k 0

theorem bounded_pick {σ ds I : List Nat} :
    (∀ k ∈ σ, k < ds.length) → Bounded ds I →
      Bounded (pick σ ds) (pick σ I) := by
  intro hσ hI
  refine forall₂_map_left_iff.2 (forall₂_map_right_iff.2 (forall₂_same.2 ?_))
  intro k hk
  have hkI : k < I.length := by
    rw [← hI.length_eq]
    exact hσ k hk
  rw [getD_eq_getElem _ _ (hσ k hk), getD_eq_getElem _ _ hkI]
  exact (forall₂_iff_get.1 hI).2 k (hσ k hk) hkI

theorem pick_pick {σ τ I : List Nat} (hτ : ∀ k ∈ τ, k < σ.length)
    (hback : pick τ σ = range I.length) : pick τ (pick σ I) = I := by
  have hmap : pick τ (pick σ I) = (pick τ σ).map fun k => I.getD k 0 := by
    rw [pick, pick, pick, map_map]
    refine map_congr_left ?_
    intro k hk
    rw [getD_eq_getElem _ _ (by simpa using hτ k hk), getElem_map, Function.comp_apply,
      getD_eq_getElem _ _ (hτ k hk)]
  rw [hmap, hback]
  apply ext_getElem
  · simp
  · intro i _ hi
    simp [hi]

/-- A sum over a nest does not depend on the order of its loops: `σ` names the loops in another
order, and `τ` is the way back. -/
theorem sum_indices_pick {σ τ ds : List Nat} (f : List Nat → M) (hσ : ∀ k ∈ σ, k < ds.length)
    (hτ : ∀ k ∈ τ, k < σ.length) (hback : pick τ σ = range ds.length)
    (hforth : pick σ τ = range σ.length) :
    ((indices ds).map f).sum = ((indices (pick σ ds)).map fun J => f (pick τ J)).sum := by
  have hdims : pick τ (pick σ ds) = ds := pick_pick hτ hback
  have hperm : (indices ds).Perm ((indices (pick σ ds)).map (pick τ)) := by
    rw [perm_ext_iff_of_nodup (nodup_indices ds)]
    · intro I
      rw [mem_indices, mem_map]
      constructor
      · intro hI
        refine ⟨pick σ I, mem_indices.2 (bounded_pick hσ hI), ?_⟩
        exact pick_pick hτ (by rw [hback, hI.length_eq])
      · rintro ⟨J, hJ, rfl⟩
        have hb := @bounded_pick τ _ J (by simpa [pick] using hτ) (mem_indices.1 hJ)
        rwa [hdims] at hb
    · refine Nodup.map_on ?_ (nodup_indices _)
      intro J hJ K hK hJK
      have hlenJ := (mem_indices.1 hJ).length_eq
      have hlenK := (mem_indices.1 hK).length_eq
      have hσ' : ∀ k ∈ σ, k < τ.length := by
        intro k hk
        have hk' := hσ k hk
        have hds := congrArg length hback
        simp only [pick, length_map, length_range] at hds
        omega
      rw [pick, length_map] at hlenJ hlenK
      have hJ' : pick σ (pick τ J) = J := pick_pick hσ' (by rw [hforth, hlenJ])
      have hK' : pick σ (pick τ K) = K := pick_pick hσ' (by rw [hforth, hlenK])
      rw [← hJ', ← hK', hJK]
  have hsum := (hperm.map f).sum_eq
  rw [map_map] at hsum
  exact hsum

end Sums

/-! ## Running a nest -/

section Run

variable {σ : Type}

/-- `for i in 0..d { … body … }`, nested. -/
def run : List Nat → (List Nat → σ → Option σ) → σ → Option σ
  | [], body, s => body [] s
  | d :: ds, body, s =>
    (range d).foldlM (fun s i => run ds (fun I => body (i :: I)) s) s

variable {α β : Type} {ds : List Nat} {body : List Nat → σ → Option σ}

theorem foldlM_flatMap (g : α → List β) (f : σ → β → Option σ) (xs : List α) :
    ∀ s : σ, (xs.flatMap g).foldlM f s = xs.foldlM (fun s x => (g x).foldlM f s) s := by
  induction xs with
  | nil =>
    intro s
    rfl
  | cons x xs ih =>
    intro s
    rw [flatMap_cons, foldlM_append, foldlM_cons]
    refine congrArg _ ?_
    funext s'
    exact ih s'

theorem run_eq (ds : List Nat) :
    ∀ (body : List Nat → σ → Option σ) (s : σ),
      run ds body s = (indices ds).foldlM (fun s I => body I s) s := by
  induction ds with
  | nil =>
    intro body s
    simp [run, indices]
  | cons d ds ih =>
    intro body s
    rw [run, indices, foldlM_flatMap]
    refine congrArg (fun f => (range d).foldlM f s) ?_
    funext s' i
    rw [ih, foldlM_map]

/-- A step that panics on every state stops the fold. -/
theorem foldlM_eq_none {f : σ → α → Option σ} {a : α} {xs : List α} :
    a ∈ xs → (∀ s, f s a = none) → ∀ s, xs.foldlM f s = none := by
  intro ha hf
  induction xs with
  | nil => cases ha
  | cons x xs ih =>
    intro s
    rw [foldlM_cons]
    rcases mem_cons.1 ha with rfl | ha
    · rw [hf s]
      rfl
    · cases f s x with
      | none => rfl
      | some s' => exact ih ha s'

/-- The body may be replaced where it is run. -/
theorem foldlM_congr {f g : σ → α → Option σ} {xs : List α} :
    ∀ s : σ, (∀ x ∈ xs, ∀ s, f s x = g s x) → xs.foldlM f s = xs.foldlM g s := by
  induction xs with
  | nil =>
    intro s _
    rfl
  | cons x xs ih =>
    intro s h
    rw [foldlM_cons, foldlM_cons, h x mem_cons_self]
    refine congrArg _ ?_
    funext s'
    exact ih s' (fun y hy => h y (mem_cons_of_mem x hy))

theorem run_fold {f : σ → List Nat → σ} (s : σ) :
    (∀ I, Bounded ds I → ∀ s, body I s = some (f s I)) →
      run ds body s = some ((indices ds).foldl f s) := by
  intro h
  rw [run_eq, foldlM_congr s (fun I hI s' => h I (mem_indices.1 hI) s')]
  exact foldlM_pure

/-- The rule for a nest whose state has a property that counts the indices done. -/
theorem run_invariant (P : Nat → σ → Prop) {s : σ} : P 0 s →
      (∀ n I s, (indices ds)[n]? = some I → P n s → ∃ s', body I s = some s' ∧ P (n + 1) s') →
        ∃ s', run ds body s = some s' ∧ P ds.prod s' := by
  have hfold : ∀ (Is : List (List Nat)) (n : Nat) (s : σ), P n s →
      (∀ i I s, Is[i]? = some I → P (n + i) s → ∃ s', body I s = some s' ∧ P (n + i + 1) s') →
        ∃ s', Is.foldlM (fun s I => body I s) s = some s' ∧ P (n + Is.length) s' := by
    intro Is
    induction Is with
    | nil =>
      intro n s hs _
      exact ⟨s, rfl, hs⟩
    | cons I Is ih =>
      intro n s hs hstep
      obtain ⟨s', hbody, hs'⟩ := hstep 0 I s rfl hs
      obtain ⟨s'', hrun, hs''⟩ := ih (n + 1) s' hs' (by
        intro i J t hJ ht
        rw [Nat.add_right_comm] at ht
        obtain ⟨t', ht', hP⟩ := hstep (i + 1) J t hJ ht
        refine ⟨t', ht', ?_⟩
        rwa [Nat.add_right_comm n 1 i])
      refine ⟨s'', ?_, ?_⟩
      · rw [foldlM_cons, hbody]
        exact hrun
      · rwa [length_cons, Nat.add_comm Is.length, ← Nat.add_assoc]
  intro hs hstep
  obtain ⟨s', hrun, hs'⟩ := hfold (indices ds) 0 s hs (by
    intro i I t hI ht
    rw [Nat.zero_add] at ht ⊢
    exact hstep i I t hI ht)
  refine ⟨s', ?_, ?_⟩
  · rwa [run_eq]
  · rwa [Nat.zero_add, length_indices] at hs'

/-- Two nests that run side by side, each over a part of the state. -/
theorem run_zip {τ : Type} {body : List Nat → σ × τ → Option (σ × τ)} {f : List Nat → σ → Option σ}
    {g : List Nat → τ → Option τ} {a a' : σ} {b b' : τ} :
    (∀ I, Bounded ds I → ∀ s t, body I (s, t) = do
      let s' ← f I s
      let t' ← g I t
      some (s', t')) →
      run ds f a = some a' → run ds g b = some b' → run ds body (a, b) = some (a', b') := by
  have hfold : ∀ (Is : List (List Nat)) (a : σ) (b : τ), (∀ I ∈ Is, ∀ s t, body I (s, t) = do
      let s' ← f I s
      let t' ← g I t
      some (s', t')) →
      Is.foldlM (fun s I => f I s) a = some a' → Is.foldlM (fun t I => g I t) b = some b' →
        Is.foldlM (fun s I => body I s) (a, b) = some (a', b') := by
    intro Is
    induction Is with
    | nil =>
      intro a b _ ha hb
      cases ha
      cases hb
      rfl
    | cons I Is ih =>
      intro a b h ha hb
      rw [foldlM_cons] at ha hb ⊢
      obtain ⟨s', hs, ha⟩ := Option.bind_eq_some_iff.1 ha
      obtain ⟨t', ht, hb⟩ := Option.bind_eq_some_iff.1 hb
      rw [h I mem_cons_self, hs, ht]
      exact ih s' t' (fun K hK => h K (mem_cons_of_mem I hK)) ha hb
  intro h ha hb
  rw [run_eq] at ha hb ⊢
  exact hfold _ a b (fun I hI => h I (mem_indices.1 hI)) ha hb

/-- A nest that adds a term at every multi-index. -/
theorem run_add {M : Type} [AddCommMonoid M] {body : List Nat → M → Option M} {f : List Nat → M}
    (acc : M) : (∀ I, Bounded ds I → ∀ s, body I s = some (s + f I)) →
      run ds body acc = some (acc + ((indices ds).map f).sum) := by
  intro h
  rw [run_fold acc h]
  refine congrArg some ?_
  induction indices ds generalizing acc with
  | nil => simp
  | cons I Is ih => rw [foldl_cons, ih, map_cons, sum_cons, add_assoc]

/-! ## Filling a buffer -/

variable {α : Type}

/-- `buf[i] = v`. -/
def put (buf : List α) (i : Nat) (v : α) : Option (List α) :=
  if i < buf.length then
    some (buf.set i v)
  else
    none

theorem put_append {xs ys : List α} {y v : α} :
    put (xs ++ y :: ys) xs.length v = some (xs ++ [v] ++ ys) := by
  rw [put, if_pos (by simp), set_append_right _ _ le_rfl, Nat.sub_self, set_cons_zero,
    append_assoc, singleton_append]

/-- Writing consecutive cells, whatever they held. -/
theorem foldlM_put (v : β → α) (xs : List β) :
    ∀ (pos : β → Nat) (done buf : List α), buf.length = xs.length →
      (∀ i x, xs[i]? = some x → pos x = done.length + i) →
        xs.foldlM (fun out x => put out (pos x) (v x)) (done ++ buf) = some (done ++ xs.map v) := by
  induction xs with
  | nil =>
    intro pos done buf hlen _
    rw [length_eq_zero_iff.1 hlen]
    rfl
  | cons x xs ih =>
    intro pos done buf hlen hpos
    cases buf with
    | nil => cases hlen
    | cons b buf =>
      have hx : pos x = done.length := hpos 0 x rfl
      have hrest := ih pos (done ++ [v x]) buf (Nat.succ.inj hlen) (by
        intro i y hy
        rw [hpos (i + 1) y hy, length_append, length_singleton]
        omega)
      rw [foldlM_cons, hx, put_append, map_cons]
      refine hrest.trans ?_
      rw [append_assoc, singleton_append]

/-- The place of a multi-index in the order of the loops. -/
def position (ds I : List Nat) : Nat :=
  value ds.reverse I.reverse

theorem position_cons {I : List Nat} (d i : Nat) :
    I.length = ds.length → position (d :: ds) (i :: I) = i * ds.prod + position ds I := by
  intro hlen
  rw [position, reverse_cons, reverse_cons, value_concat _ _ _ _ (by simpa),
    (reverse_perm ds).prod_eq, position, Nat.add_comm, Nat.mul_comm]

theorem position_indices (ds : List Nat) :
    ∀ (i : Nat) (I : List Nat), (indices ds)[i]? = some I → position ds I = i := by
  induction ds with
  | nil =>
    intro i I h
    rw [indices, getElem?_singleton] at h
    split_ifs at h with hi
    cases h
    rw [hi]
    rfl
  | cons d ds ih =>
    -- The rows of one outermost index are `ds.prod` long.
    intro i I h
    induction d generalizing i with
    | zero =>
      cases h
    | succ d ihd =>
      have hsplit : indices ((d + 1) :: ds) = indices (d :: ds) ++ (indices ds).map (d :: ·) := by
        rw [indices, range_succ, flatMap_append, flatMap_singleton]
        rfl
      rw [hsplit] at h
      by_cases hi : i < (indices (d :: ds)).length
      · rw [getElem?_append_left hi] at h
        have hmem := mem_indices.1 (mem_of_getElem? h)
        obtain ⟨c, K, _, hK, rfl⟩ := forall₂_cons_left_iff.1 hmem
        have hlen : K.length = ds.length := hK.length_eq.symm
        rw [position_cons _ _ hlen, ← position_cons d _ hlen]
        exact ihd i h
      · rw [getElem?_append_right (not_lt.1 hi), getElem?_map] at h
        obtain ⟨K, hK, rfl⟩ := Option.map_eq_some_iff.1 h
        have hlen : K.length = ds.length :=
          (mem_indices.1 (mem_of_getElem? hK)).length_eq.symm
        rw [position_cons _ _ hlen, ih _ _ hK]
        rw [length_indices, prod_cons] at hi ⊢
        omega

/-- A nest that writes the cell of every multi-index. -/
theorem run_write {body : List Nat → List α → Option (List α)} {v : List Nat → α} {buf : List α} :
    buf.length = ds.prod →
      (∀ I, Bounded ds I → ∀ out, body I out = put out (position ds I) (v I)) →
        run ds body buf = some ((indices ds).map v) := by
  intro hlen hbody
  rw [run_eq, foldlM_congr buf (fun I hI out => hbody I (mem_indices.1 hI) out)]
  have hput := foldlM_put v (indices ds) (position ds) [] buf (by rw [hlen, length_indices]) (by
    intro i I hI
    rw [position_indices ds i I hI, length_nil, Nat.zero_add])
  simpa only [nil_append] using hput

end Run

end LoopNest

/-!
# Loop nests that add into cells

A nest inside a nest is one nest (`run_nested`), and a nest that adds a value into a cell of a
buffer at every multi-index leaves in each cell the sum of what was added there (`run_addAt`).
-/

namespace LoopNest

open Accumulate

section Nested

variable {σ : Type} {ds es : List Nat}

theorem run_append (ds es : List Nat) : ∀ (body : List Nat → σ → Option σ) (s : σ),
    run (ds ++ es) body s = run ds (fun I s => run es (fun J => body (I ++ J)) s) s := by
  induction ds with
  | nil =>
    intro body s
    rfl
  | cons d ds ih =>
    intro body s
    rw [List.cons_append, run, run]
    congr 1
    funext s' i
    rw [ih]
    rfl

theorem run_congr {body body' : List Nat → σ → Option σ} (s : σ)
    (h : ∀ I, MixedRadix.Bounded ds I → ∀ s, body I s = body' I s) :
    run ds body s = run ds body' s := by
  rw [run_eq, run_eq, foldlM_congr s fun I hI s' => h I (mem_indices.1 hI) s']

theorem run_nested {outer body : List Nat → σ → Option σ} (s : σ)
    (h : ∀ I, MixedRadix.Bounded ds I → ∀ s, outer I s = run es (fun J => body (I ++ J)) s) :
    run ds outer s = run (ds ++ es) body s := by
  rw [run_append, run_congr s h]

/-- Two bodies, each on its own part of the state. -/
def both {τ : Type} (f : List Nat → σ → Option σ) (g : List Nat → τ → Option τ) (I : List Nat)
    (st : σ × τ) : Option (σ × τ) := do
  let s ← f I st.1
  let t ← g I st.2
  some (s, t)

theorem run_both {τ : Type} {f : List Nat → σ → Option σ} {g : List Nat → τ → Option τ} {a a' : σ}
    {b b' : τ} : run ds f a = some a' → run ds g b = some b' →
      run ds (both f g) (a, b) = some (a', b') :=
  run_zip fun _ _ _ _ => rfl

end Nested

section Sums

variable {M : Type} [AddCommMonoid M] {ds : List Nat}

variable {β : Type}

theorem foldlM_addAt (cell : β → Nat) (v : β → M) (xs : List β) : ∀ buf : List M,
    xs.foldlM (fun out x => addAt [(cell x, v x)] out) buf =
      addAt (xs.map fun x => (cell x, v x)) buf := by
  induction xs with
  | nil =>
    intro buf
    rfl
  | cons x xs ih =>
    intro buf
    rw [List.foldlM_cons, List.map_cons, addAt, addAt]
    cases buf[cell x]? with
    | none => rfl
    | some a => exact ih _

theorem sum_filter_cell (cell : β → Nat) (v : β → M) (xs : List β) (j : Nat) :
    (((xs.map fun x => (cell x, v x)).filter fun p => p.1 = j).map Prod.snd).sum =
      (xs.map fun x => if cell x = j then v x else 0).sum := by
  induction xs with
  | nil => rfl
  | cons x xs ih =>
    rw [List.map_cons, List.map_cons, List.sum_cons, ← ih]
    by_cases h : cell x = j <;> simp [h]

theorem run_addAt {body : List Nat → List M → Option (List M)} {cell : List Nat → Nat}
    {v : List Nat → M} {n : Nat} (hcell : ∀ I, MixedRadix.Bounded ds I → cell I < n)
    (hbody : ∀ I, MixedRadix.Bounded ds I → ∀ out, body I out = addAt [(cell I, v I)] out) :
    run ds body (List.replicate n 0) = some ((List.range n).map fun j =>
      ((indices ds).map fun I => if cell I = j then v I else 0).sum) := by
  rw [run_congr _ hbody, run_eq, foldlM_addAt, addAt_eq]
  · rw [List.length_replicate]
    refine congrArg some (List.map_congr_left fun j hj => ?_)
    have hget : (List.replicate n (0 : M)).getD j 0 = 0 := by
      simp [List.mem_range.1 hj]
    rw [hget, zero_add, sum_filter_cell]
  · intro p hp
    obtain ⟨I, hI, rfl⟩ := List.mem_map.1 hp
    rw [List.length_replicate]
    exact hcell I (mem_indices.1 hI)

end Sums

end LoopNest
