import Mathlib.Data.Nat.Init
import Mathlib.Logic.Basic

/-!
# Chains of intervals

Nodes are intervals cut from regions.  The nodes of a region that are not empty are linked in both
directions in address order, and neighbours touch.  `split` cuts a node in two, `merge` gives a
node the interval of its right neighbour and empties that one, `push` adds a node on its own and
`clear` empties whole regions.  Each keeps the chain.

- `Chain` : the links agree, neighbours touch, and nodes that are not empty lie apart
-/

namespace IntervalChain

structure Node where
  lo : Nat
  size : Nat
  owner : Nat
  prev : Option Nat
  next : Option Nat

def Node.Apart (a b : Node) : Prop :=
  a.lo + a.size ≤ b.lo ∨ b.lo + b.size ≤ a.lo

/-- The bounds of a region. -/
structure Region where
  lo : Nat
  hi : Nat

def Active (f : Nat → Node) (i : Nat) : Prop :=
  0 < (f i).size

structure Chain (region : Nat → Region) (f : Nat → Node) : Prop where
  next : ∀ i j, Active f i → (f i).next = some j → Active f j ∧ (f j).prev = some i ∧
    (f j).lo = (f i).lo + (f i).size ∧ (f j).owner = (f i).owner
  prev : ∀ i j, Active f i → (f i).prev = some j → Active f j ∧ (f j).next = some i
  apart : ∀ i j, i ≠ j → Active f i → Active f j → (f i).Apart (f j)
  inside : ∀ i, Active f i → (region (f i).owner).lo ≤ (f i).lo ∧
    (f i).lo + (f i).size ≤ (region (f i).owner).hi

theorem Node.Apart.symm {a b : Node} : a.Apart b → b.Apart a :=
  Or.symm

variable {region : Nat → Region} {f : Nat → Node} {i j l r n w : Nat}

namespace Chain

/-- A node is not its own neighbour, and a right neighbour lies behind it. -/
theorem lo_lt_next (h : Chain region f) (hi : Active f i) :
    (f i).next = some j → (f i).lo < (f j).lo := by
  intro hnext
  obtain ⟨_, _, hlo, _⟩ := h.next i j hi hnext
  unfold Active at hi
  omega

theorem ne_next (h : Chain region f) (hi : Active f i) : (f i).next = some j → j ≠ i := by
  intro hnext heq
  have hlt := h.lo_lt_next hi hnext
  rw [heq] at hlt
  omega

/-- Only one node has a given right neighbour. -/
theorem next_inj (h : Chain region f) (hi : Active f i) (hj : Active f j) :
    (f i).next = some n → (f j).next = some n → i = j := by
  intro hin hjn
  have hi' := (h.next i n hi hin).2.1
  have hj' := (h.next j n hj hjn).2.1
  rw [hi'] at hj'
  exact Option.some.inj hj'

end Chain

/-! ## Merging -/

def merge (f : Nat → Node) (l r : Nat) (k : Nat) : Node :=
  if k = l then
    { f l with size := (f l).size + (f r).size, next := (f r).next }
  else if k = r then
    { f r with size := 0 }
  else if (f r).next = some k then
    { f k with prev := some l }
  else
    f k

theorem merge_left (f : Nat → Node) (l r : Nat) :
    merge f l r l = { f l with size := (f l).size + (f r).size, next := (f r).next } :=
  if_pos rfl

theorem merge_right (hne : r ≠ l) : merge f l r r = { f r with size := 0 } := by
  rw [merge, if_neg hne, if_pos rfl]

variable {k : Nat}

/-- The other nodes keep everything but a link back. -/
theorem merge_other (hl : k ≠ l) (hr : k ≠ r) :
    merge f l r k = { f k with prev := if (f r).next = some k then some l else (f k).prev } := by
  rw [merge, if_neg hl, if_neg hr]
  split
  · rfl
  · rfl

theorem active_merge (h : Chain region f) (hl : Active f l) (hnext : (f l).next = some r) :
    Active (merge f l r) k ↔ Active f k ∧ k ≠ r := by
  have hne : r ≠ l := h.ne_next hl hnext
  unfold Active
  by_cases hkl : k = l
  · subst hkl
    rw [merge_left]
    exact ⟨fun _ => ⟨hl, hne.symm⟩, fun _ => by simp only; omega⟩
  · by_cases hkr : k = r
    · subst hkr
      rw [merge_right hne]
      simp
    · rw [merge_other hkl hkr]
      simp [hkr]

theorem Chain.merge (h : Chain region f) (hl : Active f l) (hnext : (f l).next = some r) :
    Chain region (merge f l r) := by
  obtain ⟨hr, hback, hlo, howner⟩ := h.next l r hl hnext
  have hne : r ≠ l := h.ne_next hl hnext
  constructor
  · intro i j hactive hij
    obtain ⟨hi, hir⟩ := (active_merge h hl hnext).1 hactive
    by_cases hil : i = l
    · -- the merged node goes on where the right one did
      subst hil
      rw [merge_left] at hij ⊢
      obtain ⟨hj, hjprev, hjlo, hjowner⟩ := h.next r j hr hij
      have hjr : j ≠ r := h.ne_next hr hij
      have hji : j ≠ i := by
        intro heq
        have hlt := h.lo_lt_next hr hij
        rw [heq, hlo] at hlt
        omega
      refine ⟨(active_merge h hl hnext).2 ⟨hj, hjr⟩, ?_⟩
      rw [merge_other hji hjr, if_pos hij]
      exact ⟨rfl, by simp only; omega, by simp only [hjowner, howner]⟩
    · rw [merge_other hil hir] at hij ⊢
      obtain ⟨hj, hjprev, hjlo, hjowner⟩ := h.next i j hi hij
      have hjr : j ≠ r := by
        intro heq
        rw [heq] at hij
        exact hil (h.next_inj hi hl hij hnext)
      refine ⟨(active_merge h hl hnext).2 ⟨hj, hjr⟩, ?_⟩
      by_cases hjl : j = l
      · subst hjl
        rw [merge_left]
        exact ⟨hjprev, hjlo, hjowner⟩
      · have hrj : (f r).next ≠ some j := by
          intro heq
          exact hir (h.next_inj hi hr hij heq)
        rw [merge_other hjl hjr, if_neg hrj]
        exact ⟨hjprev, hjlo, hjowner⟩
  · intro i j hactive hij
    obtain ⟨hi, hir⟩ := (active_merge h hl hnext).1 hactive
    by_cases hil : i = l
    · subst hil
      rw [merge_left] at hij
      obtain ⟨hj, hjnext⟩ := h.prev i j hi hij
      have hji : j ≠ i := (h.ne_next hj hjnext).symm
      have hjr : j ≠ r := by
        intro heq
        have hlt := h.lo_lt_next hj hjnext
        rw [heq, hlo] at hlt
        omega
      refine ⟨(active_merge h hl hnext).2 ⟨hj, hjr⟩, ?_⟩
      rw [merge_other hji hjr]
      exact hjnext
    · rw [merge_other hil hir] at hij
      by_cases hri : (f r).next = some i
      · -- what followed the right half now looks back at the merged node
        rw [if_pos hri] at hij
        cases hij
        refine ⟨(active_merge h hl hnext).2 ⟨hl, hne.symm⟩, ?_⟩
        rw [merge_left]
        exact hri
      · rw [if_neg hri] at hij
        obtain ⟨hj, hjnext⟩ := h.prev i j hi hij
        have hjr : j ≠ r := by
          intro heq
          rw [heq] at hjnext
          exact hri hjnext
        have hjl : j ≠ l := by
          intro heq
          rw [heq, hnext] at hjnext
          exact hir (Option.some.inj hjnext).symm
        refine ⟨(active_merge h hl hnext).2 ⟨hj, hjr⟩, ?_⟩
        rw [merge_other hjl hjr]
        exact hjnext
  · -- a node apart from both halves is apart from the whole
    have hleft : ∀ k, k ≠ l → k ≠ r → Active f k → (IntervalChain.merge f l r l).Apart (f k) := by
      intro k hkl hkr hk
      have h₁ := h.apart l k hkl.symm hl hk
      have h₂ := h.apart r k hkr.symm hr hk
      rw [merge_left]
      unfold Node.Apart at h₁ h₂ ⊢
      unfold Active at hk hl hr
      simp only
      omega
    intro i j hij hiactive hjactive
    obtain ⟨hi, hir⟩ := (active_merge h hl hnext).1 hiactive
    obtain ⟨hj, hjr⟩ := (active_merge h hl hnext).1 hjactive
    by_cases hil : i = l
    · subst hil
      have hji : j ≠ i := fun heq => hij heq.symm
      have hapart := hleft j hji hjr hj
      rw [merge_other hji hjr]
      exact hapart
    · by_cases hjl : j = l
      · subst hjl
        have hapart := (hleft i hil hir hi).symm
        rw [merge_other hil hir]
        exact hapart
      · rw [merge_other hil hir, merge_other hjl hjr]
        exact h.apart i j hij hi hj
  · intro i hactive
    obtain ⟨hi, hir⟩ := (active_merge h hl hnext).1 hactive
    by_cases hil : i = l
    · subst hil
      -- both halves lie in one region
      have h₁ := h.inside i hi
      have h₂ := h.inside r hr
      rw [howner] at h₂
      rw [merge_left]
      simp only
      omega
    · rw [merge_other hil hir]
      exact h.inside i hi

/-! ## Splitting -/

def split (f : Nat → Node) (i n w k : Nat) : Node :=
  if k = i then
    { f i with size := w, next := some n }
  else if k = n then
    { lo := (f i).lo + w, size := (f i).size - w, owner := (f i).owner, prev := some i,
      next := (f i).next }
  else if (f i).next = some k then
    { f k with prev := some n }
  else
    f k

theorem split_left (f : Nat → Node) (i n w : Nat) :
    split f i n w i = { f i with size := w, next := some n } :=
  if_pos rfl

theorem split_new (hne : n ≠ i) : split f i n w n =
    { lo := (f i).lo + w, size := (f i).size - w, owner := (f i).owner, prev := some i,
      next := (f i).next } := by
  rw [split, if_neg hne, if_pos rfl]

theorem split_other (hi : k ≠ i) (hn : k ≠ n) :
    split f i n w k = { f k with prev := if (f i).next = some k then some n else (f k).prev } := by
  rw [split, if_neg hi, if_neg hn]
  split
  · rfl
  · rfl

theorem active_split (hi : Active f i) (hn : ¬ Active f n) (hw : 0 < w) (hlt : w < (f i).size) :
    Active (split f i n w) k ↔ Active f k ∨ k = n := by
  have hne : n ≠ i := by
    rintro rfl
    exact hn hi
  unfold Active at hi hn ⊢
  by_cases hki : k = i
  · subst hki
    rw [split_left]
    exact ⟨fun _ => Or.inl hi, fun _ => hw⟩
  · by_cases hkn : k = n
    · subst hkn
      rw [split_new hne]
      simp only [or_true, iff_true]
      omega
    · rw [split_other hki hkn]
      simp [hkn]

variable (h : Chain region f)

include h

theorem Chain.split (hi : Active f i) (hn : ¬ Active f n) (hw : 0 < w) (hlt : w < (f i).size) :
    Chain region (split f i n w) := by
  have hne : n ≠ i := by
    rintro rfl
    exact hn hi
  have hact : ∀ {k}, Active (IntervalChain.split f i n w) k ↔ Active f k ∨ k = n :=
    active_split hi hn hw hlt
  have hnew : ∀ k, Active f k → k ≠ n := by
    rintro k hk rfl
    exact hn hk
  constructor
  · intro j k hactive hjk
    by_cases hji : j = i
    · -- the left part is followed by the new node
      subst hji
      rw [split_left] at hjk ⊢
      cases hjk
      rw [split_new hne]
      exact ⟨hact.2 (Or.inr rfl), rfl, rfl, rfl⟩
    · by_cases hjn : j = n
      · -- the new node goes on where the whole one did
        subst hjn
        rw [split_new hne] at hjk ⊢
        obtain ⟨hk, _, hklo, hkowner⟩ := h.next i k hi hjk
        have hki : k ≠ i := h.ne_next hi hjk
        refine ⟨hact.2 (Or.inl hk), ?_⟩
        rw [split_other hki (hnew k hk), if_pos hjk]
        exact ⟨rfl, by simp only; omega, hkowner⟩
      · have hj : Active f j := (hact.1 hactive).resolve_right hjn
        rw [split_other hji hjn] at hjk ⊢
        obtain ⟨hk, hkprev, hklo, hkowner⟩ := h.next j k hj hjk
        refine ⟨hact.2 (Or.inl hk), ?_⟩
        by_cases hki : k = i
        · subst hki
          rw [split_left]
          exact ⟨hkprev, hklo, hkowner⟩
        · have hik : (f i).next ≠ some k := by
            intro heq
            exact hji (h.next_inj hj hi hjk heq)
          rw [split_other hki (hnew k hk), if_neg hik]
          exact ⟨hkprev, hklo, hkowner⟩
  · intro j k hactive hjk
    by_cases hji : j = i
    · subst hji
      rw [split_left] at hjk
      obtain ⟨hk, hknext⟩ := h.prev j k hi hjk
      have hkj : k ≠ j := (h.ne_next hk hknext).symm
      refine ⟨hact.2 (Or.inl hk), ?_⟩
      rw [split_other hkj (hnew k hk)]
      exact hknext
    · by_cases hjn : j = n
      · subst hjn
        rw [split_new hne] at hjk
        cases hjk
        refine ⟨hact.2 (Or.inl hi), ?_⟩
        rw [split_left]
      · have hj : Active f j := (hact.1 hactive).resolve_right hjn
        rw [split_other hji hjn] at hjk
        by_cases hij : (f i).next = some j
        · -- the node after the whole one now looks back at the new part
          rw [if_pos hij] at hjk
          cases hjk
          refine ⟨hact.2 (Or.inr rfl), ?_⟩
          rw [split_new hne]
          exact hij
        · rw [if_neg hij] at hjk
          obtain ⟨hk, hknext⟩ := h.prev j k hj hjk
          have hki : k ≠ i := by
            intro heq
            rw [heq] at hknext
            exact hij hknext
          refine ⟨hact.2 (Or.inl hk), ?_⟩
          rw [split_other hki (hnew k hk)]
          exact hknext
  · -- both parts lie in the whole node
    have hparts : ∀ k, k ≠ i → Active f k →
        (IntervalChain.split f i n w i).Apart (f k) ∧
          (IntervalChain.split f i n w n).Apart (f k) := by
      intro k hki hk
      have hapart := h.apart i k hki.symm hi hk
      rw [split_left, split_new hne]
      unfold Node.Apart at hapart ⊢
      simp only
      omega
    have hself : (IntervalChain.split f i n w i).Apart (IntervalChain.split f i n w n) := by
      rw [split_left, split_new hne]
      exact Or.inl (Nat.le_refl _)
    intro j k hjk hjactive hkactive
    by_cases hji : j = i
    · -- its predecessor is unchanged, and is not one of the parts
      subst hji
      by_cases hkn : k = n
      · subst hkn
        exact hself
      · have hk : Active f k := (hact.1 hkactive).resolve_right hkn
        have hapart := (hparts k hjk.symm hk).1
        rw [split_other hjk.symm hkn]
        exact hapart
    · by_cases hki : k = i
      · subst hki
        by_cases hjn : j = n
        · subst hjn
          exact hself.symm
        · have hj : Active f j := (hact.1 hjactive).resolve_right hjn
          have hapart := (hparts j hji hj).1.symm
          rw [split_other hji hjn]
          exact hapart
      · by_cases hjn : j = n
        · subst hjn
          have hk : Active f k := (hact.1 hkactive).resolve_right hjk.symm
          have hapart := (hparts k hki hk).2
          rw [split_other hki hjk.symm]
          exact hapart
        · have hj : Active f j := (hact.1 hjactive).resolve_right hjn
          by_cases hkn : k = n
          · subst hkn
            have hapart := (hparts j hji hj).2.symm
            rw [split_other hji hjn]
            exact hapart
          · have hk : Active f k := (hact.1 hkactive).resolve_right hkn
            rw [split_other hji hjn, split_other hki hkn]
            exact h.apart j k hjk hj hk
  · intro j hactive
    -- the whole node lies in its region, so its parts do
    have hwhole := h.inside i hi
    by_cases hji : j = i
    · subst hji
      rw [split_left]
      simp only
      omega
    · by_cases hjn : j = n
      · subst hjn
        rw [split_new hne]
        simp only
        omega
      · rw [split_other hji hjn]
        exact h.inside j ((hact.1 hactive).resolve_right hjn)

/-! ## New regions and empty ones -/

def push (f : Nat → Node) (n : Nat) (node : Node) (k : Nat) : Node :=
  if k = n then node else f k

/-- A node without links that lies apart from the others. -/
theorem Chain.push {node : Node} (hn : ¬ Active f n) (hprev : node.prev = none)
    (hnext : node.next = none) (hapart : ∀ k, Active f k → node.Apart (f k))
    (hinside : (region node.owner).lo ≤ node.lo ∧ node.lo + node.size ≤ (region node.owner).hi) :
    Chain region (push f n node) := by
  have hself : IntervalChain.push f n node n = node := if_pos rfl
  have hother : ∀ k, k ≠ n → IntervalChain.push f n node k = f k := fun k hk => if_neg hk
  have hkeep : ∀ k, k ≠ n → (Active (IntervalChain.push f n node) k ↔ Active f k) := by
    intro k hk
    unfold Active
    rw [hother k hk]
  have hold : ∀ k, Active f k → k ≠ n := by
    rintro k hk rfl
    exact hn hk
  constructor
  · intro i j hi hij
    by_cases hin : i = n
    · subst hin
      -- the new node has no neighbours
      rw [hself, hnext] at hij
      cases hij
    · rw [hother i hin] at hij ⊢
      have hj := h.next i j ((hkeep i hin).1 hi) hij
      rw [hother j (hold j hj.1), hkeep j (hold j hj.1)]
      exact hj
  · intro i j hi hij
    by_cases hin : i = n
    · subst hin
      rw [hself, hprev] at hij
      cases hij
    · rw [hother i hin] at hij
      have hj := h.prev i j ((hkeep i hin).1 hi) hij
      rw [hother j (hold j hj.1), hkeep j (hold j hj.1)]
      exact hj
  · intro i j hij hi hj
    by_cases hin : i = n
    · subst hin
      -- and lies apart from the old ones
      have hji : j ≠ i := fun heq => hij heq.symm
      rw [hself, hother j hji]
      exact hapart j ((hkeep j hji).1 hj)
    · by_cases hjn : j = n
      · subst hjn
        rw [hself, hother i hin]
        exact (hapart i ((hkeep i hin).1 hi)).symm
      · rw [hother i hin, hother j hjn]
        exact h.apart i j hij ((hkeep i hin).1 hi) ((hkeep j hjn).1 hj)
  · intro i hi
    by_cases hin : i = n
    · subst hin
      rw [hself]
      exact hinside
    · rw [hother i hin]
      exact h.inside i ((hkeep i hin).1 hi)

/-- Nodes of which some are emptied, by whole regions. -/
theorem Chain.clear {g : Nat → Node} {gone : Nat → Prop}
    (hgone : ∀ k, Active g k → ¬ gone (f k).owner) (hkeep : ∀ k, ¬ gone (f k).owner → g k = f k) :
    Chain region g := by
  have hold : ∀ k, Active g k → g k = f k := fun k hk => hkeep k (hgone k hk)
  have hactive : ∀ k, Active g k → Active f k := by
    intro k hk
    have hk' := hk
    unfold Active at hk' ⊢
    rwa [hold k hk] at hk'
  have hstay : ∀ k j, Active g k → (f j).owner = (f k).owner → g j = f j := by
    intro k j hk hj
    apply hkeep
    rw [hj]
    exact hgone k hk
  constructor
  · intro i j hi hij
    rw [hold i hi] at hij ⊢
    have hj := h.next i j (hactive i hi) hij
    have hgj := hstay i j hi hj.2.2.2
    refine ⟨?_, by rw [hgj]; exact hj.2⟩
    unfold Active
    rw [hgj]
    exact hj.1
  · intro i j hi hij
    rw [hold i hi] at hij
    obtain ⟨hj, hjnext⟩ := h.prev i j (hactive i hi) hij
    have hgj := hstay i j hi (h.next j i hj hjnext).2.2.2.symm
    refine ⟨?_, by rw [hgj]; exact hjnext⟩
    unfold Active
    rw [hgj]
    exact hj
  · intro i j hij hi hj
    rw [hold i hi, hold j hj]
    exact h.apart i j hij (hactive i hi) (hactive j hj)
  · intro i hi
    rw [hold i hi]
    exact h.inside i (hactive i hi)

/-- Regions that keep the bounds of the nodes in them may change elsewhere. -/
theorem Chain.change_region {region' : Nat → Region}
    (hsame : ∀ k, Active f k → region' (f k).owner = region (f k).owner) : Chain region' f := by
  refine ⟨h.next, h.prev, h.apart, ?_⟩
  intro i hi
  rw [hsame i hi]
  exact h.inside i hi

end IntervalChain
