import Rustorch.Lib.PostOrder

/-!
# Relaying values through a graph

Nodes and sinks hold values of a commutative monoid.  A node is relayed once: what it holds is
emitted, in parts, to nodes and sinks, where each part is added.  In an order in which every node
comes before the nodes it leads to, nothing that is emitted is lost.

- `content_relay` : a weight that every node conserves is conserved by a run
-/

namespace Relay

open List Function

variable {K T M A : Type*} [DecidableEq K] [DecidableEq T] [AddCommMonoid M] [AddCommMonoid A]

/-- One part is added to what its destination holds. -/
def send (st : K ⊕ T → M) (part : (K ⊕ T) × M) : K ⊕ T → M :=
  update st part.1 (st part.1 + part.2)

variable (emit : K → M → List ((K ⊕ T) × M))

def relayStep (st : K ⊕ T → M) (k : K) : K ⊕ T → M :=
  (emit k (st (.inl k))).foldl send (update st (.inl k) 0)

def relay (st : K ⊕ T → M) (ks : List K) : K ⊕ T → M :=
  ks.foldl (relayStep emit) st

theorem relay_append (st : K ⊕ T → M) (ks js : List K) :
    relay emit st (ks ++ js) = relay emit (relay emit st ks) js :=
  foldl_append

theorem relay_congr {emit' : K → M → List ((K ⊕ T) × M)} (ks : List K) :
    ∀ st : K ⊕ T → M, (∀ k ∈ ks, emit k = emit' k) → relay emit st ks = relay emit' st ks := by
  induction ks with
  | nil => exact fun _ _ => rfl
  | cons k ks ih =>
    intro st h
    have hstep : relayStep emit st k = relayStep emit' st k := by
      unfold relayStep
      rw [h k mem_cons_self]
    change relay emit (relayStep emit st k) ks = relay emit' (relayStep emit' st k) ks
    rw [hstep]
    exact ih _ (fun j hj => h j (mem_cons_of_mem k hj))

theorem foldl_send_of_zero (parts : List ((K ⊕ T) × M)) : ∀ st : K ⊕ T → M,
    (∀ part ∈ parts, part.2 = 0) → parts.foldl send st = st := by
  induction parts with
  | nil => exact fun _ _ => rfl
  | cons part parts ih =>
    intro st hzero
    have hone : send st part = st := by
      unfold send
      rw [hzero part mem_cons_self, add_zero]
      exact update_eq_self _ _
    rw [foldl_cons, hone]
    exact ih st (fun p hp => hzero p (mem_cons_of_mem part hp))

/-! ## Conserved weights -/

/-- The weight of what some places hold. -/
def content (weight : K ⊕ T → M → A) (places : List (K ⊕ T)) (st : K ⊕ T → M) : A :=
  (places.map (fun d => weight d (st d))).sum

omit [DecidableEq K] [DecidableEq T] [AddCommMonoid M] in
theorem content_congr {weight : K ⊕ T → M → A} {places : List (K ⊕ T)} {st st' : K ⊕ T → M}
    (h : ∀ d ∈ places, st d = st' d) : content weight places st = content weight places st' := by
  unfold content
  congr 1
  apply map_congr_left
  intro d hd
  rw [h d hd]

structure Additive (weight : K ⊕ T → M → A) : Prop where
  zero : ∀ d, weight d 0 = 0
  add : ∀ d x y, weight d (x + y) = weight d x + weight d y

variable {emit} {weight : K ⊕ T → M → A} {places : List (K ⊕ T)} {st : K ⊕ T → M} {k : K}
  {succ : K → List K} {sinks : List T}

variable {d : K ⊕ T}

omit [AddCommMonoid M] in
theorem content_update_of_notMem {x : M} (hd : d ∉ places) :
    content weight places (update st d x) = content weight places st := by
  unfold content
  congr 1
  apply map_congr_left
  intro d' hd'
  have hne : d' ≠ d := by
    rintro rfl
    exact hd hd'
  rw [update_of_ne hne]

section

variable (hadd : Additive weight)

include hadd

theorem content_send {part : (K ⊕ T) × M} :
    places.Nodup → part.1 ∈ places →
      content weight places (send st part) = content weight places st + weight part.1 part.2 := by
  induction places with
  | nil => exact fun _ hmem => absurd hmem not_mem_nil
  | cons d places ih =>
    intro hnodup hmem
    obtain ⟨hout, hnodup⟩ := nodup_cons.1 hnodup
    have hcons : ∀ st' : K ⊕ T → M, content weight (d :: places) st' =
        weight d (st' d) + content weight places st' := fun _ => sum_cons
    rw [hcons, hcons]
    by_cases heq : part.1 = d
    · -- the part arrives here
      have hplaces : content weight places (send st part) = content weight places st :=
        content_update_of_notMem (heq ▸ hout)
      rw [hplaces, ← heq]
      unfold send
      rw [update_self, hadd.add]
      exact add_right_comm _ _ _
    · have hmem' : part.1 ∈ places := by
        rcases mem_cons.1 hmem with h | h
        · exact absurd h heq
        · exact h
      have hstay : send st part d = st d := update_of_ne (Ne.symm heq) _ _
      rw [hstay, ih hnodup hmem', add_assoc]

theorem content_foldl_send (hnodup : places.Nodup) (parts : List ((K ⊕ T) × M)) : ∀ st : K ⊕ T → M,
      (∀ part ∈ parts, part.1 ∈ places ∨ weight part.1 part.2 = 0 ∧ part.1 ∉ places) →
      content weight places (parts.foldl send st) =
        content weight places st + (parts.map (fun part => weight part.1 part.2)).sum := by
  induction parts with
  | nil =>
    intro st _
    exact (add_zero _).symm
  | cons part parts ih =>
    intro st harrive
    have hone : content weight places (send st part) =
        content weight places st + weight part.1 part.2 := by
      rcases harrive part mem_cons_self with hin | ⟨hzero, hout⟩
      · exact content_send hadd hnodup hin
      · rw [hzero, add_zero]
        exact content_update_of_notMem hout
    rw [foldl_cons, ih _ (fun p hp => harrive p (mem_cons_of_mem part hp)), hone,
      map_cons, sum_cons, add_assoc]

theorem content_relayStep (hnodup : (Sum.inl k :: places).Nodup)
    (harrive : ∀ x, ∀ part ∈ emit k x, part.1 ∈ places ∨ weight part.1 part.2 = 0 ∧ part.1 ∉ places)
    (hconserve : ∀ x, weight (.inl k) x = ((emit k x).map (fun part => weight part.1 part.2)).sum) :
    content weight places (relayStep emit st k) = content weight (.inl k :: places) st := by
  obtain ⟨hout, hnodup⟩ := nodup_cons.1 hnodup
  unfold relayStep
  rw [content_foldl_send hadd hnodup _ _ (harrive _), content_update_of_notMem hout,
    ← hconserve, add_comm]
  exact (sum_cons).symm

omit hadd [DecidableEq K] [DecidableEq T] in
theorem nodup_places {nodes : List K} (hnodes : nodes.Nodup) (hsinks : sinks.Nodup) :
    (nodes.map .inl ++ sinks.map .inr : List (K ⊕ T)).Nodup := by
  apply Nodup.append
  · exact hnodes.map Sum.inl_injective
  · exact hsinks.map Sum.inr_injective
  · intro d hleft hright
    obtain ⟨n, _, rfl⟩ := mem_map.1 hleft
    obtain ⟨s, _, hs⟩ := mem_map.1 hright
    cases hs

theorem content_relay {before after : List K} (hsinks : sinks.Nodup)
    (harrive : ∀ k x, ∀ part ∈ emit k x, (∃ n ∈ succ k, part.1 = .inl n) ∨
      (∃ s ∈ sinks, part.1 = .inr s) ∨ (∃ s, s ∉ sinks ∧ part.1 = .inr s ∧ weight part.1 part.2 = 0)) :
    ∀ st : K ⊕ T → M, PostOrder.Ordered succ (before ++ after) →
      (∀ k ∈ before, ∀ x, weight (.inl k) x =
        ((emit k x).map (fun part => weight part.1 part.2)).sum) →
      content weight (after.map .inl ++ sinks.map .inr) (relay emit st before) =
        content weight ((before ++ after).map .inl ++ sinks.map .inr) st := by
  induction before with
  | nil => exact fun _ _ _ => rfl
  | cons k before ih =>
    intro st hordered hconserve
    have hnodup : (((k :: before) ++ after).map .inl ++ sinks.map .inr : List (K ⊕ T)).Nodup :=
      nodup_places hordered.nodup hsinks
    have hstep : content weight ((before ++ after).map .inl ++ sinks.map .inr)
        (relayStep emit st k) =
          content weight (((k :: before) ++ after).map .inl ++ sinks.map .inr) st := by
      apply content_relayStep hadd hnodup
      · intro x part hpart
        rcases harrive k x part hpart with ⟨n, hn, heq⟩ | ⟨s, hs, heq⟩ | ⟨s, hs, heq, hzero⟩
        · rw [heq]
          exact Or.inl (mem_append_left _ (mem_map_of_mem (hordered.2.1 n hn)))
        · rw [heq]
          exact Or.inl (mem_append_right _ (mem_map_of_mem hs))
        · refine Or.inr ⟨hzero, ?_⟩
          rw [heq]
          intro hin
          rcases mem_append.1 hin with hin | hin
          · obtain ⟨n, _, hn⟩ := mem_map.1 hin
            cases hn
          · obtain ⟨s', hs', heq'⟩ := mem_map.1 hin
            cases heq'
            exact hs hs'
      · exact hconserve k mem_cons_self
    have hrest := ih (relayStep emit st k) hordered.2.2
      (fun j hj => hconserve j (mem_cons_of_mem k hj))
    exact hrest.trans hstep

/-! ## The order does not matter -/

end

/-- What a node sends to one place. -/
def out (emit : K → M → List ((K ⊕ T) × M)) (k : K) (x : M) (d : K ⊕ T) : M :=
  (((emit k x).filter (fun part => part.1 = d)).map Prod.snd).sum

theorem out_eq_zero {x : M} (h : ∀ part ∈ emit k x, part.1 ≠ d) : out emit k x d = 0 := by
  have hnone : (emit k x).filter (fun part => part.1 = d) = [] := by
    apply filter_eq_nil_iff.2
    intro part hpart heq
    exact h part hpart (of_decide_eq_true heq)
  unfold out
  rw [hnone]
  rfl

theorem foldl_send_apply (parts : List ((K ⊕ T) × M)) (d : K ⊕ T) : ∀ st : K ⊕ T → M,
    parts.foldl send st d = st d + ((parts.filter (fun part => part.1 = d)).map Prod.snd).sum := by
  induction parts with
  | nil => exact fun st => (add_zero (st d)).symm
  | cons part parts ih =>
    intro st
    rw [foldl_cons, ih]
    unfold send
    by_cases hd : part.1 = d
    · rw [filter_cons_of_pos (by simpa using hd), map_cons, sum_cons, ← hd, update_self, add_assoc]
    · rw [filter_cons_of_neg (by simpa using hd), update_of_ne (Ne.symm hd)]

theorem relayStep_apply (st : K ⊕ T → M) (k : K) (d : K ⊕ T) :
    relayStep emit st k d = update st (.inl k) 0 d + out emit k (st (.inl k)) d :=
  foldl_send_apply _ d _

/-- Another place changes only by what is sent to it. -/
theorem relayStep_of_ne (hd : d ≠ .inl k) :
    relayStep emit st k d = st d + out emit k (st (.inl k)) d := by
  rw [relayStep_apply, update_of_ne hd]

theorem relayStep_self (hself : ∀ x, out emit k x (.inl k) = 0) :
    relayStep emit st k (.inl k) = 0 := by
  rw [relayStep_apply, update_self, hself, add_zero]

/-- A place to which nothing is sent keeps what it holds. -/
theorem relayStep_stay (hd : d ≠ .inl k) (hout : ∀ x, out emit k x d = 0) :
    relayStep emit st k d = st d := by
  rw [relayStep_of_ne hd, hout, add_zero]

theorem relay_stay (ks : List K) : ∀ st : K ⊕ T → M,
    (∀ k ∈ ks, d ≠ .inl k ∧ ∀ x, out emit k x d = 0) → relay emit st ks d = st d := by
  induction ks with
  | nil => exact fun _ _ => rfl
  | cons k ks ih =>
    intro st hks
    obtain ⟨hd, hout⟩ := hks k mem_cons_self
    calc relay emit st (k :: ks) d
        = relayStep emit st k d := ih _ (fun j hj => hks j (mem_cons_of_mem k hj))
      _ = st d := relayStep_stay hd hout

/-- Two nodes that do not lead to each other may be relayed in either order. -/
theorem relayStep_comm {j : K} (hne : j ≠ k) (hjk : ∀ x, out emit j x (.inl k) = 0)
    (hkj : ∀ x, out emit k x (.inl j) = 0) (hjj : ∀ x, out emit j x (.inl j) = 0)
    (hkk : ∀ x, out emit k x (.inl k) = 0) :
    relayStep emit (relayStep emit st j) k = relayStep emit (relayStep emit st k) j := by
  have hne' : (Sum.inl j : K ⊕ T) ≠ .inl k := fun heq => hne (Sum.inl_injective heq)
  have hj : relayStep emit st k (.inl j) = st (.inl j) := relayStep_stay hne' hkj
  have hk : relayStep emit st j (.inl k) = st (.inl k) := relayStep_stay hne'.symm hjk
  funext d
  by_cases hdk : d = .inl k
  · subst hdk
    rw [relayStep_self hkk, relayStep_stay hne'.symm hjk, relayStep_self hkk]
  · by_cases hdj : d = .inl j
    · subst hdj
      rw [relayStep_stay hne' hkj, relayStep_self hjj, relayStep_self hjj]
    · calc relayStep emit (relayStep emit st j) k d
          = st d + out emit j (st (.inl j)) d + out emit k (st (.inl k)) d := by
            rw [relayStep_of_ne hdk, relayStep_of_ne hdj, hk]
        _ = st d + out emit k (st (.inl k)) d + out emit j (st (.inl j)) d := add_right_comm _ _ _
        _ = relayStep emit (relayStep emit st k) j d := by
            rw [relayStep_of_ne hdj, relayStep_of_ne hdk, hj]

/-- A node that nothing before it leads to, and that leads to nothing before it, may go first. -/
theorem relay_front {after : List K} (hself : ∀ j x, out emit j x (.inl j) = 0)
    (before : List K) : ∀ st : K ⊕ T → M,
    (∀ j ∈ before, j ≠ k ∧ (∀ x, out emit j x (.inl k) = 0) ∧ ∀ x, out emit k x (.inl j) = 0) →
      relay emit st (before ++ k :: after) = relay emit (relayStep emit st k) (before ++ after) := by
  induction before with
  | nil => exact fun _ _ => rfl
  | cons j before ih =>
    intro st hindep
    obtain ⟨hne, hjk, hkj⟩ := hindep j mem_cons_self
    have hrest := ih (relayStep emit st j) (fun i hi => hindep i (mem_cons_of_mem j hi))
    rw [relayStep_comm hne hjk hkj (hself j) (hself k)] at hrest
    exact hrest

/-- A graph whose nodes send only to the nodes they lead to, and nothing when they hold nothing. -/
structure Follows (emit : K → M → List ((K ⊕ T) × M)) (succ : K → List K) : Prop where
  node : ∀ k x n, n ∉ succ k → out emit k x (.inl n) = 0
  quiet : ∀ k (st : K ⊕ T → M), (emit k 0).foldl send st = st

theorem Follows.step_of_zero (h : Follows emit succ) (hzero : st (.inl k) = 0) :
    relayStep emit st k = st := by
  unfold relayStep
  rw [hzero, h.quiet, ← hzero]
  exact update_eq_self _ _

/-- A run along nodes that hold nothing changes nothing. -/
theorem Follows.relay_of_zero (h : Follows emit succ) (ks : List K) :
    (∀ k ∈ ks, st (.inl k) = 0) → relay emit st ks = st := by
  induction ks with
  | nil => exact fun _ => rfl
  | cons k ks ih =>
    intro hzero
    have hstep := h.step_of_zero (hzero k mem_cons_self)
    change relay emit (relayStep emit st k) ks = st
    rw [hstep]
    exact ih (fun j hj => hzero j (mem_cons_of_mem k hj))

theorem relay_of_subset (hfollows : Follows emit succ) (hself : ∀ k, k ∉ succ k) (ls : List K) :
    ∀ (ks : List K) (st : K ⊕ T → M), PostOrder.Ordered succ ls → PostOrder.Ordered succ ks →
      (∀ k ∈ ks, k ∈ ls) → (∀ k, k ∉ ks → st (.inl k) = 0) →
        relay emit st ls = relay emit st ks := by
  have hself' : ∀ k x, out emit k x (.inl k) = 0 := fun k x => hfollows.node k x k (hself k)
  induction ls with
  | nil =>
    intro ks st _ _ hsub _
    rw [eq_nil_iff_forall_not_mem.2 (fun k hk => not_mem_nil (hsub k hk))]
  | cons k ls ih =>
    intro ks st hls hks hsub hst
    by_cases hk : k ∈ ks
    · -- the node may go first in both lists
      obtain ⟨before, after, hsplit⟩ := mem_iff_append.1 hk
      subst hsplit
      -- what comes before the node in the shorter list does not lead to it, nor it to that
      have hnodup : k ∉ before ∧ k ∉ after := by
        have hmid := nodup_middle.1 hks.nodup
        have hout := (nodup_cons.1 hmid).1
        exact ⟨fun h => hout (mem_append_left _ h), fun h => hout (mem_append_right _ h)⟩
      have hrest : ∀ j, j ∈ before ∨ j ∈ after → j ∈ ls := by
        intro j hj
        have hne : j ≠ k := by
          rintro rfl
          rcases hj with hj | hj
          · exact hnodup.1 hj
          · exact hnodup.2 hj
        have hin : j ∈ before ++ k :: after := by
          rcases hj with hj | hj
          · exact mem_append_left _ hj
          · exact mem_append_right _ (mem_cons_of_mem k hj)
        exact (mem_cons.1 (hsub j hin)).resolve_left hne
      have hfree : ∀ j ∈ before, k ∉ succ j := by
        intro j hj hlead
        obtain ⟨front, back, hin⟩ := mem_iff_append.1 (hrest j (Or.inl hj))
        have hback := PostOrder.Ordered.succ_mem (hin ▸ hls.2.2) k hlead
        exact hls.1 (hin ▸ mem_append_right _ (mem_cons_of_mem j hback))
      have hfront : ∀ j ∈ before, j ≠ k ∧ (∀ x, out emit j x (.inl k) = 0) ∧
          ∀ x, out emit k x (.inl j) = 0 := by
        intro j hj
        refine ⟨fun heq => hnodup.1 (heq ▸ hj), ?_, ?_⟩
        · exact fun x => hfollows.node j x k (hfree j hj)
        · intro x
          apply hfollows.node k x j
          intro hlead
          have hafter := PostOrder.Ordered.succ_mem hks j hlead
          have hdisj := disjoint_of_nodup_append (Nodup.of_cons
            (nodup_middle.1 hks.nodup))
          exact hdisj hj hafter
      rw [relay_front hself' before st hfront]
      apply ih (before ++ after) _ hls.2.2 (hks.remove hfree)
      · intro j hj
        exact hrest j (mem_append.1 hj)
      · intro j hj
        by_cases hjk : j = k
        · rw [hjk]
          exact relayStep_self (hself' k)
        · have hout : j ∉ before ++ k :: after := by
            intro hin
            rcases mem_append.1 hin with hin | hin
            · exact hj (mem_append_left _ hin)
            · rcases mem_cons.1 hin with heq | hin
              · exact hjk heq
              · exact hj (mem_append_right _ hin)
          have hlead : j ∉ succ k := by
            intro hlead
            exact hj (mem_append_right _ (PostOrder.Ordered.succ_mem hks j hlead))
          rw [relayStep_stay (fun heq => hjk (Sum.inl_injective heq))
            (fun x => hfollows.node k x j hlead)]
          exact hst j hout
    · -- the node holds nothing
      have hsub' : ∀ j ∈ ks, j ∈ ls := by
        intro j hj
        rcases mem_cons.1 (hsub j hj) with heq | hin
        · exact absurd (heq ▸ hj) hk
        · exact hin
      change relay emit (relayStep emit st k) ls = _
      rw [hfollows.step_of_zero (hst k hk)]
      exact ih ks st hls.2.2 hks hsub' hst

/-- Nodes that hold nothing, and to which nothing is sent, may be left out. -/
theorem relay_filter {p : K → Bool} (hfollows : Follows emit succ) (ks : List K) :
    ∀ st : K ⊕ T → M, (∀ k ∈ ks, p k = false → st (.inl k) = 0 ∧
      ∀ j ∈ ks, p j = true → ∀ x, out emit j x (.inl k) = 0) →
        relay emit st ks = relay emit st (ks.filter p) := by
  induction ks with
  | nil => exact fun _ _ => rfl
  | cons k ks ih =>
    intro st hleft
    cases hp : p k with
    | false =>
      rw [filter_cons_of_neg (by rw [hp]; exact Bool.false_ne_true)]
      have hstep : relayStep emit st k = st :=
        hfollows.step_of_zero (hleft k mem_cons_self hp).1
      have hrest := ih st (fun j hj hout => by
        obtain ⟨hzero, hsent⟩ := hleft j (mem_cons_of_mem k hj) hout
        exact ⟨hzero, fun i hi => hsent i (mem_cons_of_mem k hi)⟩)
      change relay emit (relayStep emit st k) ks = _
      rw [hstep]
      exact hrest
    | true =>
      rw [filter_cons_of_pos hp]
      apply ih (relayStep emit st k)
      intro j hj hout
      obtain ⟨hzero, hsent⟩ := hleft j (mem_cons_of_mem k hj) hout
      refine ⟨?_, fun i hi => hsent i (mem_cons_of_mem k hi)⟩
      have hne : (Sum.inl j : K ⊕ T) ≠ .inl k := by
        intro heq
        rw [Sum.inl_injective heq, hp] at hout
        cases hout
      rw [relayStep_stay hne (hsent k mem_cons_self hp)]
      exact hzero

/-! ## Something arrives -/

section Arrival

variable (hpos : ∀ x y : M, x ≠ 0 → x + y ≠ 0)

include hpos

theorem out_ne_zero {x : M} {part : (K ⊕ T) × M} (hpart : part ∈ emit k x) (hne : part.2 ≠ 0) :
    out emit k x part.1 ≠ 0 := by
  have hmem : part.2 ∈ ((emit k x).filter (fun p => p.1 = part.1)).map Prod.snd :=
    mem_map_of_mem (mem_filter.2 ⟨hpart, decide_eq_true rfl⟩)
  unfold out
  obtain ⟨before, after, hsplit⟩ := mem_iff_append.1 hmem
  rw [hsplit, sum_append, sum_cons, add_left_comm]
  exact hpos _ _ hne

/-- Where each node of a set passes something on inside the set, a sink of the set gets something. -/
theorem relay_reaches {good : K ⊕ T → Prop} (ks : List K) : ∀ st : K ⊕ T → M,
    PostOrder.Ordered succ ks →
      (∀ k ∈ ks, good (.inl k) → ∀ x ≠ 0, ∃ part ∈ emit k x, good part.1 ∧ part.2 ≠ 0 ∧
        ∀ n, part.1 = .inl n → n ∈ succ k) →
      (∃ d, good d ∧ st d ≠ 0 ∧ ∀ k, d = .inl k → k ∈ ks) →
        ∃ s, good (.inr s) ∧ relay emit st ks (.inr s) ≠ 0 := by
  induction ks with
  | nil =>
    rintro st _ _ ⟨d, hgood, hne, hin⟩
    cases d with
    | inl k => exact absurd (hin k rfl) not_mem_nil
    | inr s => exact ⟨s, hgood, hne⟩
  | cons k ks ih =>
    rintro st hordered hpass ⟨d, hgood, hne, hin⟩
    apply ih (relayStep emit st k) hordered.2.2
      (fun j hj => hpass j (mem_cons_of_mem k hj))
    by_cases hd : d = .inl k
    · -- the node passes it on
      subst hd
      obtain ⟨part, hpart, hgood', hne', hlead⟩ := hpass k mem_cons_self hgood _ hne
      refine ⟨part.1, hgood', ?_, fun n hn => hordered.2.1 n (hlead n hn)⟩
      rw [relayStep_apply, add_comm]
      exact hpos _ _ (out_ne_zero hpos hpart hne')
    · refine ⟨d, hgood, ?_, ?_⟩
      · rw [relayStep_of_ne hd]
        exact hpos _ _ hne
      · intro j hj
        rcases mem_cons.1 (hin j hj) with heq | hrest
        · exact absurd (heq ▸ hj) hd
        · exact hrest

end Arrival

end Relay

/-!
# Relays that go hand in hand

A partial map sends the places of one relay to the places of another.  Where a relation between
their states survives the sending of one part, it survives whole runs.

- `relay_carry` : the runs of two relays over lists of nodes that the map relates
- `agrees_carries` : the relation "both hold the same", along a map that keeps places apart
- `sumsUp_carries` : the relation "a place holds in addition what all sinks mapped to it hold"
-/

namespace Relay

variable {K T K' T' M : Type*} [DecidableEq K] [DecidableEq T] [DecidableEq K'] [DecidableEq T']
  [AddCommMonoid M]

/-- The parts that have a place on the other side. -/
def carry (place : K ⊕ T → Option (K' ⊕ T')) (parts : List ((K ⊕ T) × M)) :
    List ((K' ⊕ T') × M) :=
  parts.filterMap (fun part => (place part.1).map (fun d => (d, part.2)))

/-- A relation between states that one part, and one node, keeps. -/
structure Carries (place : K ⊕ T → Option (K' ⊕ T'))
    (R : (K ⊕ T → M) → (K' ⊕ T' → M) → Prop) : Prop where
  send : ∀ {st st' l d} (x : M), R st st' → place l = some d →
    R (Relay.send st (l, x)) (Relay.send st' (d, x))
  drop : ∀ {st st' l} (x : M), R st st' → place l = none → R (Relay.send st (l, x)) st'
  holds : ∀ {st st' k k'}, R st st' → place (.inl k) = some (.inl k') →
    st (.inl k) = st' (.inl k')
  take : ∀ {st st' k k'}, R st st' → place (.inl k) = some (.inl k') →
    R (Function.update st (.inl k) 0) (Function.update st' (.inl k') 0)
  forget : ∀ {st st' k}, R st st' → place (.inl k) = none → R (Function.update st (.inl k) 0) st'

section Runs

variable {place : K ⊕ T → Option (K' ⊕ T')} {R : (K ⊕ T → M) → (K' ⊕ T' → M) → Prop}
  {emit : K → M → List ((K ⊕ T) × M)} {emit' : K' → M → List ((K' ⊕ T') × M)}

theorem foldl_send_carry (h : Carries place R) (parts : List ((K ⊕ T) × M)) :
    ∀ (st : K ⊕ T → M) (st' : K' ⊕ T' → M), R st st' →
      R (parts.foldl send st) ((carry place parts).foldl send st') := by
  induction parts with
  | nil => exact fun _ _ hR => hR
  | cons part parts ih =>
    intro st st' hR
    cases hplace : place part.1 with
    | none =>
      have hcarry : carry place (part :: parts) = carry place parts := by
        apply List.filterMap_cons_none
        rw [hplace]
        rfl
      rw [hcarry]
      exact ih _ _ (h.drop part.2 hR hplace)
    | some d =>
      have hcarry : carry place (part :: parts) = (d, part.2) :: carry place parts := by
        apply List.filterMap_cons_some
        rw [hplace]
        rfl
      rw [hcarry]
      exact ih _ _ (h.send part.2 hR hplace)

variable {st : K ⊕ T → M} {st' : K' ⊕ T' → M}

theorem relayStep_carry (h : Carries place R) {k : K} {k' : K'}
    (hplace : place (.inl k) = some (.inl k')) (hemit : ∀ x, emit' k' x = carry place (emit k x))
    (hR : R st st') : R (relayStep emit st k) (relayStep emit' st' k') := by
  unfold relayStep
  rw [hemit, ← h.holds hR hplace]
  exact foldl_send_carry h _ _ _ (h.take hR hplace)

theorem relayStep_forget (h : Carries place R) {k : K} (hplace : place (.inl k) = none)
    (hemit : ∀ x, carry place (emit k x) = []) (hR : R st st') : R (relayStep emit st k) st' := by
  have hparts := foldl_send_carry h (emit k (st (.inl k))) _ _ (h.forget hR hplace)
  rw [hemit] at hparts
  exact hparts

/-- A node either has a counterpart that emits the same, or emits nothing that counts. -/
structure Paired (place : K ⊕ T → Option (K' ⊕ T')) (emit : K → M → List ((K ⊕ T) × M))
    (emit' : K' → M → List ((K' ⊕ T') × M)) (pick : K → Option K') (k : K) : Prop where
  counterpart : place (.inl k) = (pick k).map .inl
  same : ∀ k', pick k = some k' → ∀ x, emit' k' x = carry place (emit k x)
  nothing : pick k = none → ∀ x, carry place (emit k x) = []

theorem relay_carry (h : Carries place R) {pick : K → Option K'} (ks : List K) :
    ∀ (st : K ⊕ T → M) (st' : K' ⊕ T' → M), (∀ k ∈ ks, Paired place emit emit' pick k) →
      R st st' → R (relay emit st ks) (relay emit' st' (ks.filterMap pick)) := by
  induction ks with
  | nil => exact fun _ _ _ hR => hR
  | cons k ks ih =>
    intro st st' hpaired hR
    have hk := hpaired k List.mem_cons_self
    have hplace := hk.counterpart
    have hrest := fun j hj => hpaired j (List.mem_cons_of_mem k hj)
    cases hpick : pick k with
    | none =>
      rw [hpick] at hplace
      rw [List.filterMap_cons_none hpick]
      exact ih _ _ hrest (relayStep_forget h hplace (hk.nothing hpick) hR)
    | some k' =>
      rw [hpick] at hplace
      rw [List.filterMap_cons_some hpick]
      exact ih _ _ hrest (relayStep_carry h hplace (hk.same k' hpick) hR)

end Runs

/-! ## Both hold the same -/

/-- Related places hold the same. -/
def Agrees (place : K ⊕ T → Option (K' ⊕ T')) (st : K ⊕ T → M) (st' : K' ⊕ T' → M) : Prop :=
  ∀ l d, place l = some d → st l = st' d

/-- No two places are sent to one. -/
def Apart (place : K ⊕ T → Option (K' ⊕ T')) : Prop :=
  ∀ l l' d, place l = some d → place l' = some d → l = l'

variable {place : K ⊕ T → Option (K' ⊕ T')} {st : K ⊕ T → M} {st' : K' ⊕ T' → M} {l : K ⊕ T}

omit [AddCommMonoid M] in
theorem Agrees.update (hapart : Apart place) {d : K' ⊕ T'} (hl : place l = some d) (x : M)
    (h : Agrees place st st') :
    Agrees place (Function.update st l x) (Function.update st' d x) := by
  intro l' d' hl'
  by_cases heq : l' = l
  · subst heq
    have hd : d' = d := Option.some.inj (hl'.symm.trans hl)
    rw [hd, Function.update_self, Function.update_self]
  · have hd : d' ≠ d := by
      rintro rfl
      exact heq (hapart l' l d' hl' hl)
    rw [Function.update_of_ne heq, Function.update_of_ne hd]
    exact h l' d' hl'

omit [DecidableEq K'] [DecidableEq T'] [AddCommMonoid M] in
theorem Agrees.update_left (hl : place l = none) (x : M) (h : Agrees place st st') :
    Agrees place (Function.update st l x) st' := by
  intro l' d' hl'
  have hne : l' ≠ l := by
    rintro rfl
    rw [hl] at hl'
    cases hl'
  rw [Function.update_of_ne hne]
  exact h l' d' hl'

theorem agrees_carries (hapart : Apart place) : Carries place (Agrees (M := M) place) := by
  constructor
  · intro st st' l d x hR hl
    unfold send
    rw [hR l d hl]
    exact hR.update hapart hl _
  · intro st st' l x hR hl
    exact hR.update_left hl _
  · intro st st' k k' hR hk
    exact hR _ _ hk
  · intro st st' k k' hR hk
    exact hR.update hapart hk 0
  · intro st st' k hR hk
    exact hR.update_left hk 0

/-! ## A place holds the sum of the sinks mapped to it -/

/-- What counts for a place. -/
def arriving (place : K ⊕ T → Option (K' ⊕ T')) (d : K' ⊕ T') (l : K ⊕ T) (x : M) : M :=
  if place l = some d then x else 0

omit [DecidableEq K] [DecidableEq T] in
theorem arriving_additive (place : K ⊕ T → Option (K' ⊕ T')) (d : K' ⊕ T') :
    Additive (arriving (M := M) place d) := by
  constructor
  · intro l
    unfold arriving
    split
    · rfl
    · rfl
  · intro l x y
    unfold arriving
    split
    · rfl
    · exact (add_zero 0).symm

/-- Nodes hold the same as their counterparts; every other place holds what it held at first and
what all sinks mapped to it hold. -/
structure SumsUp (place : K ⊕ T → Option (K' ⊕ T')) (sinks : List T) (base : K' ⊕ T' → M)
    (st : K ⊕ T → M) (st' : K' ⊕ T' → M) : Prop where
  node : ∀ k d, place (.inl k) = some d → st (.inl k) = st' d
  other : ∀ d, (∀ k, place (.inl k) ≠ some d) →
    st' d = base d + content (arriving place d) (sinks.map .inr) st

/-- Counterparts of nodes are kept apart from each other and from what sinks are mapped to. -/
structure Sorted (place : K ⊕ T → Option (K' ⊕ T')) (sinks : List T) : Prop where
  nodup : sinks.Nodup
  node : ∀ k k' d, place (.inl k) = some d → place (.inl k') = some d → k = k'
  sink : ∀ s d, place (.inr s) = some d → s ∈ sinks ∧ ∀ k, place (.inl k) ≠ some d

namespace SumsUp

variable {place : K ⊕ T → Option (K' ⊕ T')} {sinks : List T} {base : K' ⊕ T' → M}
  {st : K ⊕ T → M} {st' : K' ⊕ T' → M}

omit [DecidableEq K] [DecidableEq T] [DecidableEq K'] [DecidableEq T'] in
theorem notMem_sinks (sinks : List T) (k : K) : (.inl k : K ⊕ T) ∉ sinks.map Sum.inr := by
  intro hmem
  obtain ⟨s, _, hs⟩ := List.mem_map.1 hmem
  cases hs

variable {d : K' ⊕ T'} {s : T}

theorem update (hsorted : Sorted place sinks) {k : K} (hk : place (.inl k) = some d) (x : M)
    (h : SumsUp place sinks base st st') :
    SumsUp place sinks base (Function.update st (.inl k) x) (Function.update st' d x) := by
  constructor
  · intro j e hj
    by_cases heq : j = k
    · subst heq
      have he : e = d := Option.some.inj (hj.symm.trans hk)
      rw [he, Function.update_self, Function.update_self]
    · have he : e ≠ d := by
        rintro rfl
        exact heq (hsorted.node j k e hj hk)
      rw [Function.update_of_ne (fun hin => heq (Sum.inl_injective hin)), Function.update_of_ne he]
      exact h.node j e hj
  · intro e he
    have hne : e ≠ d := by
      rintro rfl
      exact he k hk
    rw [Function.update_of_ne hne, content_update_of_notMem (notMem_sinks sinks k)]
    exact h.other e he

theorem update_left {k : K} (hk : place (.inl k) = none) (x : M)
    (h : SumsUp place sinks base st st') :
    SumsUp place sinks base (Function.update st (.inl k) x) st' := by
  constructor
  · intro j e hj
    have hne : (.inl j : K ⊕ T) ≠ .inl k := by
      intro heq
      rw [heq, hk] at hj
      cases hj
    rw [Function.update_of_ne hne]
    exact h.node j e hj
  · intro e he
    rw [content_update_of_notMem (notMem_sinks sinks k)]
    exact h.other e he

omit [DecidableEq K'] [DecidableEq T'] in
theorem send_sink_node (x : M) (k : K) : send st (.inr s, x) (.inl k) = st (.inl k) := by
  exact Function.update_of_ne Sum.inl_ne_inr _ _

theorem send_sink (hsorted : Sorted place sinks) (hs : place (.inr s) = some d) (x : M)
    (h : SumsUp place sinks base st st') :
    SumsUp place sinks base (send st (.inr s, x)) (send st' (d, x)) := by
  obtain ⟨hmem, hsink⟩ := hsorted.sink s d hs
  constructor
  · intro j e hj
    have he : e ≠ d := by
      rintro rfl
      exact hsink j hj
    rw [send_sink_node, h.node j e hj]
    exact (Function.update_of_ne he _ _).symm
  · intro e he
    have hcontent : content (arriving place e) (sinks.map .inr) (send st (.inr s, x)) =
        content (arriving place e) (sinks.map .inr) st + arriving place e (.inr s) x :=
      content_send (arriving_additive place e) (hsorted.nodup.map Sum.inr_injective)
        (List.mem_map_of_mem hmem)
    rw [hcontent, ← add_assoc, ← h.other e he]
    unfold arriving send
    by_cases heq : e = d
    · subst heq
      rw [if_pos hs, Function.update_self]
    · have hne : place (.inr s) ≠ some e := by
        intro hin
        exact heq (Option.some.inj (hin.symm.trans hs))
      rw [if_neg hne, add_zero, Function.update_of_ne heq]

theorem drop_sink (hnodup : sinks.Nodup) (hs : place (.inr s) = none) (x : M)
    (h : SumsUp place sinks base st st') : SumsUp place sinks base (send st (.inr s, x)) st' := by
  constructor
  · intro j e hj
    exact h.node j e hj
  · intro e he
    have hzero : arriving place e (.inr s) x = 0 := by
      unfold arriving
      rw [hs]
      exact if_neg (Option.some_ne_none e).symm
    have hcontent : content (arriving place e) (sinks.map .inr) (send st (.inr s, x)) =
        content (arriving place e) (sinks.map .inr) st := by
      by_cases hmem : s ∈ sinks
      · rw [content_send (arriving_additive place e) (hnodup.map Sum.inr_injective)
          (List.mem_map_of_mem hmem), hzero, add_zero]
      · apply content_update_of_notMem
        intro hin
        obtain ⟨s', hs', heq⟩ := List.mem_map.1 hin
        exact hmem (Sum.inr_injective heq ▸ hs')
    rw [hcontent]
    exact h.other e he

end SumsUp

theorem sumsUp_carries {sinks : List T} (hsorted : Sorted place sinks) (base : K' ⊕ T' → M) :
    Carries place (SumsUp place sinks base) := by
  constructor
  · intro st st' l d x hR hl
    cases l with
    | inl k =>
      have hkeep := hR.update hsorted hl (st' d + x)
      unfold send
      rw [hR.node k d hl]
      exact hkeep
    | inr s => exact hR.send_sink hsorted hl x
  · intro st st' l x hR hl
    cases l with
    | inl k => exact hR.update_left hl _
    | inr s => exact hR.drop_sink hsorted.nodup hl x
  · intro st st' k k' hR hk
    exact hR.node k _ hk
  · intro st st' k k' hR hk
    exact hR.update hsorted hk 0
  · intro st st' k hR hk
    exact hR.update_left hk 0

end Relay
