import Mathlib.Data.List.Infix
import Rustorch.Lib.Machine
import Rustorch.Lib.SwapRemove

/-!
# Forward hooks

`hooks.rs`: a `HookedModule` keeps the hooks that run before and after the inner module in two lists
of numbered entries.  `remove_hook` swaps the last entry into the place of the one that leaves.  The
hooks run in the order of registration as long as only the last two of a list are removed
(`fires_in_order_iff`).
-/

namespace Rustorch
namespace Nn

open SwapRemove List Outcome Prod

/-! ## The module -/

inductive HookKind
  | pre
  | post
  deriving DecidableEq, Repr

structure HookHandle where
  id : Nat
  kind : HookKind
  deriving DecidableEq, Repr

/-- `P` and `Q` are the closures that observe the input, and the input with the output. -/
structure HookedModule (V E P Q : Type) where
  inner : V → Outcome E V
  preHooks : List (Nat × P)
  postHooks : List (Nat × Q)
  nextId : Nat

/-- What `forward` runs. -/
inductive Event (V P Q : Type)
  | pre (id : Nat) (hook : P) (input : V)
  | inner (input : V)
  | post (id : Nat) (hook : Q) (input output : V)
  deriving DecidableEq, Repr

inductive HookCall (P Q : Type)
  | addForwardPreHook (hook : P)
  | addForwardHook (hook : Q)
  | removeHook (handle : HookHandle)
  deriving DecidableEq, Repr

/-- What a call returns. -/
inductive Answer
  | handle (h : HookHandle)
  | removed (found : Bool)
  deriving DecidableEq, Repr

namespace HookedModule

variable {V E P Q : Type}

def new (inner : V → Outcome E V) : HookedModule V E P Q where
  inner := inner
  preHooks := []
  postHooks := []
  nextId := 0

def addForwardPreHook (m : Machine) (h : HookedModule V E P Q) (hook : P) :
    Outcome E (HookHandle × HookedModule V E P Q) := do
  let id := h.nextId
  let nextId ← m.add h.nextId 1
  pure ({ id := id, kind := .pre },
    { h with nextId := nextId, preHooks := h.preHooks ++ [(id, hook)] })

def addForwardHook (m : Machine) (h : HookedModule V E P Q) (hook : Q) :
    Outcome E (HookHandle × HookedModule V E P Q) := do
  let id := h.nextId
  let nextId ← m.add h.nextId 1
  pure ({ id := id, kind := .post },
    { h with nextId := nextId, postHooks := h.postHooks ++ [(id, hook)] })

/-- The list without the entry of `id`, if there is one. -/
def swapOut {α : Type} (hooks : List (Nat × α)) (id : Nat) : Option (List (Nat × α)) :=
  match hooks.findIdx? (fun entry => entry.1 = id) with
  | some idx => some (swapRemove hooks idx)
  | none => none

def removeHook (h : HookedModule V E P Q) (handle : HookHandle) : Bool × HookedModule V E P Q :=
  match handle.kind with
  | .pre =>
    match swapOut h.preHooks handle.id with
    | some hooks => (true, { h with preHooks := hooks })
    | none => (false, h)
  | .post =>
    match swapOut h.postHooks handle.id with
    | some hooks => (true, { h with postHooks := hooks })
    | none => (false, h)

/-- The hooks and the inner module that run, and what `forward` returns. -/
def forward (h : HookedModule V E P Q) (input : V) : List (Event V P Q) × Outcome E V :=
  let before := h.preHooks.map fun entry => .pre entry.1 entry.2 input
  match h.inner input with
  | .ok output =>
    (before ++ .inner input ::
      h.postHooks.map fun entry => .post entry.1 entry.2 input output, .ok output)
  | failure => (before ++ [.inner input], failure)

def step (m : Machine) (h : HookedModule V E P Q) :
    HookCall P Q → Outcome E (Answer × HookedModule V E P Q)
  | .addForwardPreHook hook => do
    let (handle, h) ← h.addForwardPreHook m hook
    pure (.handle handle, h)
  | .addForwardHook hook => do
    let (handle, h) ← h.addForwardHook m hook
    pure (.handle handle, h)
  | .removeHook handle =>
    let (found, h) := h.removeHook handle
    .ok (.removed found, h)

/-- A sequence of calls, with what they return. -/
def run (m : Machine) (inner : V → Outcome E V) (calls : List (HookCall P Q)) :
    Outcome E (List Answer × HookedModule V E P Q) :=
  calls.foldlM (fun (answers, h) call => do
    let (answer, h) ← step m h call
    pure (answers ++ [answer], h)) ([], new inner)

end HookedModule

/-! ## The hooks that should run -/

/-- The hooks that were added and not removed, in the order of registration. -/
structure Registered (P Q : Type) where
  pre : List (Nat × P)
  post : List (Nat × Q)
  issued : Nat

namespace Registered

variable {V E P Q : Type}

def step (r : Registered P Q) : HookCall P Q → Answer × Registered P Q
  | .addForwardPreHook hook =>
    (.handle { id := r.issued, kind := .pre },
      { r with pre := r.pre ++ [(r.issued, hook)], issued := r.issued + 1 })
  | .addForwardHook hook =>
    (.handle { id := r.issued, kind := .post },
      { r with post := r.post ++ [(r.issued, hook)], issued := r.issued + 1 })
  | .removeHook { id := id, kind := .pre } =>
    (.removed (decide (id ∈ r.pre.map fst)),
      { r with pre := r.pre.filter fun entry => entry.1 ≠ id })
  | .removeHook { id := id, kind := .post } =>
    (.removed (decide (id ∈ r.post.map fst)),
      { r with post := r.post.filter fun entry => entry.1 ≠ id })

/-- The hooks after some calls, and what the calls should return. -/
def after (calls : List (HookCall P Q)) : List Answer × Registered P Q :=
  calls.foldl (fun (answers, r) call =>
    let (answer, r) := r.step call
    (answers ++ [answer], r)) ([], { pre := [], post := [], issued := 0 })

/-- The pre-hooks, the inner module and, if it has an output, the post-hooks. -/
def fires (r : Registered P Q) (inner : V → Outcome E V) (input : V) : List (Event V P Q) :=
  r.pre.map (fun entry => .pre entry.1 entry.2 input) ++
    match inner input with
    | .ok output =>
      .inner input :: r.post.map fun entry => .post entry.1 entry.2 input output
    | _ => [.inner input]

/-- A registered hook of this handle is one of the last two of its kind. -/
def AmongLastTwo (r : Registered P Q) (handle : HookHandle) : Prop :=
  match handle.kind with
  | .pre => ∀ i, r.pre.findIdx? (fun entry => entry.1 = handle.id) = some i → r.pre.length ≤ i + 2
  | .post =>
    ∀ i, r.post.findIdx? (fun entry => entry.1 = handle.id) = some i → r.post.length ≤ i + 2

end Registered

section Spec

variable {P Q : Type}

/-- After every initial part of the calls, whatever the inner module is, the calls have returned and
`forward` runs what it should. -/
def FiresInOrder (V E : Type) (m : Machine) (calls : List (HookCall P Q)) : Prop :=
  ∀ (inner : V → Outcome E V) (before : List (HookCall P Q)), before <+: calls →
    ∃ h, HookedModule.run m inner before = .ok ((Registered.after before).1, h) ∧
      ∀ input, h.forward input =
        ((Registered.after before).2.fires inner input, inner input)

/-- Every hook that is removed is one of the last two of its kind. -/
def RemovesLate (calls : List (HookCall P Q)) : Prop :=
  ∀ (before : List (HookCall P Q)) (handle : HookHandle), before ++ [.removeHook handle] <+: calls →
    (Registered.after before).2.AmongLastTwo handle

/-- How often a hook is added. -/
def additions : List (HookCall P Q) → Nat
  | [] => 0
  | .removeHook _ :: calls => additions calls
  | _ :: calls => additions calls + 1

end Spec

/-! ## One call -/

section Step

variable {V E P Q : Type} {m : Machine} {h : HookedModule V E P Q} {r : Registered P Q}

/-- The numbers of the registered hooks are different. -/
structure Registered.Numbered (r : Registered P Q) : Prop where
  pre : (r.pre.map fst).Nodup
  post : (r.post.map fst).Nodup
  pre_lt : ∀ id ∈ r.pre.map fst, id < r.issued
  post_lt : ∀ id ∈ r.post.map fst, id < r.issued

/-- The module whose lists are the registered hooks in order. -/
def moduleOf (inner : V → Outcome E V) (r : Registered P Q) : HookedModule V E P Q where
  inner := inner
  preHooks := r.pre
  postHooks := r.post
  nextId := r.issued

variable {α : Type} {hooks : List (Nat × α)} {issued id : Nat} {inner : V → Outcome E V}

/-- Numbers stay different when the next one is added, and when entries leave. -/
theorem numbered_concat (hook : α) (hnodup : (hooks.map fst).Nodup)
    (hlt : ∀ id ∈ hooks.map fst, id < issued) :
    ((hooks ++ [(issued, hook)]).map fst).Nodup ∧
      ∀ id ∈ (hooks ++ [(issued, hook)]).map fst, id < issued + 1 := by
  rw [map_append, map_singleton]
  constructor
  · refine nodup_append.2 ⟨hnodup, nodup_singleton _, ?_⟩
    intro id hid id' hid'
    rw [mem_singleton.1 hid']
    exact ne_of_lt (hlt id hid)
  · intro id hid
    rcases mem_append.1 hid with hid | hid
    · exact lt_trans (hlt id hid) (Nat.lt_succ_self _)
    · rw [mem_singleton.1 hid]
      exact Nat.lt_succ_self _

theorem numbered_filter (id : Nat) (hnodup : (hooks.map fst).Nodup)
    (hlt : ∀ id ∈ hooks.map fst, id < issued) :
    ((hooks.filter fun entry => entry.1 ≠ id).map fst).Nodup ∧
      ∀ id' ∈ (hooks.filter fun entry => entry.1 ≠ id).map fst, id' < issued := by
  have hsub : ((hooks.filter fun entry => entry.1 ≠ id).map fst).Sublist
      (hooks.map fst) := Sublist.map _ filter_sublist
  exact ⟨hnodup.sublist hsub, fun id' hid' => hlt id' (hsub.subset hid')⟩

theorem Registered.Numbered.step (hr : r.Numbered) (call : HookCall P Q) : (r.step call).2.Numbered := by
  cases call with
  | addForwardPreHook hook =>
    obtain ⟨hnodup, hlt⟩ := numbered_concat hook hr.pre hr.pre_lt
    exact ⟨hnodup, hr.post, hlt, fun id hid => lt_trans (hr.post_lt id hid) (Nat.lt_succ_self _)⟩
  | addForwardHook hook =>
    obtain ⟨hnodup, hlt⟩ := numbered_concat hook hr.post hr.post_lt
    exact ⟨hr.pre, hnodup, fun id hid => lt_trans (hr.pre_lt id hid) (Nat.lt_succ_self _), hlt⟩
  | removeHook handle =>
    obtain ⟨id, kind⟩ := handle
    cases kind with
    | pre =>
      obtain ⟨hnodup, hlt⟩ := numbered_filter id hr.pre hr.pre_lt
      exact ⟨hnodup, hr.post, hlt, hr.post_lt⟩
    | post =>
      obtain ⟨hnodup, hlt⟩ := numbered_filter id hr.post hr.post_lt
      exact ⟨hr.pre, hnodup, hr.pre_lt, hlt⟩

theorem swapOut_eq (hnodup : (hooks.map fst).Nodup) (hlate : ∀ i,
      hooks.findIdx? (fun entry => entry.1 = id) = some i → hooks.length ≤ i + 2) :
    HookedModule.swapOut hooks id =
      if id ∈ hooks.map fst then some (hooks.filter fun entry => entry.1 ≠ id) else none := by
  have hsome := @findIdx?_isSome_iff _ _ _ fst hooks id
  unfold HookedModule.swapOut
  cases hfind : hooks.findIdx? (fun entry => entry.1 = id) with
  | none =>
    rw [hfind] at hsome
    rw [if_neg (fun hmem => absurd (hsome.2 hmem) (by simp))]
  | some i =>
    rw [hfind] at hsome
    rw [if_pos (hsome.1 rfl), ← (swapRemove_filter_iff hnodup hfind).2 (hlate i hfind)]

theorem filter_of_notMem :
    id ∉ hooks.map fst → hooks.filter (fun entry => entry.1 ≠ id) = hooks := by
  intro hmem
  refine filter_eq_self.2 fun entry hentry => ?_
  have hne : entry.1 ≠ id := fun h => hmem (mem_map.2 ⟨entry, hentry, h⟩)
  simpa using hne

theorem step_moduleOf (inner : V → Outcome E V) (hr : r.Numbered) (call : HookCall P Q)
    (hroom : r.issued + additions [call] < u64Size)
    (hlate : ∀ handle, call = .removeHook handle → r.AmongLastTwo handle) :
    HookedModule.step m (moduleOf inner r) call =
      .ok ((r.step call).1, moduleOf inner (r.step call).2) := by
  cases call with
  | addForwardPreHook hook =>
    have hadd : (m.add r.issued 1 : Outcome E Nat) = .ok (r.issued + 1) :=
      Machine.add_of_lt hroom
    simp only [HookedModule.step, HookedModule.addForwardPreHook, moduleOf, hadd]
    rfl
  | addForwardHook hook =>
    have hadd : (m.add r.issued 1 : Outcome E Nat) = .ok (r.issued + 1) :=
      Machine.add_of_lt hroom
    simp only [HookedModule.step, HookedModule.addForwardHook, moduleOf, hadd]
    rfl
  | removeHook handle =>
    have hlate := hlate handle rfl
    obtain ⟨id, kind⟩ := handle
    cases kind with
    | pre =>
      simp only [HookedModule.step, HookedModule.removeHook, moduleOf, swapOut_eq hr.pre hlate,
        Registered.step]
      by_cases hmem : id ∈ r.pre.map fst
      · simp only [if_pos hmem, decide_eq_true hmem]
      · simp only [if_neg hmem, decide_eq_false hmem, filter_of_notMem hmem]
    | post =>
      simp only [HookedModule.step, HookedModule.removeHook, moduleOf,
        swapOut_eq hr.post hlate, Registered.step]
      by_cases hmem : id ∈ r.post.map fst
      · simp only [if_pos hmem, decide_eq_true hmem]
      · simp only [if_neg hmem, decide_eq_false hmem, filter_of_notMem hmem]

theorem late_of_step {handle : HookHandle} {answer : Answer} (hr : r.Numbered)
    (hstep : HookedModule.step m (moduleOf inner r) (.removeHook handle) = .ok (answer, h))
    (hpre : h.preHooks = (r.step (.removeHook handle)).2.pre)
    (hpost : h.postHooks = (r.step (.removeHook handle)).2.post) : r.AmongLastTwo handle := by
  obtain ⟨id, kind⟩ := handle
  cases kind with
  | pre =>
    intro i hi
    simp only [HookedModule.step, HookedModule.removeHook, HookedModule.swapOut, moduleOf, hi,
      ok.injEq, mk.injEq] at hstep
    rw [← hstep.2] at hpre
    exact (swapRemove_filter_iff hr.pre hi).1 hpre
  | post =>
    intro i hi
    simp only [HookedModule.step, HookedModule.removeHook, HookedModule.swapOut, moduleOf, hi,
      ok.injEq, mk.injEq] at hstep
    rw [← hstep.2] at hpost
    exact (swapRemove_filter_iff hr.post hi).1 hpost

/-! ## What `forward` runs -/

theorem forward_moduleOf (inner : V → Outcome E V) (r : Registered P Q) (input : V) :
    (moduleOf inner r).forward input = (r.fires inner input, inner input) := by
  simp only [HookedModule.forward, Registered.fires, moduleOf]
  cases inner input with
  | ok output => rfl
  | err e => rfl
  | panic => rfl

/-- The entries of a trace. -/
def Event.preEntry : Event V P Q → Option (Nat × P)
  | .pre id hook _ => some (id, hook)
  | _ => none

def Event.postEntry : Event V P Q → Option (Nat × Q)
  | .post id hook _ _ => some (id, hook)
  | _ => none

/-- What runs around a module with an output tells the lists apart. -/
theorem lists_of_forward {input output : V} (hok : inner input = .ok output)
    (hrun : h.forward input = (r.fires inner input, inner input)) :
    h.preHooks = r.pre ∧ h.postHooks = r.post := by
  rw [HookedModule.forward, Registered.fires, hok] at hrun
  cases hinner : h.inner input with
  | ok found =>
    rw [hinner] at hrun
    obtain ⟨htrace, hout⟩ := mk.injEq .. ▸ hrun
    have hpre := congrArg (filterMap Event.preEntry) htrace
    have hpost := congrArg (filterMap Event.postEntry) htrace
    simp only [filterMap_append, filterMap_cons, filterMap_map, Event.preEntry,
      Event.postEntry, Function.comp_def] at hpre hpost
    exact ⟨by simpa using hpre, by simpa using hpost⟩
  | err e =>
    rw [hinner] at hrun
    cases congrArg snd hrun
  | panic =>
    rw [hinner] at hrun
    cases congrArg snd hrun

end Step

/-! ## Runs -/

section Runs

variable {V E P Q : Type} {m : Machine} {calls : List (HookCall P Q)}

theorem after_concat (calls : List (HookCall P Q)) (call : HookCall P Q) :
    Registered.after (calls ++ [call]) =
      ((Registered.after calls).1 ++ [((Registered.after calls).2.step call).1],
        ((Registered.after calls).2.step call).2) := by
  rw [Registered.after, foldl_append]
  rfl

theorem run_concat (inner : V → Outcome E V) (calls : List (HookCall P Q)) (call : HookCall P Q) :
    HookedModule.run m inner (calls ++ [call]) = (do
      let (answers, h) ← HookedModule.run m inner calls
      let (answer, h) ← HookedModule.step m h call
      pure (answers ++ [answer], h)) := by
  rw [HookedModule.run, foldlM_append]
  congr 1
  funext st
  rw [foldlM_cons]
  simp only [foldlM_nil, bind_pure]

theorem additions_append (xs ys : List (HookCall P Q)) :
    additions (xs ++ ys) = additions xs + additions ys := by
  induction xs with
  | nil => simp [additions]
  | cons call xs ih =>
    cases call with
    | addForwardPreHook _ =>
      simp only [cons_append, additions, ih]
      omega
    | addForwardHook _ =>
      simp only [cons_append, additions, ih]
      omega
    | removeHook _ => simpa only [cons_append, additions] using ih

theorem after_numbered (calls : List (HookCall P Q)) :
    (Registered.after calls).2.Numbered ∧ (Registered.after calls).2.issued = additions calls := by
  induction calls using reverseRecOn with
  | nil => exact ⟨⟨nodup_nil, nodup_nil, by simp [Registered.after],
      by simp [Registered.after]⟩, rfl⟩
  | append_singleton calls call ih =>
    rw [after_concat, additions_append, ← ih.2]
    refine ⟨ih.1.step call, ?_⟩
    cases call with
    | addForwardPreHook hook => rfl
    | addForwardHook hook => rfl
    | removeHook handle =>
      obtain ⟨id, kind⟩ := handle
      cases kind <;> rfl

theorem run_moduleOf (inner : V → Outcome E V) (hroom : additions calls < u64Size)
    (hlate : RemovesLate calls) : HookedModule.run m inner calls =
      .ok ((Registered.after calls).1, moduleOf inner (Registered.after calls).2) := by
  induction calls using reverseRecOn with
  | nil => rfl
  | append_singleton calls call ih =>
    obtain ⟨hnumbered, hissued⟩ := after_numbered calls
    have hcalls := additions_append calls [call]
    have hbefore := ih (by omega)
      fun before handle hbefore => hlate before handle (hbefore.trans (prefix_append _ _))
    rw [run_concat, hbefore, ok_bind, after_concat]
    simp only
    rw [step_moduleOf inner hnumbered call ?_ ?_]
    · rfl
    · omega
    · rintro handle rfl
      exact hlate calls handle (prefix_refl _)

theorem FiresInOrder.initial {before : List (HookCall P Q)} (h : FiresInOrder V E m calls) :
    before <+: calls → FiresInOrder V E m before := by
  intro hbefore inner front hfront
  exact h inner front (hfront.trans hbefore)

theorem removesLate_of_fires [Inhabited V] (hroom : additions calls < u64Size) :
    FiresInOrder V E m calls → RemovesLate calls := by
  induction calls using reverseRecOn with
  | nil =>
    intro _ before handle hbefore
    simp at hbefore
  | append_singleton calls call ih =>
    intro hfires
    have hcalls := additions_append calls [call]
    have hlate := ih (by omega) (hfires.initial (prefix_append _ _))
    intro before handle hbefore
    rcases prefix_concat_iff.1 hbefore with heq | hshort
    · obtain ⟨rfl, hcall⟩ := append_inj' heq rfl
      obtain rfl := singleton_injective hcall
      -- the state before the removal is known, and the state after it runs in order
      obtain ⟨h, hrun, hforward⟩ := hfires (fun x => .ok x) _ (prefix_refl _)
      rw [run_concat, run_moduleOf _ (by omega) hlate, ok_bind, after_concat] at hrun
      obtain ⟨⟨answer, h'⟩, hstep, hpure⟩ := bind_eq_ok.1 hrun
      obtain rfl : h' = h := congrArg snd (ok.inj hpure)
      rw [after_concat] at hforward
      obtain ⟨hpre, hpost⟩ := lists_of_forward rfl (hforward default)
      exact late_of_step (after_numbered before).1 hstep hpre hpost
    · exact hlate before handle hshort

/-- With room for the numbers, the hooks run in the order of registration and every removal answers
rightly, throughout the calls and for every inner module, exactly if each hook that is removed is one
of the last two of its kind. -/
theorem fires_in_order_iff [Inhabited V] (m : Machine) (calls : List (HookCall P Q))
    (hroom : additions calls < u64Size) : FiresInOrder V E m calls ↔ RemovesLate calls := by
  constructor
  · exact removesLate_of_fires hroom
  · intro hlate inner before hbefore
    obtain ⟨rest, rfl⟩ := hbefore
    have hcalls := additions_append before rest
    have hbefore : RemovesLate before := fun front handle hfront =>
      hlate front handle (hfront.trans (prefix_append _ _))
    exact ⟨_, run_moduleOf inner (by omega) hbefore, fun input => forward_moduleOf inner _ input⟩

/-- Two pre-hooks, the first of which leaves. -/
theorem fires_in_order_two : FiresInOrder Nat Unit ⟨.debug, 0⟩ [.addForwardPreHook (),
    .addForwardPreHook (), (.removeHook ⟨0, .pre⟩ : HookCall Unit Unit)] := by
  refine (fires_in_order_iff ⟨.debug, 0⟩ _ (by decide)).2 ?_
  rintro before handle ⟨rest, heq⟩
  rcases before with _ | ⟨_, _ | ⟨_, _ | ⟨_, _⟩⟩⟩
  · simp at heq
  · simp at heq
  · simp only [cons_append, nil_append, cons.injEq, HookCall.removeHook.injEq] at heq
    obtain ⟨rfl, rfl, rfl, _⟩ := heq
    exact fun i _ => Nat.le_add_left 2 i
  · simp at heq

/-- Of three pre-hooks the first leaves, and the third runs before the second. -/
theorem hooks_reordered : ¬ FiresInOrder Nat Unit ⟨.debug, 0⟩ [.addForwardPreHook (),
    .addForwardPreHook (), .addForwardPreHook (), (.removeHook ⟨0, .pre⟩ : HookCall Unit Unit)] := by
  intro h
  obtain ⟨module, hrun, hforward⟩ := h (fun x => .ok x) _ (prefix_refl _)
  obtain ⟨hpre, _⟩ := lists_of_forward rfl (hforward 0)
  cases hrun
  exact absurd hpre (by decide)

end Runs

end Nn
end Rustorch
