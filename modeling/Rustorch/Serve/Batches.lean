import Rustorch.Lib.Slots
import Rustorch.Serve.Batcher

/-!
# Every request in one batch, every reply to its caller

A run serves all its requests exactly when the task never goes away with requests in hand: it must
not find the queue closed while it collects a batch, and its deadlines must be instants
(`serves_iff`).
-/

namespace Rustorch
namespace Serve

open Runs List Prod

variable {V : Type} {cfg : BatchConfig} {null : V} {s : Server V} {obs : List (Obs V)}

/-! ## Histories -/

section

variable (more : List (Obs V))

include more

@[simp] theorem accepted_append :
    accepted (obs ++ more) = accepted obs ++ accepted more :=
  filterMap_append

@[simp] theorem batches_append :
    batches (obs ++ more) = batches obs ++ batches more :=
  filterMap_append

@[simp] theorem results_append :
    results (obs ++ more) = results obs ++ results more :=
  filterMap_append

@[simp] theorem answers_append :
    answers (obs ++ more) = answers obs ++ answers more :=
  filterMap_append

end

theorem due_concat (bs : List (List (Request V))) (os : List (List V)) (batch : List (Request V))
    (outputs : List V) :
    os.length = bs.length →
      due null (bs ++ [batch]) (os ++ [outputs]) = due null bs os ++ dueFrom null outputs 0 batch := by
  intro hlen
  rw [due, zipWith_append hlen.symm, flatten_append]
  simp [due]

/-- A batch whose outputs are not known yet owes nothing. -/
theorem due_pending (bs : List (List (Request V))) (os : List (List V)) (batch : List (Request V)) :
    os.length = bs.length → due null (bs ++ [batch]) os = due null bs os := by
  intro hlen
  have hzip : zipWith (fun batch outputs => dueFrom null outputs 0 batch) (bs ++ [batch])
      (os ++ []) = zipWith (fun batch outputs => dueFrom null outputs 0 batch) bs os ++
        zipWith (fun batch outputs => dueFrom null outputs 0 batch) [batch] [] :=
    zipWith_append hlen.symm
  rw [append_nil, zipWith_nil_right, append_nil] at hzip
  rw [due, hzip, due]

theorem dueFrom_cons (outputs : List V) (i : Nat) (r : Request V) (rest : List (Request V)) :
    dueFrom null outputs i (r :: rest) =
      (r.reply, outputs[i]?.getD null) :: dueFrom null outputs (i + 1) rest := by
  simp only [dueFrom, mapIdx_cons, Nat.add_zero, Nat.add_assoc, Nat.add_comm 1]

theorem dueFrom_keys (outputs : List V) (i : Nat) (batch : List (Request V)) :
    (dueFrom null outputs i batch).map fst = batch.map Request.reply := by
  induction batch generalizing i with
  | nil => rfl
  | cons r rest ih => rw [dueFrom_cons, map_cons, ih, map_cons]

/-- The replies due go to requests of the batches, in order. -/
theorem due_keys (bs : List (List (Request V))) :
    ∀ os : List (List V),
      ((due null bs os).map fst).Sublist (bs.flatten.map Request.reply) := by
  induction bs with
  | nil =>
    intro os
    simp [due]
  | cons batch bs ih =>
    intro os
    cases os with
    | nil => simp [due]
    | cons outputs os =>
      have hdue : due null (batch :: bs) (outputs :: os) =
          dueFrom null outputs 0 batch ++ due null bs os := by
        simp [due]
      rw [hdue, map_append, dueFrom_keys, flatten_cons, map_append]
      exact (Sublist.refl _).append (ih os)

/-! ## What a run keeps of the requests -/

/-- The requests, as long as none was lost. -/
structure RequestsKeep (cfg : BatchConfig) (null : V) (s : Server V) (obs : List (Obs V)) :
    Prop where
  placed : accepted obs = (batches obs).flatten ++ s.collected ++ s.queue
  numbered : ((accepted obs).map Request.reply).Pairwise (fun a b => a < b)
  bounded : ∀ r ∈ accepted obs, r.reply < s.calls.length
  sizes : ∀ b ∈ batches obs, 1 ≤ b.length ∧ b.length ≤ max 1 cfg.maxBatch
  collecting : ∀ batch deadline, s.task = .collecting batch deadline →
    1 ≤ batch.length ∧ batch.length ≤ max 1 cfg.maxBatch
  answered : answers obs ++ s.owed null = due null (batches obs) (results obs)
  inferring : ∀ batch, s.task = .inferring batch →
    ∃ bs, batches obs = bs ++ [batch] ∧ (results obs).length = bs.length
  aligned : (∀ batch, s.task ≠ .inferring batch) → (results obs).length = (batches obs).length

/-- What is known of one call. -/
structure CallKeeps (answers : List (Nat × V)) (c : Nat) (call : Call V) : Prop where
  sent : ∀ v, call.reply = .value v → (c, v) ∈ answers
  waiting : call.state = .waiting → call.reply ≠ .dropped
  returned : ∀ v, call.state = .ok v → (c, v) ∈ answers
  served : call.state ≠ .err .shutdown
  delivered : ∀ v, (c, v) ∈ answers → call.state ≠ .cancelled → call.reply = .value v

abbrev CallsKeep (answers : List (Nat × V)) (calls : List (Call V)) : Prop :=
  Slots.All (CallKeeps answers) calls

/-- What a run keeps as long as no request is lost. -/
structure Keeps (cfg : BatchConfig) (null : V) (s : Server V) (obs : List (Obs V)) : Prop where
  requests : RequestsKeep cfg null s obs
  calls : CallsKeep (answers obs) s.calls
  ended : s.task = .ended → s.closed = true

/-- The condition on a step: the task does not find the queue closed while it collects a batch, and
the deadline of a new batch is an instant. -/
def Kept (cfg : BatchConfig) (s : Server V) : Event V → Prop
  | .recv =>
    match s.task with
    | .idle => s.queue ≠ [] → s.now + cfg.maxWait < instantLimit
    | .collecting batch _ => batch.length < cfg.maxBatch → s.queue = [] → s.closed = false
    | _ => True
  | _ => True

theorem RequestsKeep.answer_lt (h : RequestsKeep cfg null s obs) {c : Nat} {v : V} :
    (c, v) ∈ answers obs → c < s.calls.length := by
  intro hmem
  have hdue : (c, v) ∈ due null (batches obs) (results obs) := by
    rw [← h.answered]
    exact mem_append_left _ hmem
  have hkey := (@due_keys V null (batches obs) (results obs)).subset
    (mem_map_of_mem hdue)
  rcases mem_map.1 hkey with ⟨r, hr, hreply⟩
  have haccepted : r ∈ accepted obs := by
    rw [h.placed]
    exact mem_append_left _ (mem_append_left _ hr)
  exact lt_of_eq_of_lt hreply.symm (h.bounded r haccepted)

theorem Keeps.serves (h : Keeps cfg null s obs) : Serves cfg null s obs := by
  have hr := h.requests
  refine ⟨hr.placed, ?_, hr.sizes, hr.answered, ?_, ?_, ?_, ?_⟩
  · exact hr.numbered.imp fun hlt => Nat.ne_of_lt hlt
  · cases htask : s.task with
    | inferring batch =>
      rcases hr.inferring batch htask with ⟨bs, hbs, hlen⟩
      rw [hbs, hlen, length_append]
      exact ⟨Nat.le_add_right _ _, Nat.le_refl _⟩
    | _ =>
      have hlen := hr.aligned (by simp [htask])
      omega
  · intro c v hmem
    have hlt := hr.answer_lt hmem
    refine ⟨s.calls[c], getElem?_eq_getElem hlt, ?_⟩
    exact (h.calls c _ (getElem?_eq_getElem hlt)).delivered v hmem
  · intro c call v hcall
    exact (h.calls c call hcall).returned v
  · intro c call hcall hshut
    exact absurd hshut (h.calls c call hcall).served

/-! ## Calls -/

section Calls

variable {as : List (Nat × V)} {calls : List (Call V)} {c : Nat}

theorem CallKeeps.cancel {call : Call V} (h : CallKeeps as c call) : CallKeeps as c call.cancel := by
  unfold Call.cancel
  split
  · refine ⟨h.sent, ?_, ?_, ?_, ?_⟩
    · intro hstate
      cases hstate
    · intro v hstate
      cases hstate
    · intro hstate
      cases hstate
    · intro v _ hstate
      exact absurd rfl hstate
  · exact h

theorem CallKeeps.poll {call : Call V} (h : CallKeeps as c call) : CallKeeps as c call.poll := by
  unfold Call.poll
  split
  · rename_i v hstate hreply
    refine ⟨h.sent, ?_, ?_, ?_, ?_⟩
    · intro hstate'
      cases hstate'
    · intro w hstate'
      cases hstate'
      exact h.sent v hreply
    · intro hstate'
      cases hstate'
    · intro w hmem _
      exact h.delivered w hmem (by simp [hstate])
  · rename_i hstate hreply
    exact absurd hreply (h.waiting hstate)
  · exact h

theorem CallKeeps.of_other {call : Call V} {c' : Nat} {v : V} :
    c' ≠ c → CallKeeps as c' call → CallKeeps (as ++ [(c, v)]) c' call := by
  intro hne h
  have hmem : ∀ w, (c', w) ∈ as ++ [(c, v)] → (c', w) ∈ as := by
    intro w hw
    rcases mem_append.1 hw with hw | hw
    · exact hw
    · exact absurd (Prod.ext_iff.1 (mem_singleton.1 hw)).1 hne
  refine ⟨?_, h.waiting, ?_, h.served, ?_⟩
  · intro w hreply
    exact mem_append_left _ (h.sent w hreply)
  · intro w hstate
    exact mem_append_left _ (h.returned w hstate)
  · intro w hw
    exact h.delivered w (hmem w hw)

theorem CallKeeps.send {call : Call V} {v : V} :
    (∀ w, (c, w) ∉ as) → CallKeeps as c call → CallKeeps (as ++ [(c, v)]) c (call.send v) := by
  intro hfresh h
  have hone : ∀ w, (c, w) ∈ as ++ [(c, v)] → w = v := by
    intro w hw
    rcases mem_append.1 hw with hw | hw
    · exact absurd hw (hfresh w)
    · exact (Prod.ext_iff.1 (mem_singleton.1 hw)).2
  unfold Call.send
  split
  · rename_i hstate
    refine ⟨?_, h.waiting, ?_, h.served, ?_⟩
    · intro w hreply
      exact mem_append_left _ (h.sent w hreply)
    · intro w hok
      exact mem_append_left _ (h.returned w hok)
    · intro w _ hne
      exact absurd hstate hne
  · refine ⟨?_, ?_, ?_, h.served, ?_⟩
    · intro w hreply
      cases hreply
      exact mem_append_right _ mem_cons_self
    · intro _ hreply
      cases hreply
    · intro w hok
      exact absurd (h.returned w hok) (hfresh w)
    · intro w hw _
      rw [hone w hw]

theorem CallsKeep.send {v : V} :
    (∀ w, (c, w) ∉ as) → CallsKeep as calls →
      CallsKeep (as ++ [(c, v)]) (calls.modify c (Call.send v)) := by
  intro hfresh h
  refine h.modify ?_ ?_
  · intro call hcall
    exact hcall.send hfresh
  · intro j call hne hcall
    exact hcall.of_other hne

end Calls

/-! ## Steps that keep the requests -/

theorem RequestsKeep.frame {s' : Server V} (h : RequestsKeep cfg null s obs) :
    s'.task = s.task → s'.queue = s.queue → s.calls.length ≤ s'.calls.length →
      RequestsKeep cfg null s' obs := by
  intro htask hqueue hcalls
  refine ⟨?_, h.numbered, ?_, h.sizes, ?_, ?_, ?_, ?_⟩
  · rw [h.placed, Server.collected, Server.collected, htask, hqueue]
  · intro r hr
    exact Nat.lt_of_lt_of_le (h.bounded r hr) hcalls
  · rw [htask]
    exact h.collecting
  · rw [← h.answered, Server.owed, Server.owed, htask]
  · rw [htask]
    exact h.inferring
  · rw [htask]
    exact h.aligned

theorem not_closed_of_alive {handle : Nat} : s.alive handle = true → s.closed = false := by
  intro halive
  have hget : s.handles[handle]? = some true := by
    simpa [Server.alive] using halive
  rw [Server.closed, all_eq_false]
  exact ⟨true, mem_of_getElem? hget, by simp⟩

theorem Keeps.running (h : Keeps cfg null s obs) {handle : Nat} :
    s.alive handle = true → s.task ≠ .ended := by
  intro halive hended
  have hclosed := h.ended hended
  rw [not_closed_of_alive halive] at hclosed
  cases hclosed

theorem CallKeeps.refused {as : List (Nat × V)} {c handle : Nat} :
    (∀ v, (c, v) ∉ as) →
      CallKeeps as c { handle := handle, reply := .dropped, state := .err .overloaded } := by
  intro hfresh
  refine ⟨?_, ?_, ?_, ?_, ?_⟩
  · intro v hreply
    cases hreply
  · intro hstate
    cases hstate
  · intro v hstate
    cases hstate
  · intro hstate
    cases hstate
  · intro v hmem
    exact absurd hmem (hfresh v)

theorem CallKeeps.accepted {as : List (Nat × V)} {c handle : Nat} :
    (∀ v, (c, v) ∉ as) →
      CallKeeps as c { handle := handle, reply := .empty, state := .waiting } := by
  intro hfresh
  refine ⟨?_, ?_, ?_, ?_, ?_⟩
  · intro v hreply
    cases hreply
  · intro _ hreply
    cases hreply
  · intro v hstate
    cases hstate
  · intro hstate
    cases hstate
  · intro v hmem
    exact absurd hmem (hfresh v)

theorem RequestsKeep.accept (h : RequestsKeep cfg null s obs) (input : V) (call : Call V) :
    RequestsKeep cfg null
      { s with
        queue := s.queue ++ [{ input := input, reply := s.calls.length }]
        calls := s.calls ++ [call] }
      (obs ++ [.accepted { input := input, reply := s.calls.length }]) := by
  have hnone : ∀ r : Request V, batches [Obs.accepted r] = [] ∧ results [Obs.accepted r] = [] ∧
      answers [Obs.accepted r] = [] ∧ accepted [Obs.accepted r] = [r] := by
    intro r
    exact ⟨rfl, rfl, rfl, rfl⟩
  refine ⟨?_, ?_, ?_, ?_, h.collecting, ?_, ?_, ?_⟩
  · rw [accepted_append, batches_append, (hnone _).1, (hnone _).2.2.2, append_nil, h.placed,
      ← append_assoc]
    rfl
  · rw [accepted_append, (hnone _).2.2.2, map_append, pairwise_append]
    refine ⟨h.numbered, pairwise_singleton _ _, ?_⟩
    intro a ha b hb
    rcases mem_map.1 ha with ⟨r, hr, rfl⟩
    rw [mem_singleton.1 hb]
    exact h.bounded r hr
  · intro r hr
    rw [length_append, length_singleton]
    rw [accepted_append] at hr
    rcases mem_append.1 hr with hr | hr
    · exact Nat.lt_succ_of_lt (h.bounded r hr)
    · rw [mem_singleton.1 hr]
      exact Nat.lt_succ_self _
  · rw [batches_append, (hnone _).1, append_nil]
    exact h.sizes
  · rw [answers_append, batches_append, results_append, (hnone _).1, (hnone _).2.1,
      (hnone _).2.2.1, append_nil, append_nil, append_nil, ← h.answered]
    rfl
  · rw [batches_append, results_append, (hnone _).1, (hnone _).2.1, append_nil, append_nil]
    exact h.inferring
  · rw [batches_append, results_append, (hnone _).1, (hnone _).2.1, append_nil, append_nil]
    exact h.aligned

theorem keeps_predict {handle : Nat} {input : V} :
    s.alive handle = true → Keeps cfg null s obs →
      Keeps cfg null (predict cfg s handle input).1 (obs ++ (predict cfg s handle input).2) := by
  intro halive h
  have hrunning := h.running halive
  have hfresh : ∀ v, (s.calls.length, v) ∉ answers obs := by
    intro v hmem
    exact absurd (h.requests.answer_lt hmem) (Nat.lt_irrefl _)
  -- while a handle is alive the task is there, and only a full queue refuses
  have hcases : predict cfg s handle input =
      if cfg.queueDepth ≤ s.queue.length then
        ({ s with calls := s.calls ++ [{ handle := handle, reply := .dropped,
                                         state := .err .overloaded }] }, [])
      else
        ({ s with
            queue := s.queue ++ [{ input := input, reply := s.calls.length }]
            calls := s.calls ++ [{ handle := handle, reply := .empty, state := .waiting }] },
          [.accepted { input := input, reply := s.calls.length }]) := by
    unfold predict
    cases htask : s.task with
    | ended => exact absurd htask hrunning
    | _ => rfl
  rw [hcases]
  split
  · rw [append_nil]
    refine ⟨h.requests.frame rfl rfl (by simp), ?_, h.ended⟩
    exact h.calls.concat (.refused hfresh)
  · refine ⟨h.requests.accept input _, ?_, h.ended⟩
    have hcalls := h.calls.concat (@CallKeeps.accepted V (answers obs) _ handle hfresh)
    simpa [answers] using hcalls

theorem closed_set_false (handle : Nat) :
    s.closed = true → ({ s with handles := s.handles.set handle false } : Server V).closed = true := by
  intro hclosed
  rw [Server.closed, all_eq_true] at hclosed ⊢
  intro h hmem
  rcases mem_or_eq_of_mem_set hmem with hold | rfl
  · exact hclosed h hold
  · rfl

section

variable (h : Keeps cfg null s obs)

include h

/-- The task takes requests off the queue. -/
theorem keeps_recv :
    Kept cfg s .recv → Keeps cfg null (recv cfg s) obs := by
  intro hkept
  have hr := h.requests
  have hplaced := hr.placed
  have hanswered := hr.answered
  have haligned := hr.aligned
  cases htask : s.task with
  | idle =>
    simp only [Server.collected, htask, append_nil] at hplaced
    simp only [Server.owed, htask, append_nil] at hanswered
    simp only [htask] at haligned
    simp only [Kept, htask] at hkept
    cases hqueue : s.queue with
    | nil =>
      simp only [recv, htask, hqueue]
      split
      · rename_i hclosed
        refine ⟨⟨?_, hr.numbered, hr.bounded, hr.sizes, ?_, ?_, ?_, ?_⟩, h.calls, fun _ => hclosed⟩
        · simpa [Server.collected, hqueue] using hplaced
        · intro batch deadline hbatch
          cases hbatch
        · simpa [Server.owed] using hanswered
        · intro batch hbatch
          cases hbatch
        · intro _
          exact haligned (fun batch hbatch => by cases hbatch)
      · exact h
    | cons first queue =>
      have hinstant := hkept (by simp [hqueue])
      simp only [recv, htask, hqueue, if_pos hinstant]
      refine ⟨⟨?_, hr.numbered, hr.bounded, hr.sizes, ?_, ?_, ?_, ?_⟩, h.calls, ?_⟩
      · rw [hplaced, hqueue]
        simp [Server.collected]
      · intro batch deadline hbatch
        cases hbatch
        exact ⟨Nat.le_refl 1, Nat.le_max_left 1 _⟩
      · simpa [Server.owed] using hanswered
      · intro batch hbatch
        cases hbatch
      · intro _
        exact haligned (fun batch hbatch => by cases hbatch)
      · intro hended
        cases hended
  | collecting batch deadline =>
    simp only [Server.collected, htask] at hplaced
    simp only [Server.owed, htask, append_nil] at hanswered
    simp only [htask] at haligned
    simp only [Kept, htask] at hkept
    simp only [recv, htask]
    split
    · rename_i hroom
      cases hqueue : s.queue with
      | nil =>
        -- the queue is not closed, so the task waits
        simp only [hkept hroom hqueue, Bool.false_eq_true, if_false]
        exact h
      | cons r queue =>
        refine ⟨⟨?_, hr.numbered, hr.bounded, hr.sizes, ?_, ?_, ?_, ?_⟩, h.calls, ?_⟩
        · rw [hplaced, hqueue]
          simp [Server.collected]
        · intro batch' deadline' hbatch
          cases hbatch
          rw [length_append, length_singleton]
          exact ⟨Nat.le_add_left 1 _, Nat.le_trans hroom (Nat.le_max_right 1 _)⟩
        · simpa [Server.owed] using hanswered
        · intro batch' hbatch
          cases hbatch
        · intro _
          exact haligned (fun batch' hbatch => by cases hbatch)
        · intro hended
          cases hended
    · exact h
  | inferring batch =>
    simp only [recv, htask]
    exact h
  | replying outputs i rest =>
    simp only [recv, htask]
    exact h
  | ended =>
    simp only [recv, htask]
    exact h

/-- A batch goes to the inference function. -/
theorem keeps_close :
    Keeps cfg null (close cfg s).1 (obs ++ (close cfg s).2) := by
  have hr := h.requests
  unfold close
  split
  · rename_i batch deadline htask
    split
    · have hplaced := hr.placed
      have hanswered := hr.answered
      have hlen := hr.aligned (by simp [htask])
      simp only [Server.collected, htask] at hplaced
      simp only [Server.owed, htask, append_nil] at hanswered
      have hobs : accepted [Obs.batch batch] = [] ∧ batches [Obs.batch batch] = [batch] ∧
          results [Obs.batch batch] = [] ∧ answers [Obs.batch batch] = [] := ⟨rfl, rfl, rfl, rfl⟩
      rcases hobs with ⟨hacc, hbat, hres, hans⟩
      -- the collected requests become the last batch, so nothing is placed anew or owed
      refine ⟨⟨?_, ?_, ?_, ?_, ?_, ?_, ?_, ?_⟩, ?_, ?_⟩
      · rw [accepted_append, hacc, batches_append, hbat, append_nil, hplaced, flatten_append]
        simp [Server.collected]
      · rw [accepted_append, hacc, append_nil]
        exact hr.numbered
      · rw [accepted_append, hacc, append_nil]
        exact hr.bounded
      · intro b hb
        rw [batches_append, hbat] at hb
        rcases mem_append.1 hb with hb | hb
        · exact hr.sizes b hb
        · rw [mem_singleton.1 hb]
          exact hr.collecting batch deadline htask
      · intro batch' deadline' hbatch
        cases hbatch
      · rw [answers_append, hans, append_nil, batches_append, hbat, results_append, hres,
          append_nil, due_pending _ _ batch hlen, ← hanswered]
        exact append_nil _
      · intro batch' hbatch
        cases hbatch
        refine ⟨batches obs, by rw [batches_append, hbat], ?_⟩
        rw [results_append, hres, append_nil]
        exact hlen
      · intro hnot
        exact absurd rfl (hnot batch)
      · rw [answers_append, hans, append_nil]
        exact h.calls
      · intro hended
        cases hended
    · rw [append_nil]
      exact h
  · rw [append_nil]
    exact h

/-- The outputs of a batch come back. -/
theorem keeps_inferred (result : Option (List V)) :
    Keeps cfg null (inferred s result).1 (obs ++ (inferred s result).2) := by
  have hr := h.requests
  unfold inferred
  split
  · rename_i batch htask
    have hplaced := hr.placed
    have hanswered := hr.answered
    rcases hr.inferring batch htask with ⟨bs, hbs, hlen⟩
    simp only [Server.collected, htask] at hplaced
    simp only [Server.owed, htask, append_nil] at hanswered
    generalize result.getD [] = outputs
    have hobs : accepted [(Obs.outputs outputs : Obs V)] = [] ∧
        batches [(Obs.outputs outputs : Obs V)] = [] ∧
        results [(Obs.outputs outputs : Obs V)] = [outputs] ∧
        answers [(Obs.outputs outputs : Obs V)] = [] := ⟨rfl, rfl, rfl, rfl⟩
    rcases hobs with ⟨hacc, hbat, hres, hans⟩
    refine ⟨⟨?_, ?_, ?_, ?_, ?_, ?_, ?_, ?_⟩, ?_, ?_⟩
    · rw [accepted_append, hacc, batches_append, hbat, append_nil, append_nil]
      exact hplaced
    · rw [accepted_append, hacc, append_nil]
      exact hr.numbered
    · rw [accepted_append, hacc, append_nil]
      exact hr.bounded
    · rw [batches_append, hbat, append_nil]
      exact hr.sizes
    · intro batch' deadline' hbatch
      cases hbatch
    · -- the outputs are those of the last batch
      rw [answers_append, hans, append_nil, batches_append, hbat, append_nil,
        results_append, hres, hbs, due_concat bs _ batch outputs hlen, hanswered, hbs,
        due_pending bs _ batch hlen]
      rfl
    · intro batch' hbatch
      cases hbatch
    · intro _
      rw [results_append, hres, batches_append, hbat, append_nil, hbs, length_append,
        length_append, hlen]
      rfl
    · rw [answers_append, hans, append_nil]
      exact h.calls
    · intro hended
      cases hended
  · rw [append_nil]
    exact h

omit h in
/-- The key of the next reply is not among those already sent. -/
theorem RequestsKeep.fresh (h : RequestsKeep cfg null s obs) {c : Nat} {v : V}
    {rest : List (Nat × V)} :
    s.owed null = (c, v) :: rest → ∀ w, (c, w) ∉ answers obs := by
  intro howed w hmem
  have hkeys : ((answers obs ++ s.owed null).map fst).Pairwise (fun a b => a < b) := by
    rw [h.answered]
    have hsub := @due_keys V null (batches obs) (results obs)
    refine h.numbered.sublist (hsub.trans ?_)
    rw [h.placed, append_assoc]
    exact (sublist_append_left _ _).map _
  rw [howed, map_append, pairwise_append] at hkeys
  have hlt := hkeys.2.2 c (mem_map_of_mem hmem) c mem_cons_self
  exact Nat.lt_irrefl c hlt

theorem keeps_reply :
    Keeps cfg null (reply null s).1 (obs ++ (reply null s).2) := by
  have hr := h.requests
  unfold reply
  split
  · rename_i outputs i r rest htask
    have hplaced := hr.placed
    have hanswered := hr.answered
    have howed : s.owed null = (r.reply, outputs[i]?.getD null) ::
        dueFrom null outputs (i + 1) rest := by
      simp only [Server.owed, htask]
      exact dueFrom_cons outputs i r rest
    -- the reply is the first one owed, and its key was not answered before
    have hfresh := hr.fresh howed
    rw [howed] at hanswered
    simp only [Server.collected, htask] at hplaced
    generalize hout : outputs[i]?.getD null = out at *
    have hobs : accepted [(Obs.answered r.reply out : Obs V)] = [] ∧
        batches [(Obs.answered r.reply out : Obs V)] = [] ∧
        results [(Obs.answered r.reply out : Obs V)] = [] ∧
        answers [(Obs.answered r.reply out : Obs V)] = [(r.reply, out)] := ⟨rfl, rfl, rfl, rfl⟩
    rcases hobs with ⟨hacc, hbat, hres, hans⟩
    refine ⟨⟨?_, ?_, ?_, ?_, ?_, ?_, ?_, ?_⟩, ?_, ?_⟩
    · rw [accepted_append, hacc, batches_append, hbat, append_nil, append_nil]
      exact hplaced
    · rw [accepted_append, hacc, append_nil]
      exact hr.numbered
    · rw [accepted_append, hacc, append_nil]
      intro r' hr'
      rw [length_modify]
      exact hr.bounded r' hr'
    · rw [batches_append, hbat, append_nil]
      exact hr.sizes
    · intro batch' deadline' hbatch
      cases hbatch
    · rw [answers_append, hans, batches_append, hbat, results_append, hres, append_nil,
        append_nil, ← hanswered, append_assoc]
      rfl
    · intro batch' hbatch
      cases hbatch
    · intro _
      rw [results_append, hres, batches_append, hbat, append_nil, append_nil]
      exact hr.aligned (by simp [htask])
    · rw [answers_append, hans]
      exact CallsKeep.send hfresh h.calls
    · intro hended
      cases hended
  · rename_i outputs i htask
    rw [append_nil]
    have hplaced := hr.placed
    have hanswered := hr.answered
    simp only [Server.collected, htask] at hplaced
    simp only [Server.owed, htask] at hanswered
    refine ⟨⟨hplaced, hr.numbered, hr.bounded, hr.sizes, ?_, hanswered, ?_, ?_⟩, h.calls, ?_⟩
    · intro batch' deadline' hbatch
      cases hbatch
    · intro batch' hbatch
      cases hbatch
    · intro _
      exact hr.aligned (by simp [htask])
    · intro hended
      cases hended
  · rw [append_nil]
    exact h

end

theorem keeps_step (s : Server V) (obs : List (Obs V)) (e : Event V) :
    Kept cfg s e → Keeps cfg null s obs →
      Keeps cfg null (step cfg null s e) (obs ++ shown cfg null s e) := by
  intro hkept h
  cases e with
  | clone handle =>
    simp only [step, shown, next]
    split
    · rename_i halive
      rw [append_nil]
      refine ⟨h.requests.frame rfl rfl (Nat.le_refl _), h.calls, ?_⟩
      intro hended
      exact absurd hended (h.running halive)
    · rw [append_nil]
      exact h
  | dropHandle handle =>
    simp only [step, shown, next, append_nil]
    refine ⟨h.requests.frame rfl rfl (Nat.le_refl _), h.calls, ?_⟩
    intro hended
    exact closed_set_false handle (h.ended hended)
  | predict handle input =>
    simp only [step, shown, next]
    split
    · rename_i halive
      exact keeps_predict halive h
    · rw [append_nil]
      exact h
  | cancel c =>
    simp only [step, shown, next, append_nil]
    refine ⟨h.requests.frame rfl rfl (by simp), ?_, h.ended⟩
    exact h.calls.modify (fun call hcall => hcall.cancel) (fun _ _ _ hcall => hcall)
  | poll c =>
    simp only [step, shown, next, append_nil]
    refine ⟨h.requests.frame rfl rfl (by simp), ?_, h.ended⟩
    exact h.calls.modify (fun call hcall => hcall.poll) (fun _ _ _ hcall => hcall)
  | tick nanos =>
    simp only [step, shown, next, append_nil]
    exact ⟨h.requests.frame rfl rfl (Nat.le_refl _), h.calls, h.ended⟩
  | recv =>
    simp only [step, shown, next, append_nil]
    exact keeps_recv h hkept
  | close => exact keeps_close h
  | inferred result => exact keeps_inferred h result
  | reply => exact keeps_reply h

/-! ## Lost requests -/

/-- The task has gone away with requests that are in no batch. -/
structure Lost (s : Server V) (obs : List (Obs V)) : Prop where
  ended : s.task = .ended
  queue : s.queue = []
  missing : (batches obs).flatten.length < (accepted obs).length

/-- A task that is gone takes no request and makes no batch. -/
theorem lost_step (s : Server V) (obs : List (Obs V)) (e : Event V) :
    Lost s obs → Lost (step cfg null s e) (obs ++ shown cfg null s e) := by
  rintro ⟨hended, hqueue, hmissing⟩
  have hstep : (step cfg null s e).task = .ended ∧ (step cfg null s e).queue = [] ∧
      shown cfg null s e = [] := by
    cases e with
    | clone handle =>
      simp only [step, shown, next]
      split <;> exact ⟨hended, hqueue, rfl⟩
    | predict handle input =>
      simp only [step, shown, next, predict, hended]
      split
      · exact ⟨rfl, hqueue, rfl⟩
      · exact ⟨hended, hqueue, rfl⟩
    | dropHandle handle => exact ⟨hended, hqueue, rfl⟩
    | cancel c => exact ⟨hended, hqueue, rfl⟩
    | poll c => exact ⟨hended, hqueue, rfl⟩
    | tick nanos => exact ⟨hended, hqueue, rfl⟩
    | recv =>
      simp only [step, shown, next, recv, hended]
      exact ⟨trivial, hqueue, trivial⟩
    | close =>
      simp only [step, shown, next, close, hended]
      exact ⟨trivial, hqueue, trivial⟩
    | inferred result =>
      simp only [step, shown, next, inferred, hended]
      exact ⟨trivial, hqueue, trivial⟩
    | reply =>
      simp only [step, shown, next, reply, hended]
      exact ⟨trivial, hqueue, trivial⟩
  rw [hstep.2.2, append_nil]
  exact ⟨hstep.1, hstep.2.1, hmissing⟩

theorem Lost.not_serves (h : Lost s obs) : ¬ Serves cfg null s obs := by
  intro hserves
  have hplaced := hserves.placed
  simp only [Server.collected, h.ended, h.queue, append_nil] at hplaced
  have hmissing := h.missing
  rw [hplaced] at hmissing
  exact Nat.lt_irrefl _ hmissing

/-- A step outside the condition loses the batch that was being collected, or the first request
with the queue behind it. -/
theorem lost_of_not_kept (s : Server V) (obs : List (Obs V)) (e : Event V) :
    ¬ Kept cfg s e → Keeps cfg null s obs →
      Lost (step cfg null s e) (obs ++ shown cfg null s e) := by
  intro hkept h
  have hplaced := h.requests.placed
  cases e with
  | recv =>
    simp only [step, shown, next, append_nil]
    cases htask : s.task with
    | idle =>
      simp only [Kept, htask, Classical.not_imp, Nat.not_lt] at hkept
      simp only [Server.collected, htask, append_nil] at hplaced
      cases hqueue : s.queue with
      | nil => exact absurd hqueue hkept.1
      | cons first queue =>
        have hrecv : recv cfg s =
            { s with queue := [], calls := dropRequests s.calls (first :: queue),
                     task := .ended } := by
          simp only [recv, htask, hqueue, if_neg (Nat.not_lt.2 hkept.2)]
        rw [hrecv]
        refine ⟨rfl, rfl, ?_⟩
        rw [hplaced, hqueue, length_append, length_cons]
        omega
    | collecting batch deadline =>
      simp only [Kept, htask, Classical.not_imp, Bool.not_eq_false] at hkept
      simp only [Server.collected, htask] at hplaced
      rcases hkept with ⟨hroom, hqueue, hclosed⟩
      have hrecv : recv cfg s = { s with calls := dropRequests s.calls batch, task := .ended } := by
        simp only [recv, htask, if_pos hroom, hqueue, hclosed, if_true]
      rw [hrecv]
      have hbatch := (h.requests.collecting batch deadline htask).1
      refine ⟨rfl, hqueue, ?_⟩
      rw [hplaced, length_append, length_append]
      omega
    | inferring batch =>
      simp only [Kept, htask] at hkept
      exact absurd trivial hkept
    | replying outputs i rest =>
      simp only [Kept, htask] at hkept
      exact absurd trivial hkept
    | ended =>
      simp only [Kept, htask] at hkept
      exact absurd trivial hkept
  | _ => exact absurd trivial hkept

theorem keeps_spawn : spawn cfg = some s → Keeps cfg null s [] := by
  intro hspawn
  unfold spawn at hspawn
  split at hspawn
  · cases hspawn
    refine ⟨⟨rfl, Pairwise.nil, ?_, ?_, ?_, rfl, ?_, fun _ => rfl⟩, Slots.all_nil, ?_⟩
    · intro r hr
      cases hr
    · intro b hb
      cases hb
    · intro batch deadline hbatch
      cases hbatch
    · intro batch hbatch
      cases hbatch
    · intro hended
      cases hended
  · cases hspawn

/-- A run of a batcher serves its requests exactly if the task never finds the queue closed while
it collects a batch, and the deadline of every batch is an instant. -/
theorem serves_iff {s₀ : Server V} (events : List (Event V)) :
    spawn cfg = some s₀ →
      (Serves cfg null (run (step cfg null) s₀ events)
          (outputs (step cfg null) (shown cfg null) s₀ events) ↔
        Along (step cfg null) (Kept cfg) s₀ events) := by
  intro hspawn
  have hinit := @keeps_spawn V cfg null s₀ hspawn
  constructor
  · intro hserves
    have hor : Along (step cfg null) (Kept cfg) s₀ events ∨
        Lost (run (step cfg null) s₀ events)
          ([] ++ outputs (step cfg null) (shown cfg null) s₀ events) :=
      along_or (Keeps cfg null) Lost keeps_step lost_of_not_kept lost_step hinit
    rcases hor with halong | hlost
    · exact halong
    · exact absurd hserves hlost.not_serves
  · intro halong
    have hkeeps := invariant_outputs (Keeps cfg null) keeps_step halong hinit
    exact hkeeps.serves

/-- Batches of at most two, with a queue of four. -/
def pairs : BatchConfig where
  maxBatch := 2
  maxWait := 20000000
  queueDepth := 4

/-- Two calls are answered from one batch by a function that returns one output. -/
def oneBatch : List (Event Nat) :=
  [.predict 0 7, .predict 0 8, .recv, .recv, .close, .inferred (some [70]), .reply, .reply, .reply,
    .poll 0, .poll 1]

theorem serves_oneBatch :
    ∃ s₀, spawn pairs = some s₀ ∧
      Serves pairs 0 (run (step pairs 0) s₀ oneBatch)
        (outputs (step pairs 0) (shown pairs 0) s₀ oneBatch) ∧
      answers (outputs (step pairs 0) (shown pairs 0) s₀ oneBatch) = [(0, 70), (1, 0)] := by
  refine ⟨_, rfl, ?_, by decide⟩
  refine (serves_iff oneBatch rfl).2 ?_
  refine ⟨trivial, trivial, ?_, ?_, trivial, trivial, trivial, trivial, trivial, trivial, trivial,
    trivial⟩
  · intro _
    decide
  · intro _ hqueue
    cases hqueue

/-- A call is given up while its request is collected, and the last handle is dropped: the task
returns, and the request is in no batch. -/
def orphan : List (Event Nat) :=
  [.predict 0 7, .recv, .cancel 0, .dropHandle 0, .recv]

theorem orphan_not_served :
    ∃ s₀, spawn pairs = some s₀ ∧
      accepted (outputs (step pairs 0) (shown pairs 0) s₀ orphan) = [{ input := 7, reply := 0 }] ∧
      batches (outputs (step pairs 0) (shown pairs 0) s₀ orphan) = [] ∧
      (run (step pairs 0) s₀ orphan).queue = [] ∧
      ¬ Serves pairs 0 (run (step pairs 0) s₀ orphan)
        (outputs (step pairs 0) (shown pairs 0) s₀ orphan) := by
  refine ⟨_, rfl, by decide, by decide, rfl, ?_⟩
  intro h
  have hlen := congrArg length h.placed
  revert hlen
  decide

/-- With a wait that no instant can hold, the first caller is told of a shutdown on a live handle. -/
example :
    let s : Server Nat := run (step { pairs with maxWait := 2 ^ 64 * 1000000000 } 0)
      { now := 0, handles := [true], queue := [], calls := [], task := .idle }
      [.predict 0 7, .recv, .poll 0]
    s.calls.map Call.state = [.err .shutdown] ∧ s.alive 0 = true := by
  decide +kernel

end Serve
end Rustorch
