import Mathlib.Data.List.Basic

/-!
# Running a straight-line program through shared storage cells

A straight-line program assigns every name once.  Its meaning is a valuation of the names
(`Solves`).  A machine with fewer storage cells than names runs it by keeping each name in the
cell `cell n`; it is right as long as nothing overwrites a name between its definition and its
last read (`Undisturbed`).

- `runCells`     : the argument lists the machine hands to the instructions, in order
- `lastWriter`   : the position of the last write into a cell
- `runCells_eq`  : undisturbed programs hand out exactly the valuation's arguments
-/

namespace CellRun

open List Function

variable {N O C V : Type*} [DecidableEq C]

/-- An instruction applies `op` to the values of `reads` and names the result `writes`. -/
structure Instr (N O : Type*) where
  op : O
  reads : List N
  writes : N

/-- `val` satisfies the defining equation of every instruction; `outer` gives the names no
instruction defines. -/
def Solves (prog : List (Instr N O)) (sem : O → List V → V) (outer val : N → V) : Prop :=
  (∀ i ∈ prog, val i.writes = sem i.op (i.reads.map val)) ∧
    ∀ n, (∀ i ∈ prog, i.writes ≠ n) → val n = outer n

/-! ## The cell machine -/

section Machine

variable (internal : N → Bool) (cell : N → C) (sem : O → List V → V) (outer : N → V)

/-- Where the machine finds the value of a name: internal names live in their cell. -/
def readName (mem : C → V) (n : N) : V :=
  if internal n then mem (cell n) else outer n

def stepMem (mem : C → V) (i : Instr N O) : C → V :=
  Function.update mem (cell i.writes)
    (sem i.op (i.reads.map (readName internal cell outer mem)))

/-- The argument lists of the instructions, in program order. -/
def runCells : (C → V) → List (Instr N O) → List (List V)
  | _, [] => []
  | mem, i :: rest =>
    i.reads.map (readName internal cell outer mem) ::
      runCells (stepMem internal cell sem outer mem i) rest

end Machine

/-- Position of the last instruction among the first `n` that wrote into cell `c`. -/
def lastWriter (cell : N → C) (prog : List (Instr N O)) (c : C) : Nat → Option Nat
  | 0 => none
  | n + 1 =>
    match prog[n]? with
    | some i => if cell i.writes = c then some n else lastWriter cell prog c n
    | none => lastWriter cell prog c n

/-! ## Non-interference -/

/-- Every internal read finds its name defined earlier, with no write into its cell between the
definition and the read. -/
def Undisturbed (internal : N → Bool) (cell : N → C) (prog : List (Instr N O)) : Prop :=
  ∀ (j : Nat) (i : Instr N O), prog[j]? = some i → ∀ r ∈ i.reads, internal r = true →
    ∃ (p : Nat) (d : Instr N O), p < j ∧ prog[p]? = some d ∧ d.writes = r ∧
      ∀ (k : Nat) (e : Instr N O), p < k → k < j → prog[k]? = some e → cell e.writes ≠ cell r

theorem lastWriter_of_undisturbed {cell : N → C} {prog : List (Instr N O)} {c : C} {p : Nat}
    {d : Instr N O} :
    prog[p]? = some d → cell d.writes = c →
      ∀ j, p < j → (∀ k e, p < k → k < j → prog[k]? = some e → cell e.writes ≠ c) →
        lastWriter cell prog c j = some p := by
  intro hp hc j
  induction j with
  | zero =>
    intro hj
    omega
  | succ j ih =>
    intro hj hquiet
    by_cases hpj : p = j
    · subst hpj
      simp [lastWriter, hp, hc]
    · have hrest : lastWriter cell prog c j = some p := by
        refine ih (by omega) ?_
        intro k e hpk hkj he
        exact hquiet k e hpk (by omega) he
      cases hj' : prog[j]? with
      | none =>
        simpa [lastWriter, hj'] using hrest
      | some e =>
        have hne : cell e.writes ≠ c := hquiet j e (by omega) (by omega) hj'
        simpa [lastWriter, hj', hne] using hrest

/-- A memory holds the valuation at every cell, up to who wrote the cell last. -/
def MemAgrees (cell : N → C) (prog : List (Instr N O)) (val : N → V) (n : Nat) (mem : C → V) :
    Prop :=
  ∀ c p d, lastWriter cell prog c n = some p → prog[p]? = some d → mem c = val d.writes

section Agree

variable {internal : N → Bool} {cell : N → C} {sem : O → List V → V} {outer val : N → V}
  {prog : List (Instr N O)}

variable {i : Instr N O} {mem : C → V}

variable (houter : ∀ n, internal n = false → val n = outer n)

include houter

theorem readName_eq (hu : Undisturbed internal cell prog) {j : Nat} :
    prog[j]? = some i → MemAgrees cell prog val j mem →
      ∀ r ∈ i.reads, readName internal cell outer mem r = val r := by
  intro hi hmem r hr
  cases hint : internal r with
  | false =>
    simp [readName, hint, houter r hint]
  | true =>
    rcases hu j i hi r hr hint with ⟨p, d, hpj, hd, hdr, hquiet⟩
    have hlast : lastWriter cell prog (cell r) j = some p :=
      lastWriter_of_undisturbed hd (by rw [hdr]) j hpj hquiet
    have hcell : mem (cell r) = val d.writes := hmem _ p d hlast hd
    simp [readName, hint, hcell, hdr]

variable (hval : ∀ i ∈ prog, val i.writes = sem i.op (i.reads.map val))

include hval

variable (hu : Undisturbed internal cell prog)

include hu

theorem stepMem_agrees {j : Nat} :
    prog[j]? = some i → MemAgrees cell prog val j mem →
      MemAgrees cell prog val (j + 1) (stepMem internal cell sem outer mem i) := by
  intro hi hmem c p d hlast hd
  have hargs : i.reads.map (readName internal cell outer mem) = i.reads.map val :=
    map_congr_left (readName_eq houter hu hi hmem)
  by_cases hc : cell i.writes = c
  · have hp : j = p := by
      simpa [lastWriter, hi, hc] using hlast
    subst hp
    have hdi : i = d := by
      simpa [hi] using hd
    subst hdi
    rw [stepMem, hargs, ← hval i (mem_of_getElem? hi), hc, update_self]
  · have hlast' : lastWriter cell prog c j = some p := by
      simpa [lastWriter, hi, hc] using hlast
    rw [stepMem, update_of_ne (Ne.symm hc)]
    exact hmem c p d hlast' hd

/-- The run from position `j` hands out the valuation's arguments. -/
theorem runCells_drop_eq (rest : List (Instr N O)) :
    ∀ (done : List (Instr N O)) (mem : C → V), prog = done ++ rest →
      MemAgrees cell prog val done.length mem →
        runCells internal cell sem outer mem rest = rest.map (fun i => i.reads.map val) := by
  induction rest with
  | nil =>
    intro done mem _ _
    rfl
  | cons i rest ih =>
    intro done mem hsplit hmem
    have hi : prog[done.length]? = some i := by
      simp [hsplit]
    have hargs : i.reads.map (readName internal cell outer mem) = i.reads.map val :=
      map_congr_left (readName_eq houter hu hi hmem)
    have hnext := ih (done ++ [i]) (stepMem internal cell sem outer mem i)
      (by simp [hsplit]) (by simpa using stepMem_agrees houter hval hu hi hmem)
    simp only [runCells, map_cons, hargs, hnext]

/-- The cell machine computes the valuation, whatever its memory held at the start. -/
theorem runCells_eq (mem : C → V) :
    runCells internal cell sem outer mem prog = prog.map (fun i => i.reads.map val) := by
  refine runCells_drop_eq houter hval hu prog [] mem rfl ?_
  intro c p d hlast _
  cases hlast

end Agree

/-! ## The valuation of a well-ordered program -/

/-- Every read is defined by an earlier instruction or by no instruction at all. -/
def Ordered (prog : List (Instr N O)) : Prop :=
  ∀ (j : Nat) (i : Instr N O), prog[j]? = some i → ∀ r ∈ i.reads,
    (∀ d ∈ prog, d.writes ≠ r) ∨
      ∃ (p : Nat) (d : Instr N O), p < j ∧ prog[p]? = some d ∧ d.writes = r

section Valuation

variable [DecidableEq N] (sem : O → List V → V)

/-- Run the program in an unbounded environment. -/
def runEnv (env : N → V) (prog : List (Instr N O)) : N → V :=
  prog.foldl (fun env i => Function.update env i.writes (sem i.op (i.reads.map env))) env

theorem runEnv_of_not_written {n : N} (prog : List (Instr N O)) :
    ∀ env : N → V, (∀ i ∈ prog, i.writes ≠ n) → runEnv sem env prog n = env n := by
  induction prog with
  | nil =>
    intro env _
    rfl
  | cons i rest ih =>
    intro env h
    have hi : i.writes ≠ n := h i mem_cons_self
    have hrest := ih (update env i.writes (sem i.op (i.reads.map env)))
      (fun d hd => h d (mem_cons_of_mem i hd))
    calc
      runEnv sem env (i :: rest) n
          = update env i.writes (sem i.op (i.reads.map env)) n := hrest
      _ = env n := update_of_ne (Ne.symm hi) _ _

variable {prog : List (Instr N O)}

theorem runEnv_solves (outer : N → V) : (prog.map Instr.writes).Nodup → Ordered prog →
      Solves prog sem outer (runEnv sem outer prog) := by
  intro hnodup hord
  refine ⟨?_, ?_⟩
  · intro i hi
    obtain ⟨pre, post, rfl⟩ := append_of_mem hi
    have hsplit : (pre.map Instr.writes ++ i.writes :: post.map Instr.writes).Nodup := by
      simpa using hnodup
    have hpost : ∀ d ∈ post, d.writes ≠ i.writes := by
      intro d hd heq
      have hcons := (nodup_append.1 hsplit).2.1
      exact (nodup_cons.1 hcons).1 (heq ▸ mem_map_of_mem hd)
    -- A read of `i` is not written by `i` or after it: its definition comes earlier.
    have hread : ∀ r ∈ i.reads, ∀ d ∈ i :: post, d.writes ≠ r := by
      intro r hr d hd heq
      rcases hord pre.length i (by simp) r hr with hnone | ⟨p, e, hp, he, her⟩
      · exact hnone d (mem_append_right pre hd) heq
      · have hepre : e ∈ pre := by
          rw [getElem?_append_left hp] at he
          exact mem_of_getElem? he
        have hdisj := (nodup_append.1 hsplit).2.2
        refine hdisj e.writes (mem_map_of_mem hepre) d.writes ?_ (by rw [her, heq])
        simpa using mem_map_of_mem (f := Instr.writes) hd
    let env := runEnv sem outer pre
    let env' := update env i.writes (sem i.op (i.reads.map env))
    have hrun : runEnv sem outer (pre ++ i :: post) = runEnv sem env' post := by
      simp [runEnv, env, env']
    have hargs : i.reads.map (runEnv sem env' post) = i.reads.map env := by
      refine map_congr_left ?_
      intro r hr
      have hlater := runEnv_of_not_written sem post env'
        (fun d hd => hread r hr d (mem_cons_of_mem i hd))
      have hself : env' r = env r :=
        update_of_ne (Ne.symm (hread r hr i mem_cons_self)) _ _
      rw [hlater, hself]
    rw [hrun, hargs, runEnv_of_not_written sem post env' hpost]
    exact update_self _ _ _
  · intro n hn
    exact runEnv_of_not_written sem prog outer hn

variable {sem}

theorem Solves.eq {outer val val' : N → V} :
    Ordered prog → Solves prog sem outer val → Solves prog sem outer val' → val = val' := by
  intro hord hval hval'
  have hwritten : ∀ (j : Nat) (i : Instr N O), prog[j]? = some i →
      val i.writes = val' i.writes := by
    intro j
    induction j using Nat.strongRecOn with
    | ind j ih =>
      intro i hi
      have hmem := mem_of_getElem? hi
      have hargs : i.reads.map val = i.reads.map val' := by
        refine map_congr_left ?_
        intro r hr
        rcases hord j i hi r hr with hnone | ⟨p, d, hp, hd, rfl⟩
        · rw [hval.2 r hnone, hval'.2 r hnone]
        · exact ih p hp d hd
      rw [hval.1 i hmem, hval'.1 i hmem, hargs]
  funext n
  by_cases h : ∃ i ∈ prog, i.writes = n
  · rcases h with ⟨i, hi, rfl⟩
    rcases getElem?_of_mem hi with ⟨j, hj⟩
    exact hwritten j i hj
  · have hnone : ∀ i ∈ prog, i.writes ≠ n := by
      intro i hi heq
      exact h ⟨i, hi, heq⟩
    rw [hval.2 n hnone, hval'.2 n hnone]

end Valuation

end CellRun
