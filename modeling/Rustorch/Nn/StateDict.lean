import Rustorch.Autograd.Variable
import Rustorch.Lib.StringMap
import Rustorch.Nn.Module

/-!
# State dictionaries

`stateDict` collects the parameters of a module tree under their names; `loadStateDict` writes
such a map into the parameters of another tree.  Variables are handles into a store, so two places
of a tree can share one.

Saving and loading loses nothing exactly if the names are unambiguous (`stateDict_lossless_iff`).
-/

namespace Rustorch
namespace Nn

open Rustorch.Core Autograd List StringMap Function

section StateDict

variable {α : Type}

inductive StateDictError
  | missingKey (key : String)
  | unexpectedKey (key : String)
  | shapeMismatch (key : String) (expected got : List Nat)
  deriving DecidableEq, Repr

structure LoadReport where
  missing : List String
  unexpected : List String
  deriving DecidableEq, Repr

def stateDict (σ : Store α) (m : Module Var) : StringMap (Tensor α) :=
  ofEntries (m.namedParameters.map (fun p => (p.1, σ p.2)))

/-- The loop over the module's parameters; an error leaves the writes made so far. -/
def loadLoop (sd : StringMap (Tensor α)) (strict : Bool) :
    List (String × Var) → LoadReport → Store α → Except StateDictError LoadReport × Store α
  | [], report, σ => (.ok report, σ)
  | (name, dst) :: rest, report, σ =>
    match sd[name]? with
    | some src =>
      if (σ dst).shape ≠ src.shape then
        (.error (.shapeMismatch name (σ dst).shape src.shape), σ)
      else
        loadLoop sd strict rest report (setData σ dst src)
    | none =>
      if strict then
        (.error (.missingKey name), σ)
      else
        loadLoop sd strict rest { report with missing := report.missing ++ [name] } σ

/-- The loop over the map's keys. -/
def unexpectedLoop (moduleParams : StringMap Var) (strict : Bool) :
    List String → LoadReport → Except StateDictError LoadReport
  | [], report => .ok report
  | sdKey :: rest, report =>
    if moduleParams.contains sdKey then
      unexpectedLoop moduleParams strict rest report
    else if strict then
      .error (.unexpectedKey sdKey)
    else
      unexpectedLoop moduleParams strict rest
        { report with unexpected := report.unexpected ++ [sdKey] }

def loadStateDict (m : Module Var) (sd : StringMap (Tensor α)) (strict : Bool) (σ : Store α) :
    Except StateDictError LoadReport × Store α :=
  let moduleParams := ofEntries m.namedParameters
  match loadLoop sd strict moduleParams.toList { missing := [], unexpected := [] } σ with
  | (.ok report, σ') => (unexpectedLoop moduleParams strict sd.keys report, σ')
  | (.error e, σ') => (.error e, σ')

/-! ## Trees of the same structure -/

namespace Module

variable {τ υ : Type}

mutual

def map (f : τ → υ) : Module τ → Module υ
  | .leaf params => .leaf (params.map (fun p => (p.1, f p.2)))
  | .list modules => .list (mapList f modules)
  | .dict order modules => .dict order (mapEntries f modules)

def mapList (f : τ → υ) : List (Module τ) → List (Module υ)
  | [] => []
  | m :: rest => m.map f :: mapList f rest

def mapEntries (f : τ → υ) : List (String × Module τ) → List (String × Module υ)
  | [] => []
  | (k, m) :: rest => (k, m.map f) :: mapEntries f rest

end

theorem underKey_map (f : τ → υ) (k : String) (named : List (String × τ)) :
    underKey k (named.map (fun p => (p.1, f p.2))) =
      (underKey k named).map (fun p => (p.1, f p.2)) := by
  simp [underKey]

theorem lookup_map {β γ : Type} (g : β → γ) (k : String) (entries : List (String × β)) :
    (entries.map (fun e => (e.1, g e.2))).lookup k = (entries.lookup k).map g := by
  induction entries with
  | nil => rfl
  | cons e entries ih =>
    obtain ⟨k', b⟩ := e
    by_cases h : k = k'
    · subst h
      simp
    · rw [map_cons, lookup_cons_ne h, lookup_cons_ne h, ih]

mutual

theorem namedParameters_map (f : τ → υ) :
    ∀ m : Module τ, (m.map f).namedParameters = m.namedParameters.map (fun p => (p.1, f p.2))
  | .leaf params => by
    simp [map, namedParameters]
  | .list modules => by
    simp [map, namedParameters, namedList_map f modules 0]
  | .dict order modules => by
    simp only [map, namedParameters, namedEntries_map f modules, lookup_map, map_flatMap]
    congr 1
    funext k
    cases (namedEntries modules).lookup k with
    | none => rfl
    | some named => simp [underKey_map]

theorem namedList_map (f : τ → υ) :
    ∀ (modules : List (Module τ)) (i : Nat),
      namedList i (mapList f modules) = (namedList i modules).map (fun p => (p.1, f p.2))
  | [], _ => rfl
  | m :: rest, i => by
    simp [mapList, namedList, namedParameters_map f m, namedList_map f rest (i + 1), underKey_map]

theorem namedEntries_map (f : τ → υ) :
    ∀ modules : List (String × Module τ), namedEntries (mapEntries f modules) =
      (namedEntries modules).map (fun e => (e.1, e.2.map (fun p => (p.1, f p.2))))
  | [] => rfl
  | (k, m) :: rest => by
    simp [mapEntries, namedEntries, namedParameters_map f m, namedEntries_map f rest]

end

end Module

/-- Two trees with the same children, keys, names and shapes; places that share a variable in the
second tree share one in the first. -/
structure SameStructure (σ : Store α) (m₁ m₂ : Module Var) : Prop where
  skeleton : m₁.map (fun v => (σ v).shape) = m₂.map (fun v => (σ v).shape)
  sharing : ∀ (i j : Nat) (v : Var), m₂.parameters[i]? = some v → m₂.parameters[j]? = some v →
    m₁.parameters[i]? = m₁.parameters[j]?

/-! ## Loading -/

/-- When every name has an entry of the right shape, and places that share a variable have the
same entry, the loop writes every entry. -/
theorem loadLoop_ok {sd : StringMap (Tensor α)} {strict : Bool} (params : List (String × Var)) :
    ∀ (report : LoadReport) (σ : Store α),
      (∀ p ∈ params, ∃ x, sd[p.1]? = some x ∧ (σ p.2).shape = x.shape) →
        (∀ p ∈ params, ∀ q ∈ params, p.2 = q.2 → sd[p.1]? = sd[q.1]?) →
          ∃ σ', loadLoop sd strict params report σ = (.ok report, σ') ∧
            (∀ p ∈ params, sd[p.1]? = some (σ' p.2)) ∧
              ∀ v, v ∉ params.map Prod.snd → σ' v = σ v := by
  induction params with
  | nil =>
    intro report σ _ _
    exact ⟨σ, rfl, by simp, fun _ _ => rfl⟩
  | cons p params ih =>
    intro report σ hentry hshare
    obtain ⟨name, dst⟩ := p
    obtain ⟨src, hsrc, hshape⟩ := hentry (name, dst) mem_cons_self
    have hentry' : ∀ q ∈ params,
        ∃ x, sd[q.1]? = some x ∧ (setData σ dst src q.2).shape = x.shape := by
      intro q hq
      obtain ⟨x, hx, hxs⟩ := hentry q (mem_cons_of_mem _ hq)
      refine ⟨x, hx, ?_⟩
      by_cases hv : q.2 = dst
      · have heq := hshare (name, dst) mem_cons_self q (mem_cons_of_mem _ hq) hv.symm
        cases hsrc.symm.trans (heq.trans hx)
        rw [hv, setData, update_self]
      · rw [setData, update_of_ne hv]
        exact hxs
    obtain ⟨σ', hloop, hwritten, hframe⟩ := ih report (setData σ dst src) hentry'
      (fun a ha b hb => hshare a (mem_cons_of_mem _ ha) b (mem_cons_of_mem _ hb))
    refine ⟨σ', ?_, ?_, ?_⟩
    · simp [loadLoop, hsrc, hshape, hloop]
    · intro q hq
      rcases mem_cons.1 hq with rfl | hq
      · -- A later place may write the same variable, with the same entry.
        by_cases hlater : dst ∈ params.map Prod.snd
        · obtain ⟨q, hq, hv⟩ := mem_map.1 hlater
          have heq := hshare (name, dst) mem_cons_self q (mem_cons_of_mem _ hq) hv.symm
          rw [heq, hwritten q hq, hv]
        · rw [hframe dst hlater, setData, update_self]
          exact hsrc
      · exact hwritten q hq
    · intro v hv
      rw [map_cons, mem_cons, not_or] at hv
      rw [hframe v hv.2, setData, update_of_ne hv.1]

theorem unexpectedLoop_ok {moduleParams : StringMap Var} {strict : Bool} (keys : List String) :
    ∀ report : LoadReport, (∀ k ∈ keys, moduleParams.contains k = true) →
      unexpectedLoop moduleParams strict keys report = .ok report := by
  induction keys with
  | nil =>
    intro report _
    rfl
  | cons k keys ih =>
    intro report h
    rw [unexpectedLoop, if_pos (h k mem_cons_self)]
    exact ih report (fun k' hk' => h k' (mem_cons_of_mem k hk'))

/-- The places of two trees of one structure, side by side. -/
theorem SameStructure.forall₂ {σ : Store α} {m₁ m₂ : Module Var} :
    SameStructure σ m₁ m₂ →
      Forall₂ (fun p q => p.1 = q.1 ∧ (σ p.2).shape = (σ q.2).shape)
        m₁.namedParameters m₂.namedParameters := by
  intro h
  have hmap := congrArg Module.namedParameters h.skeleton
  rw [Module.namedParameters_map, Module.namedParameters_map] at hmap
  have hall : Forall₂ (fun a b => a = b)
      (m₁.namedParameters.map (fun p => (p.1, (σ p.2).shape)))
      (m₂.namedParameters.map (fun p => (p.1, (σ p.2).shape))) := by
    rw [hmap]
    exact forall₂_same.2 (fun _ _ => rfl)
  rw [forall₂_map_left_iff, forall₂_map_right_iff] at hall
  refine hall.imp ?_
  intro p q hpq
  exact Prod.mk.inj hpq

theorem map_fst_entries (σ : Store α) (m : Module Var) :
    (m.namedParameters.map (fun p => (p.1, σ p.2))).map Prod.fst = m.names := by
  rw [map_map]
  rfl

theorem loadStateDict_ok {σ : Store α} {m₁ m₂ : Module Var} {strict : Bool} :
    m₁.WellFormed → m₂.WellFormed → m₁.names.Nodup → SameStructure σ m₁ m₂ →
      ∃ σ', loadStateDict m₂ (stateDict σ m₁) strict σ =
          (.ok { missing := [], unexpected := [] }, σ') ∧
        m₂.parameters.map σ' = m₁.parameters.map σ := by
  intro hwf₁ hwf₂ hnodup₁ hsame
  have hall := hsame.forall₂
  have hnames : m₁.names = m₂.names := by
    have heq : Forall₂ (fun a b => a = b) m₁.names m₂.names := by
      rw [Module.names, Module.names, forall₂_map_left_iff, forall₂_map_right_iff]
      exact hall.imp (fun _ _ h => h.1)
    exact forall₂_eq_eq_eq ▸ heq
  have hnodup₂ : (m₂.namedParameters.map Prod.fst).Nodup := by
    change m₂.names.Nodup
    rwa [← hnames]
  have hsdnodup : ((m₁.namedParameters.map (fun p => (p.1, σ p.2))).map Prod.fst).Nodup := by
    rw [map_fst_entries]
    exact hnodup₁
  -- The entry for the name at position `i` is the tensor of the first tree's parameter `i`.
  have hsd : ∀ (i : Nat) (h₁ : i < m₁.namedParameters.length) (h₂ : i < m₂.namedParameters.length),
      (stateDict σ m₁)[m₂.namedParameters[i].1]? = some (σ m₁.namedParameters[i].2) := by
    intro i h₁ h₂
    have hname := ((forall₂_iff_get.1 hall).2 i h₁ h₂).1
    simp only [get_eq_getElem] at hname
    rw [← hname]
    exact getElem?_ofEntries hsdnodup
      (mem_map.2 ⟨m₁.namedParameters[i], getElem_mem h₁, rfl⟩)
  have hlen : m₁.namedParameters.length = m₂.namedParameters.length := Forall₂.length_eq hall
  have hvar : ∀ (m : Module Var), m.WellFormed → ∀ (i : Nat) (h : i < m.namedParameters.length),
      m.parameters[i]? = some m.namedParameters[i].2 := by
    intro m hwf i h
    rw [← Module.map_snd_namedParameters hwf]
    simp [h]
  have hmem : ∀ p, p ∈ (ofEntries m₂.namedParameters).toList ↔
      p ∈ m₂.namedParameters := fun p => StringMap.mem_toList_ofEntries hnodup₂
  obtain ⟨σ', hloop, hwritten, _⟩ := @loadLoop_ok α (stateDict σ m₁) strict
    (ofEntries m₂.namedParameters).toList { missing := [], unexpected := [] } σ
    (by
      intro p hp
      obtain ⟨i, hi, rfl⟩ := mem_iff_getElem.1 ((hmem p).1 hp)
      refine ⟨_, hsd i (by omega) hi, ?_⟩
      exact (((forall₂_iff_get.1 hall).2 i (by omega) hi).2).symm)
    (by
      intro p hp q hq hpq
      obtain ⟨i, hi, rfl⟩ := mem_iff_getElem.1 ((hmem p).1 hp)
      obtain ⟨j, hj, rfl⟩ := mem_iff_getElem.1 ((hmem q).1 hq)
      have hshare := hsame.sharing i j _ (hvar m₂ hwf₂ i hi) (by rw [hpq]; exact hvar m₂ hwf₂ j hj)
      rw [hvar m₁ hwf₁ i (by omega), hvar m₁ hwf₁ j (by omega)] at hshare
      rw [hsd i (by omega) hi, hsd j (by omega) hj, Option.some.inj hshare])
  refine ⟨σ', ?_, ?_⟩
  · have hunexpected : unexpectedLoop (ofEntries m₂.namedParameters) strict
        (stateDict σ m₁).keys { missing := [], unexpected := [] } =
          .ok { missing := [], unexpected := [] } := by
      refine unexpectedLoop_ok _ _ ?_
      intro k hk
      have hk₁ : k ∈ m₁.names := by
        have hcontains := StringMap.contains_ofEntries.1 (Std.TreeMap.mem_keys.1 hk)
        rwa [map_fst_entries] at hcontains
      rw [StringMap.contains_ofEntries]
      change k ∈ m₂.names
      rwa [← hnames]
    simp only [loadStateDict, hloop, hunexpected]
  · rw [← Module.map_snd_namedParameters hwf₁, ← Module.map_snd_namedParameters hwf₂,
      map_map, map_map]
    refine ext_getElem (by simp [hlen]) ?_
    intro i hi₂ hi₁
    simp only [length_map] at hi₁ hi₂
    have hw := hwritten _ ((hmem _).2 (getElem_mem hi₂))
    rw [hsd i hi₁ hi₂] at hw
    simpa using (Option.some.inj hw).symm

/-! ## Nothing is lost -/

/-- The names are distinct and in the order of `parameters`, the map has one entry for each
parameter, and loading it into a tree of the same structure copies every parameter. -/
def Lossless (α : Type) (m : Module Var) : Prop :=
  m.names.Nodup ∧ m.namedParameters.map Prod.snd = m.parameters ∧
    ∀ σ : Store α,
      (stateDict σ m).size = m.parameters.length ∧
        (∀ p ∈ m.namedParameters, (stateDict σ m)[p.1]? = some (σ p.2)) ∧
          ∀ (m₂ : Module Var) (strict : Bool), Module.Built m₂ → SameStructure σ m m₂ →
            ∃ σ', loadStateDict m₂ (stateDict σ m) strict σ =
                (.ok { missing := [], unexpected := [] }, σ') ∧
              m₂.parameters.map σ' = m.parameters.map σ

/-- Saving and loading a built tree loses nothing exactly if no dictionary key continues another
key into the paths of that key's child. -/
theorem stateDict_lossless_iff {m : Module Var} :
    Module.Built m → (Lossless α m ↔ m.Unambiguous) := by
  intro hbuilt
  have hwf := hbuilt.wellFormed
  rw [← Module.names_nodup_iff hwf]
  constructor
  · intro h
    exact h.1
  · intro hnodup
    refine ⟨hnodup, Module.map_snd_namedParameters hwf, ?_⟩
    intro σ
    have hkeys : ((m.namedParameters.map (fun p => (p.1, σ p.2))).map Prod.fst).Nodup := by
      rwa [map_fst_entries]
    refine ⟨?_, ?_, ?_⟩
    · rw [stateDict, size_ofEntries hkeys, ← Module.map_snd_namedParameters hwf]
      simp
    · intro p hp
      exact getElem?_ofEntries hkeys (mem_map.2 ⟨p, hp, rfl⟩)
    · intro m₂ strict hbuilt₂ hsame
      exact loadStateDict_ok hwf hbuilt₂.wellFormed hnodup hsame

/-- A list of a layer and a dictionary. -/
def plainTree : Module Var :=
  .list [.leaf [("weight", 0), ("bias", 1)], Module.insert [] [] "head" (.leaf [("weight", 2)])]

theorem plainTree_built : plainTree.Built := by
  have hlayer : Module.Built (.leaf [("weight", (0 : Var)), ("bias", 1)]) :=
    Module.Built.leaf (by decide) (by decide)
  have hhead : Module.Built (.leaf [("weight", (2 : Var))]) :=
    Module.Built.leaf (by decide) (by decide)
  exact ((Module.Built.newList.push hlayer).push (Module.Built.newDict.insert hhead))

theorem plainTree_lossless : Lossless Nat plainTree := by
  refine (stateDict_lossless_iff plainTree_built).2 ?_
  rw [← Module.names_nodup_iff plainTree_built.wellFormed]
  decide

/-- The keys `a.b`, and `a` with a child under `b`. -/
def dottedTree : Module Var :=
  Module.insert ["a"] [("a", Module.insert [] [] "b" (.leaf [("weight", 0)]))] "a.b"
    (.leaf [("weight", 1)])

/-- Two parameters get the same name, and one is lost. -/
theorem dottedTree_not_lossless :
    dottedTree.Built ∧ dottedTree.names = ["a.b.weight", "a.b.weight"] ∧
      dottedTree.parameters = [0, 1] ∧
      (∃ σ : Store Nat, (stateDict σ dottedTree).size = 1) ∧ ¬ Lossless Nat dottedTree := by
  have hleaf : ∀ v : Var, Module.Built (.leaf [("weight", v)]) := by
    intro v
    exact Module.Built.leaf (by simp) (by simp)
  refine ⟨?_, by decide, by decide, ?_, ?_⟩
  · exact (Module.Built.newDict.insert (Module.Built.newDict.insert (hleaf 0))).insert (hleaf 1)
  · exact ⟨fun _ => { storage := [0], layout := Layout.contiguous [1] .f32 }, by decide⟩
  · intro h
    exact absurd h.1 (by decide)

end StateDict

end Nn
end Rustorch

/-!
# What a load writes

`loadStateDict` copies the entries of the map into the parameters in name order and looks for
offences on the way.  A load that fails has copied what comes before the offending name; a load
that succeeds has copied everything (`loadStateDict_copies`).
-/

namespace Rustorch
namespace Nn

open Rustorch.Core Autograd

variable {α : Type} {sd : StringMap (Tensor α)} {strict : Bool} {σ : Store α}

/-! ## Copies and offences -/

/-- The entries of the map, copied into the parameters one after another. -/
def copyAll (sd : StringMap (Tensor α)) (σ : Store α) (params : List (String × Var)) : Store α :=
  params.foldl
    (fun σ p =>
      match sd[p.1]? with
      | some src => setData σ p.2 src
      | none => σ)
    σ

/-- The error that a parameter gives rise to. -/
def offence (sd : StringMap (Tensor α)) (strict : Bool) (σ : Store α) (p : String × Var) :
    Option StateDictError :=
  match sd[p.1]? with
  | some src =>
    if (σ p.2).shape ≠ src.shape then
      some (.shapeMismatch p.1 (σ p.2).shape src.shape)
    else
      none
  | none => if strict then some (.missingKey p.1) else none

theorem offence_congr {σ' : Store α} (h : ∀ v, (σ' v).shape = (σ v).shape) :
    offence sd strict σ' = offence sd strict σ := by
  funext p
  unfold offence
  rw [h]

variable {p : String × Var} {src : Tensor α} {before after : List (String × Var)}

theorem shape_setData (h : (σ p.2).shape = src.shape) (v : Var) :
    (setData σ p.2 src v).shape = (σ v).shape := by
  by_cases hv : v = p.2
  · rw [hv, setData, Function.update_self, h]
  · rw [setData, Function.update_of_ne hv]

theorem loadLoop_eq (params : List (String × Var)) : ∀ (report : LoadReport) (σ : Store α),
    loadLoop sd strict params report σ =
      match params.findSome? (offence sd strict σ) with
      | some e =>
        (.error e, copyAll sd σ (params.takeWhile fun p => (offence sd strict σ p).isNone))
      | none =>
        (.ok { report with missing := report.missing ++
            (params.filter fun p => sd[p.1]?.isNone).map Prod.fst },
          copyAll sd σ params) := by
  induction params with
  | nil =>
    intro report σ
    simp [loadLoop, copyAll]
  | cons p params ih =>
    intro report σ
    obtain ⟨name, dst⟩ := p
    rw [loadLoop, List.findSome?_cons, List.takeWhile_cons, List.filter_cons]
    cases hget : sd[name]? with
    | some src =>
      by_cases hshape : (σ dst).shape = src.shape
      · have hclean : offence sd strict σ (name, dst) = none := by
          simp [offence, hget, hshape]
        have hcopy : ∀ rest, copyAll sd σ ((name, dst) :: rest) =
            copyAll sd (setData σ dst src) rest := by
          intro rest
          simp only [copyAll, List.foldl_cons, hget]
        -- the shapes agree, so the copy leaves the offences of the others as they are
        have hshapes : offence sd strict (setData σ dst src) = offence sd strict σ :=
          offence_congr (shape_setData (p := (name, dst)) hshape)
        simp only [hshape, ne_eq, not_true_eq_false, if_false, hclean, Option.isNone_none,
          if_true, hcopy, ih, hshapes, Option.isNone_some, Bool.false_eq_true]
      · have hoffence : offence sd strict σ (name, dst) =
            some (.shapeMismatch name (σ dst).shape src.shape) := by
          simp [offence, hget, hshape]
        simp [hshape, hoffence, copyAll]
    | none =>
      cases strict with
      | true =>
        have hoffence : offence sd true σ (name, dst) = some (.missingKey name) := by
          simp [offence, hget]
        simp [hoffence, copyAll]
      | false =>
        have hclean : offence sd false σ (name, dst) = none := by
          simp [offence, hget]
        have hcopy : ∀ rest, copyAll sd σ ((name, dst) :: rest) = copyAll sd σ rest := by
          intro rest
          simp only [copyAll, List.foldl_cons, hget]
        simp only [Bool.false_eq_true, if_false, ih, hclean, Option.isNone_none, if_true,
          hcopy, List.map_cons, List.append_assoc, List.singleton_append]

theorem unexpectedLoop_eq {moduleParams : StringMap Var} (keys : List String) :
    ∀ report : LoadReport, unexpectedLoop moduleParams strict keys report =
      match keys.find? fun k => strict && !moduleParams.contains k with
      | some k => .error (.unexpectedKey k)
      | none => .ok { report with unexpected := report.unexpected ++
          (keys.filter fun k => !moduleParams.contains k) } := by
  induction keys with
  | nil =>
    intro report
    simp [unexpectedLoop]
  | cons k keys ih =>
    intro report
    rw [unexpectedLoop, List.find?_cons, List.filter_cons]
    by_cases hk : moduleParams.contains k
    · simp [hk, ih]
    · cases strict with
      | true => simp [hk]
      | false => simp [hk, ih]

/-! ## What a variable holds after copies -/

theorem copyAll_kept (params : List (String × Var)) {v : Var} :
    ∀ σ : Store α, (∀ q ∈ params, q.2 = v → sd[q.1]? = none) → copyAll sd σ params v = σ v := by
  induction params with
  | nil => exact fun σ _ => rfl
  | cons p params ih =>
    intro σ h
    obtain ⟨hfirst, hrest⟩ := List.forall_mem_cons.1 h
    rw [copyAll, List.foldl_cons]
    change copyAll sd _ params v = _
    rw [ih _ hrest]
    cases hget : sd[p.1]? with
    | none => rfl
    | some src =>
      -- an entry that is copied goes to another variable
      have hne : v ≠ p.2 := by
        intro heq
        rw [hfirst heq.symm] at hget
        cases hget
      exact Function.update_of_ne hne _ _

/-- The last entry that is copied into a variable stays. -/
theorem copyAll_written (hget : sd[p.1]? = some src)
    (hafter : ∀ q ∈ after, q.2 = p.2 → sd[q.1]? = none) :
    copyAll sd σ (before ++ p :: after) p.2 = src := by
  rw [copyAll, List.foldl_append, List.foldl_cons]
  change copyAll sd _ after p.2 = _
  rw [copyAll_kept after _ hafter, hget]
  exact Function.update_self _ _ _

/-- The entries of the selected names were copied: each variable holds the entry of the last of its
selected names that has one, and what it held before without such a name. -/
structure Copied (m : Module Var) (sd : StringMap (Tensor α)) (σ σ' : Store α)
    (Selected : String → Prop) : Prop where
  written : ∀ p ∈ m.namedParameters, Selected p.1 → ∀ src, sd[p.1]? = some src →
    (∀ q ∈ m.namedParameters, q.2 = p.2 → Selected q.1 → compare p.1 q.1 = .lt → sd[q.1]? = none) →
      σ' p.2 = src
  kept : ∀ v, (∀ q ∈ m.namedParameters, q.2 = v → Selected q.1 → sd[q.1]? = none) → σ' v = σ v

/-- In an ordered list, what stands before an entry has the smaller names. -/
theorem mem_before_iff {q : String × Var} (hordered : StringMap.Ordered (before ++ p :: after)) :
    q ∈ before ↔ q ∈ before ++ p :: after ∧ compare q.1 p.1 = .lt := by
  have hearlier := (List.pairwise_append.1 hordered).2.2
  have hlater := (List.pairwise_cons.1 (List.pairwise_append.1 hordered).2.1).1
  constructor
  · intro hq
    exact ⟨List.mem_append_left _ hq, hearlier q hq p List.mem_cons_self⟩
  · rintro ⟨hq, hlt⟩
    rcases List.mem_append.1 hq with hq | hq
    · exact hq
    · rcases List.mem_cons.1 hq with rfl | hq
      · have hself : compare q.1 q.1 = .eq := Std.ReflCmp.compare_self
        rw [hlt] at hself
        cases hself
      · have hgt := Std.OrientedCmp.gt_of_lt (hlater q hq)
        rw [hlt] at hgt
        cases hgt

theorem copied_of_ordered {m : Module Var} {params : List (String × Var)} {Selected : String → Prop}
    (hordered : StringMap.Ordered params)
    (hmem : ∀ p, p ∈ params ↔ p ∈ m.namedParameters ∧ Selected p.1) :
    Copied m sd σ (copyAll sd σ params) Selected := by
  constructor
  · intro p hp hselected src hget hlast
    obtain ⟨before, after, rfl⟩ := List.append_of_mem ((hmem p).2 ⟨hp, hselected⟩)
    refine copyAll_written hget ?_
    intro q hq hshared
    have hlater := (List.pairwise_cons.1 (List.pairwise_append.1 hordered).2.1).1 q hq
    obtain ⟨hqm, hqs⟩ := (hmem q).1 (List.mem_append_right _ (List.mem_cons_of_mem p hq))
    exact hlast q hqm hshared hqs hlater
  · intro v h
    refine copyAll_kept params σ ?_
    intro q hq hv
    obtain ⟨hqm, hqs⟩ := (hmem q).1 hq
    exact h q hqm hv hqs

/-! ## The load -/

/-- The name that an error is about. -/
def StateDictError.key : StateDictError → String
  | .missingKey k => k
  | .unexpectedKey k => k
  | .shapeMismatch k _ _ => k

theorem key_of_offence {e : StateDictError} (h : offence sd strict σ p = some e) : e.key = p.1 := by
  unfold offence at h
  split at h
  · split at h
    · cases h
      rfl
    · cases h
  · split at h
    · cases h
      rfl
    · cases h

/-- What a load leaves behind and answers. -/
inductive Loaded (m : Module Var) (sd : StringMap (Tensor α)) (strict : Bool) (σ : Store α) :
    Except StateDictError LoadReport × Store α → Prop
  /-- A parameter offends: what comes before its name was copied. -/
  | offended (p : String × Var) (e : StateDictError) (σ' : Store α) :
      p ∈ m.namedParameters → offence sd strict σ p = some e →
      (∀ q ∈ m.namedParameters, compare q.1 p.1 = .lt → offence sd strict σ q = none) →
      Copied m sd σ σ' (fun name => compare name e.key = .lt) → Loaded m sd strict σ (.error e, σ')
  /-- A key is unexpected: everything was copied. -/
  | unexpected (key : String) (σ' : Store α) :
      (∀ q ∈ m.namedParameters, offence sd strict σ q = none) →
      strict = true → key ∈ sd.keys → key ∉ m.names →
      Copied m sd σ σ' (fun _ => True) → Loaded m sd strict σ (.error (.unexpectedKey key), σ')
  /-- The load succeeds: everything was copied, and the report lists the names without a partner. -/
  | loaded (report : LoadReport) (σ' : Store α) :
      (∀ q ∈ m.namedParameters, offence sd strict σ q = none) →
      (strict = true → ∀ key ∈ sd.keys, key ∈ m.names) →
      (∀ name, name ∈ report.missing ↔ name ∈ m.names ∧ sd[name]? = none) →
      (∀ key, key ∈ report.unexpected ↔ key ∈ sd.keys ∧ key ∉ m.names) →
      Copied m sd σ σ' (fun _ => True) → Loaded m sd strict σ (.ok report, σ')

theorem loadStateDict_copies (m : Module Var) (hnodup : m.names.Nodup) (sd : StringMap (Tensor α))
    (strict : Bool) (σ : Store α) : Loaded m sd strict σ (loadStateDict m sd strict σ) := by
  have hmem : ∀ p, p ∈ (StringMap.ofEntries m.namedParameters).toList ↔ p ∈ m.namedParameters :=
    fun p => StringMap.mem_toList_ofEntries hnodup
  have hordered := StringMap.ordered_toList (StringMap.ofEntries m.namedParameters)
  have hcontains : ∀ k, (StringMap.ofEntries m.namedParameters).contains k = true ↔ k ∈ m.names :=
    fun k => StringMap.contains_ofEntries
  unfold loadStateDict
  simp only [loadLoop_eq]
  -- the loop runs over the map, so in name order and not in that of the module
  set params := (StringMap.ofEntries m.namedParameters).toList with hparams
  cases hfind : params.findSome? (offence sd strict σ) with
  | some e =>
    obtain ⟨before, p, after, hsplit, hoffence, hbefore⟩ := List.findSome?_eq_some_iff.1 hfind
    -- the loop had copied what stands before the first offence
    have htaken : params.takeWhile (fun q => (offence sd strict σ q).isNone) = before := by
      rw [hsplit, List.takeWhile_append_of_pos (by simpa using hbefore)]
      simp [hoffence]
    have hbeforeIff : ∀ q, q ∈ before ↔ q ∈ m.namedParameters ∧ compare q.1 p.1 = .lt := by
      intro q
      rw [mem_before_iff (hsplit ▸ hordered), ← hsplit, hmem]
    have hkey := key_of_offence hoffence
    simp only [htaken]
    refine .offended p e _ ((hmem p).1 (hsplit ▸ List.mem_append_right _ List.mem_cons_self))
      hoffence (fun q hq hlt => hbefore q ((hbeforeIff q).2 ⟨hq, hlt⟩)) ?_
    refine copied_of_ordered (List.pairwise_append.1 (hsplit ▸ hordered)).1 ?_
    rw [hkey]
    exact hbeforeIff
  | none =>
    have hclean : ∀ q ∈ m.namedParameters, offence sd strict σ q = none :=
      fun q hq => List.findSome?_eq_none_iff.1 hfind q ((hmem q).2 hq)
    have hcopied : Copied m sd σ (copyAll sd σ params) (fun _ => True) :=
      copied_of_ordered hordered fun p => by rw [hmem, and_true]
    simp only [unexpectedLoop_eq]
    cases hkeys : sd.keys.find? fun k =>
        strict && !(StringMap.ofEntries m.namedParameters).contains k with
    | some k =>
      have hk := List.find?_some hkeys
      rw [Bool.and_eq_true, Bool.not_eq_true', ← Bool.not_eq_true, hcontains] at hk
      exact .unexpected k _ hclean hk.1 (List.mem_of_find?_eq_some hkeys) hk.2 hcopied
    | none =>
      refine .loaded _ _ hclean ?_ ?_ ?_ hcopied
      · intro hstrict key hkey
        have hnot := List.find?_eq_none.1 hkeys key hkey
        rw [hstrict, Bool.true_and, Bool.not_eq_true', Bool.not_eq_false, hcontains] at hnot
        exact hnot
      · intro name
        rw [List.nil_append, List.mem_map]
        constructor
        · rintro ⟨p, hp, rfl⟩
          obtain ⟨hp, hnone⟩ := List.mem_filter.1 hp
          exact ⟨List.mem_map_of_mem ((hmem p).1 hp), Option.isNone_iff_eq_none.1 hnone⟩
        · rintro ⟨hname, hnone⟩
          obtain ⟨p, hp, rfl⟩ := List.mem_map.1 hname
          exact ⟨p, List.mem_filter.2 ⟨(hmem p).2 hp, Option.isNone_iff_eq_none.2 hnone⟩, rfl⟩
      · intro key
        simp only [List.nil_append, List.mem_filter, Bool.not_eq_true', ← Bool.not_eq_true,
          hcontains]

/-! ## A failed load -/

/-- A layer with two parameters. -/
def layer : Module Var :=
  .leaf [("weight", 0), ("bias", 1)]

def scalar (x : Nat) : Tensor Nat where
  storage := [x]
  layout := Layout.contiguous [1] .f32

/-- The map has the bias only. -/
def biasOnly : StringMap (Tensor Nat) :=
  StringMap.ofEntries [("bias", scalar 7)]

theorem loadStateDict_copies_layer : layer.names.Nodup ∧
    Loaded layer biasOnly true (fun _ => scalar 0)
      (loadStateDict layer biasOnly true fun _ => scalar 0) :=
  ⟨by decide, loadStateDict_copies layer (by decide) biasOnly true fun _ => scalar 0⟩

/-- The weight is missing, and the bias was replaced. -/
theorem failed_load_copies : layer.names.Nodup ∧
    (loadStateDict layer biasOnly true fun _ => scalar 0).1 = .error (.missingKey "weight") ∧
      ((loadStateDict layer biasOnly true fun _ => scalar 0).2 1).storage = [7] ∧
        (scalar 0).storage = [0] := by
  refine ⟨by decide, ?_, ?_, rfl⟩
  · decide
  · decide

end Nn
end Rustorch
