import Mathlib.Data.List.Nodup
import Mathlib.Data.List.Pairwise
import Rustorch.Lib.Separated

/-!
# Module trees

A module is a leaf with named parameters, a `ModuleList` of numbered children, or a `ModuleDict`
of children under string keys.  `namedParameters` names a parameter by the path to it, joined with
dots.

The names are distinct exactly if no dictionary has a key that continues another key through a dot
into the paths of that key's child (`names_nodup_iff`).
-/

namespace Rustorch
namespace Nn

open List Prod

/-- A module tree over parameters of type `τ`.  A dictionary keeps its keys in insertion order
beside its map. -/
inductive Module (τ : Type)
  | leaf (params : List (String × τ))
  | list (modules : List (Module τ))
  | dict (order : List String) (modules : List (String × Module τ))

namespace Module

variable {τ υ : Type}

/-! ## Building a tree -/

/-- The map's `insert`: the value of a known key is replaced. -/
def insertEntry (k : String) (m : Module τ) :
    List (String × Module τ) → List (String × Module τ)
  | [] => [(k, m)]
  | (k', m') :: rest => if k = k' then (k, m) :: rest else (k', m') :: insertEntry k m rest

/-- `ModuleDict::insert`. -/
def insert (order : List String) (modules : List (String × Module τ)) (k : String)
    (m : Module τ) : Module τ :=
  .dict (if (modules.lookup k).isSome then order else order ++ [k]) (insertEntry k m modules)

/-- The trees that the constructors, `push` and `insert` build. -/
inductive Built : Module τ → Prop
  | leaf {params : List (String × τ)} :
      (params.map fst).Nodup → (∀ p ∈ params, '.' ∉ p.1.toList) → Built (.leaf params)
  | newList : Built (.list [])
  | push {modules : List (Module τ)} {m : Module τ} :
      Built (.list modules) → Built m → Built (.list (modules ++ [m]))
  | newDict : Built (.dict [] [])
  | insert {order : List String} {modules : List (String × Module τ)} {k : String}
      {m : Module τ} :
      Built (.dict order modules) → Built m → Built (insert order modules k m)

/-! ## Parameters -/

mutual

def parameters : Module τ → List τ
  | .leaf params => params.map snd
  | .list modules => parametersList modules
  | .dict order modules =>
    let children := parametersEntries modules
    (order.filterMap (fun k => children.lookup k)).flatten

def parametersList : List (Module τ) → List τ
  | [] => []
  | m :: rest => m.parameters ++ parametersList rest

/-- The parameters of each entry of a dictionary's map. -/
def parametersEntries : List (String × Module τ) → List (String × List τ)
  | [] => []
  | (k, m) :: rest => (k, m.parameters) :: parametersEntries rest

end

/-- `format!("{k}.{sub_name}")` for every named parameter of a child. -/
def underKey (k : String) (named : List (String × τ)) : List (String × τ) :=
  named.map (fun p => (k ++ "." ++ p.1, p.2))

mutual

def namedParameters : Module τ → List (String × τ)
  | .leaf params => params
  | .list modules => namedList 0 modules
  | .dict order modules =>
    let children := namedEntries modules
    order.flatMap (fun k =>
      match children.lookup k with
      | some named => underKey k named
      | none => [])

/-- The loop over the children of a list, the first of which has index `i`. -/
def namedList : Nat → List (Module τ) → List (String × τ)
  | _, [] => []
  | i, m :: rest => underKey (toString i) m.namedParameters ++ namedList (i + 1) rest

/-- The named parameters of each entry of a dictionary's map. -/
def namedEntries : List (String × Module τ) → List (String × List (String × τ))
  | [] => []
  | (k, m) :: rest => (k, m.namedParameters) :: namedEntries rest

end

/-! ## Lookups -/

@[simp] theorem lookup_cons_self {α : Type} (k : String) (a : α) (rest : List (String × α)) :
    ((k, a) :: rest).lookup k = some a := by
  simp

theorem lookup_cons_ne {α : Type} {k k' : String} {a : α} {rest : List (String × α)} :
    k ≠ k' → ((k', a) :: rest).lookup k = rest.lookup k := by
  intro h
  have hb : (k == k') = false := by
    simpa using h
  simp [lookup_cons, hb]

section

variable (modules : List (String × Module τ))

include modules

theorem lookup_parametersEntries (k : String) :
    (parametersEntries modules).lookup k = (modules.lookup k).map parameters := by
  induction modules with
  | nil => rfl
  | cons e modules ih =>
    obtain ⟨k', m⟩ := e
    rw [parametersEntries]
    by_cases h : k = k'
    · subst h
      simp
    · rw [lookup_cons_ne h, lookup_cons_ne h, ih]

theorem lookup_namedEntries (k : String) :
    (namedEntries modules).lookup k = (modules.lookup k).map namedParameters := by
  induction modules with
  | nil => rfl
  | cons e modules ih =>
    obtain ⟨k', m⟩ := e
    rw [namedEntries]
    by_cases h : k = k'
    · subst h
      simp
    · rw [lookup_cons_ne h, lookup_cons_ne h, ih]

theorem lookup_insertEntry (k k' : String) (m : Module τ) :
    (insertEntry k m modules).lookup k' = if k' = k then some m else modules.lookup k' := by
  induction modules with
  | nil =>
    by_cases h : k' = k
    · subst h
      simp [insertEntry]
    · rw [insertEntry, lookup_cons_ne h, if_neg h]
  | cons e modules ih =>
    obtain ⟨k₀, m₀⟩ := e
    rw [insertEntry]
    by_cases h₀ : k = k₀
    · subst h₀
      rw [if_pos rfl]
      by_cases h : k' = k
      · subst h
        simp
      · rw [lookup_cons_ne h, lookup_cons_ne h, if_neg h]
    · rw [if_neg h₀]
      by_cases h : k' = k₀
      · subst h
        rw [lookup_cons_self, lookup_cons_self, if_neg (Ne.symm h₀)]
      · rw [lookup_cons_ne h, lookup_cons_ne h, ih]

end

theorem parameters_dict (order : List String) (modules : List (String × Module τ)) :
    (Module.dict order modules).parameters =
      order.flatMap (fun k => ((modules.lookup k).map parameters).getD []) := by
  simp only [parameters, lookup_parametersEntries]
  induction order with
  | nil => rfl
  | cons k order ih =>
    cases h : modules.lookup k with
    | none => simp [h, ih]
    | some m => simp [h, ih]

theorem namedParameters_dict (order : List String) (modules : List (String × Module τ)) :
    (Module.dict order modules).namedParameters =
      order.flatMap (fun k => ((modules.lookup k).map (fun m =>
        underKey k m.namedParameters)).getD []) := by
  simp only [namedParameters, lookup_namedEntries]
  congr 1
  funext k
  cases modules.lookup k <;> rfl

/-! ## Invariant of built trees -/

/-- Every key of a dictionary is listed once and has a child. -/
inductive WellFormed : Module τ → Prop
  | leaf {params : List (String × τ)} : (params.map fst).Nodup → WellFormed (.leaf params)
  | list {modules : List (Module τ)} : (∀ m ∈ modules, WellFormed m) → WellFormed (.list modules)
  | dict {order : List String} {modules : List (String × Module τ)} :
      order.Nodup → (∀ k, k ∈ order ↔ ∃ m, modules.lookup k = some m) →
        (∀ k m, modules.lookup k = some m → WellFormed m) → WellFormed (.dict order modules)

variable {order : List String} {modules : List (String × Module τ)} {m : Module τ}

theorem WellFormed.insert {k : String} : WellFormed (.dict order modules) → WellFormed m →
      WellFormed (Module.insert order modules k m) := by
  intro hd hm
  cases hd with
  | dict hnodup hkeys hchildren =>
    refine WellFormed.dict ?_ ?_ ?_
    · split
      · exact hnodup
      · rename_i hnew
        have hk : k ∉ order := by
          intro hk
          obtain ⟨m', hm'⟩ := (hkeys k).1 hk
          simp [hm'] at hnew
        exact nodup_append.2 ⟨hnodup, by simp, by
          intro a ha b hb
          rw [mem_singleton.1 hb]
          rintro rfl
          exact hk ha⟩
    · intro k'
      rw [lookup_insertEntry]
      by_cases h : k' = k
      · subst h
        simp only [if_true, Option.some.injEq, exists_eq', iff_true]
        split
        · rename_i hold
          exact (hkeys k').2 (Option.isSome_iff_exists.1 hold)
        · simp
      · simp only [h, if_false, ← hkeys k']
        split
        · rfl
        · simp [h]
    · intro k' m' hlookup
      rw [lookup_insertEntry] at hlookup
      split at hlookup
      · cases hlookup
        exact hm
      · exact hchildren k' m' hlookup

theorem Built.wellFormed : Built m → WellFormed m := by
  intro h
  induction h with
  | leaf hnodup _ => exact WellFormed.leaf hnodup
  | newList => exact WellFormed.list (by simp)
  | @push modules m _ _ ihl ihm =>
    cases ihl with
    | list hchildren =>
      refine WellFormed.list ?_
      intro m' hm'
      rcases mem_append.1 hm' with hm' | hm'
      · exact hchildren m' hm'
      · rw [mem_singleton.1 hm']
        exact ihm
  | newDict => exact WellFormed.dict nodup_nil (by simp) (by simp)
  | insert _ _ ihd ihm => exact ihd.insert ihm

/-! ## Names are paths -/

/-- The dotted paths to the parameters of a tree. -/
inductive HasPath : Module τ → String → Prop
  | leaf {params : List (String × τ)} {name : String} :
      name ∈ params.map fst → HasPath (.leaf params) name
  | list {modules : List (Module τ)} {i : Nat} {m : Module τ} {p : String} :
      modules[i]? = some m → HasPath m p → HasPath (.list modules) (toString i ++ "." ++ p)
  | dict {order : List String} {modules : List (String × Module τ)} {k : String} {m : Module τ}
      {p : String} :
      modules.lookup k = some m → HasPath m p → HasPath (.dict order modules) (k ++ "." ++ p)

/-- No dictionary has keys `k` and `k.r` such that the child of `k` has a parameter at `r.p` and
the child of `k.r` one at `p`. -/
inductive Unambiguous : Module τ → Prop
  | leaf {params : List (String × τ)} : Unambiguous (.leaf params)
  | list {modules : List (Module τ)} :
      (∀ m ∈ modules, Unambiguous m) → Unambiguous (.list modules)
  | dict {order : List String} {modules : List (String × Module τ)} :
      (∀ k m, modules.lookup k = some m → Unambiguous m) →
        (∀ k r m m', modules.lookup k = some m → modules.lookup (k ++ "." ++ r) = some m' →
          ∀ p, HasPath m' p → ¬ HasPath m (r ++ "." ++ p)) →
          Unambiguous (.dict order modules)

/-- The names that `named_parameters` gives, in order. -/
def names (m : Module τ) : List String :=
  m.namedParameters.map fst

theorem map_fst_underKey (k : String) (named : List (String × τ)) :
    (underKey k named).map fst = (named.map fst).map (fun p => k ++ "." ++ p) := by
  simp [underKey]

theorem map_snd_underKey (k : String) (named : List (String × τ)) :
    (underKey k named).map snd = named.map snd := by
  simp [underKey]

theorem namedList_eq (modules : List (Module τ)) :
    ∀ i : Nat, namedList i modules =
      (modules.zipIdx i).flatMap (fun e => underKey (toString e.2) e.1.namedParameters) := by
  induction modules with
  | nil =>
    intro i
    rfl
  | cons m modules ih =>
    intro i
    simp [namedList, zipIdx_cons, ih]

theorem names_list (modules : List (Module τ)) :
    (Module.list modules).names =
      modules.zipIdx.flatMap (fun e => e.1.names.map (fun p => toString e.2 ++ "." ++ p)) := by
  rw [names, namedParameters, namedList_eq, map_flatMap]
  simp only [map_fst_underKey, names]

theorem names_dict (order : List String) (modules : List (String × Module τ)) :
    (Module.dict order modules).names =
      order.flatMap (fun k => ((modules.lookup k).map (fun m =>
        m.names.map (fun p => k ++ "." ++ p))).getD []) := by
  rw [names, namedParameters_dict, map_flatMap]
  congr 1
  funext k
  cases modules.lookup k with
  | none => rfl
  | some m => simp [map_fst_underKey, names]

theorem mem_names_iff (h : WellFormed m) : ∀ p : String, p ∈ m.names ↔ HasPath m p := by
  induction h with
  | leaf _ =>
    intro p
    constructor
    · exact HasPath.leaf
    · intro hp
      cases hp with
      | leaf hmem => exact hmem
  | @list modules _ ih =>
    intro p
    rw [names_list, mem_flatMap]
    constructor
    · -- a child of a list is named by its index
      rintro ⟨⟨m, i⟩, hmem, hp⟩
      obtain ⟨q, hq, rfl⟩ := mem_map.1 hp
      have hget := mem_zipIdx_iff_getElem?.1 hmem
      exact HasPath.list hget ((ih m (mem_of_getElem? hget) q).1 hq)
    · intro hp
      cases hp with
      | @list _ i m q hget hq =>
        refine ⟨(m, i), mem_zipIdx_iff_getElem?.2 hget, ?_⟩
        exact mem_map_of_mem ((ih m (mem_of_getElem? hget) q).2 hq)
  | @dict order modules _ hkeys _ ih =>
    intro p
    rw [names_dict, mem_flatMap]
    constructor
    · -- a child of a dictionary is named by its key
      rintro ⟨k, _, hp⟩
      cases hlookup : modules.lookup k with
      | none => simp [hlookup] at hp
      | some m =>
        rw [hlookup] at hp
        obtain ⟨q, hq, rfl⟩ := mem_map.1 hp
        exact HasPath.dict hlookup ((ih k m hlookup q).1 hq)
    · intro hp
      cases hp with
      | @dict _ _ k m q hlookup hq =>
        refine ⟨k, (hkeys k).2 ⟨m, hlookup⟩, ?_⟩
        rw [hlookup]
        exact mem_map_of_mem ((ih k m hlookup q).2 hq)

theorem nodup_map_dotted (k : String) (ps : List String) :
    (ps.map (fun p => k ++ "." ++ p)).Nodup ↔ ps.Nodup :=
  nodup_map_iff (fun _ _ => Separated.dotted_right_inj)

/-- Children of a list never share a name: an index has no dot. -/
theorem nodup_names_list {modules : List (Module τ)} :
    (Module.list modules).names.Nodup ↔ ∀ m ∈ modules, m.names.Nodup := by
  rw [names_list, nodup_flatMap]
  simp only [nodup_map_dotted]
  constructor
  · rintro ⟨hall, _⟩ m hm
    obtain ⟨i, hi⟩ := getElem?_of_mem hm
    exact hall (m, i) (mem_zipIdx_iff_getElem?.2 hi)
  · intro hall
    refine ⟨?_, ?_⟩
    · rintro ⟨m, i⟩ hmem
      exact hall m (mem_of_getElem? (mem_zipIdx_iff_getElem?.1 hmem))
    · have hidx : modules.zipIdx.Pairwise (fun a b => a.2 ≠ b.2) := by
        have hnodup : (modules.zipIdx.map snd).Nodup := by
          rw [zipIdx_map_snd]
          exact nodup_range'
        exact pairwise_map.1 hnodup
      refine hidx.imp ?_
      intro a b hab
      rw [Function.onFun_apply, disjoint_left]
      intro p hpa hpb
      obtain ⟨q, _, rfl⟩ := mem_map.1 hpa
      obtain ⟨q', _, hq'⟩ := mem_map.1 hpb
      exact hab (Separated.toString_inj (Separated.dotted_left_inj
        (Separated.dot_notMem_toString _) (Separated.dot_notMem_toString _) hq'.symm))

/-- Children of a dictionary share a name exactly if one key continues another. -/
theorem nodup_names_dict : WellFormed (.dict order modules) →
      ((Module.dict order modules).names.Nodup ↔
        (∀ k m, modules.lookup k = some m → m.names.Nodup) ∧
          ∀ k r m m', modules.lookup k = some m → modules.lookup (k ++ "." ++ r) = some m' →
            ∀ p, HasPath m' p → ¬ HasPath m (r ++ "." ++ p)) := by
  intro h
  cases h with
  | dict hnodup hkeys hchildren =>
    have hmem : ∀ k m, modules.lookup k = some m → k ∈ order := by
      intro k m hm
      exact (hkeys k).2 ⟨m, hm⟩
    rw [names_dict, nodup_flatMap]
    constructor
    · rintro ⟨hall, hpair⟩
      refine ⟨?_, ?_⟩
      · intro k m hm
        have hk := hall k (hmem k m hm)
        rw [hm] at hk
        exact (nodup_map_dotted k _).1 hk
      · intro k r m m' hm hm' p hp' hp
        -- two keys of which one continues the other would give one name twice
        have hne : k ≠ k ++ "." ++ r := by
          intro heq
          have hlen := congrArg (fun t => t.toList.length) heq
          simp at hlen
        have hsymm : Std.Symm (Function.onFun Disjoint fun k =>
            ((modules.lookup k).map (fun m => m.names.map (fun p => k ++ "." ++ p))).getD []) := by
          refine ⟨?_⟩
          intro a b hd t hb ha
          exact hd ha hb
        have hdisj := hpair.forall (hmem k m hm) (hmem _ m' hm') hne
        rw [Function.onFun_apply, hm, hm', disjoint_left] at hdisj
        refine hdisj (mem_map_of_mem ((mem_names_iff (hchildren k m hm) _).2 hp)) ?_
        refine mem_map.2 ⟨p, (mem_names_iff (hchildren _ m' hm') p).2 hp', ?_⟩
        simp [String.append_assoc]
    · rintro ⟨hall, hfree⟩
      refine ⟨?_, ?_⟩
      · intro k _
        cases hm : modules.lookup k with
        | none => simp
        | some m => simpa using (nodup_map_dotted k _).2 (hall k m hm)
      · refine hnodup.imp ?_
        intro k k' hne
        rw [Function.onFun_apply, disjoint_left]
        intro t ht ht'
        cases hm : modules.lookup k with
        | none => simp [hm] at ht
        | some m =>
          cases hm' : modules.lookup k' with
          | none => simp [hm'] at ht'
          | some m' =>
            rw [hm] at ht
            rw [hm'] at ht'
            obtain ⟨p, hp, rfl⟩ := mem_map.1 ht
            obtain ⟨p', hp', heq⟩ := mem_map.1 ht'
            have hpath := (mem_names_iff (hchildren k m hm) p).1 hp
            have hpath' := (mem_names_iff (hchildren k' m' hm') p').1 hp'
            -- one name under two keys: the keys are equal, or one continues the other
            rcases Separated.dotted_inj heq with ⟨hk, _⟩ | ⟨r, rfl, rfl⟩ | ⟨r, rfl, rfl⟩
            · exact hne hk.symm
            · exact hfree k' r m' m hm' hm p hpath hpath'
            · exact hfree k r m m' hm hm' p' hpath' hpath

/-- The names of a tree are distinct exactly if no key continues another into its paths. -/
theorem names_nodup_iff : WellFormed m → (m.names.Nodup ↔ Unambiguous m) := by
  intro h
  induction h with
  | leaf hnodup =>
    exact ⟨fun _ => Unambiguous.leaf, fun _ => hnodup⟩
  | list _ ih =>
    rw [nodup_names_list]
    constructor
    · intro hall
      exact Unambiguous.list (fun m hm => (ih m hm).1 (hall m hm))
    · intro hun
      cases hun with
      | list hall =>
        intro m hm
        exact (ih m hm).2 (hall m hm)
  | dict hnodup hkeys hchildren ih =>
    rw [nodup_names_dict (WellFormed.dict hnodup hkeys hchildren)]
    constructor
    · rintro ⟨hall, hfree⟩
      exact Unambiguous.dict (fun k m hm => (ih k m hm).1 (hall k m hm)) hfree
    · intro hun
      cases hun with
      | dict hall hfree =>
        exact ⟨fun k m hm => (ih k m hm).2 (hall k m hm), hfree⟩

theorem map_snd_namedParameters : WellFormed m → m.namedParameters.map snd = m.parameters := by
  intro h
  induction h with
  | leaf _ => rfl
  | @list modules _ ih =>
    have hlist : ∀ (ms : List (Module τ)) (i : Nat), (∀ m ∈ ms, m ∈ modules) →
        (namedList i ms).map snd = parametersList ms := by
      intro ms
      induction ms with
      | nil =>
        intro i _
        rfl
      | cons m ms ihms =>
        intro i hsub
        simp only [namedList, parametersList, map_append, map_snd_underKey]
        rw [ih m (hsub m mem_cons_self),
          ihms (i + 1) (fun m' hm' => hsub m' (mem_cons_of_mem m hm'))]
    simpa [namedParameters, parameters] using hlist modules 0 (fun _ hm => hm)
  | @dict order modules _ _ _ ih =>
    rw [namedParameters_dict, parameters_dict, map_flatMap]
    congr 1
    funext k
    cases hm : modules.lookup k with
    | none => rfl
    | some m => simp [map_snd_underKey, ih k m hm]

end Module

end Nn
end Rustorch
