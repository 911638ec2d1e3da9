import Mathlib.Data.List.Nodup
import Mathlib.Tactic.Linarith

/-!
# Ordered maps from strings

A map collected from a list of entries with distinct keys holds exactly these entries.
-/

abbrev StringMap (β : Type) : Type :=
  Std.TreeMap String β compare

namespace StringMap

open List Prod

variable {β : Type}

/-- `collect` into an ordered map: a later entry replaces an earlier one of the same key. -/
def ofEntries (entries : List (String × β)) : StringMap β :=
  Std.TreeMap.ofList entries compare

variable {entries : List (String × β)} {k : String}

theorem pairwise_of_nodup :
    (entries.map fst).Nodup → entries.Pairwise (fun a b => ¬ compare a.1 b.1 = .eq) := by
  intro h
  refine (pairwise_map.1 h).imp ?_
  intro a b hne heq
  exact hne (Std.LawfulEqOrd.eq_of_compare heq)

theorem size_ofEntries :
    (entries.map fst).Nodup → (ofEntries entries).size = entries.length := by
  intro h
  exact Std.TreeMap.size_ofList (pairwise_of_nodup h)

theorem getElem?_ofEntries {v : β} :
    (entries.map fst).Nodup → (k, v) ∈ entries → (ofEntries entries)[k]? = some v := by
  intro h hmem
  exact Std.TreeMap.getElem?_ofList_of_mem Std.ReflCmp.compare_self (pairwise_of_nodup h) hmem

theorem contains_ofEntries : (ofEntries entries).contains k = true ↔ k ∈ entries.map fst := by
  simp [ofEntries, Std.TreeMap.contains_ofList]

theorem mem_toList_ofEntries {e : String × β} :
    (entries.map fst).Nodup → (e ∈ (ofEntries entries).toList ↔ e ∈ entries) := by
  intro h
  obtain ⟨k, v⟩ := e
  rw [Std.TreeMap.mem_toList_iff_getElem?_eq_some]
  constructor
  · intro hget
    have hkey : (ofEntries entries).contains k = true := by
      rw [Std.TreeMap.contains_eq_isSome_getElem?, hget]
      rfl
    obtain ⟨⟨k', v'⟩, hmem, hk⟩ := mem_map.1 (contains_ofEntries.1 hkey)
    subst hk
    cases (getElem?_ofEntries h hmem).symm.trans hget
    exact hmem
  · exact getElem?_ofEntries h

/-! ## Entries in key order -/

/-- A later entry has a greater key. -/
def Ordered (entries : List (String × β)) : Prop :=
  entries.Pairwise (fun a b => compare a.1 b.1 = .lt)

theorem ordered_toList (m : StringMap β) : Ordered m.toList :=
  Std.TreeMap.ordered_keys_toList

theorem Ordered.nodup_keys : Ordered entries → (entries.map fst).Nodup := by
  intro h
  refine pairwise_map.2 (h.imp ?_)
  intro a b hlt heq
  have hself : compare a.1 b.1 = .eq := by
    rw [heq]
    exact Std.ReflCmp.compare_self
  rw [hlt] at hself
  cases hself

theorem Ordered.of_keys {γ : Type} {entries' : List (String × γ)} :
    Ordered entries → entries'.map fst = entries.map fst → Ordered entries' := by
  intro h hkeys
  have hpair : (entries.map fst).Pairwise (fun k l => compare k l = .lt) :=
    pairwise_map.2 h
  rw [← hkeys] at hpair
  exact pairwise_map.1 hpair

theorem toList_ofEntries : Ordered entries → (ofEntries entries).toList = entries := by
  intro h
  have hnodup := h.nodup_keys
  have hperm : (ofEntries entries).toList.Perm entries := by
    refine (perm_ext_iff_of_nodup ?_ hnodup.of_map).2 ?_
    · exact (ordered_toList _).nodup_keys.of_map
    · intro e
      exact mem_toList_ofEntries hnodup
  refine Perm.eq_of_pairwise ?_ (ordered_toList _) h hperm
  intro a b _ _ hab hba
  have hswap := Std.OrientedCmp.gt_of_lt hab
  rw [hba] at hswap
  cases hswap

end StringMap
