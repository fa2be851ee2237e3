import Mathlib.Data.List.Nodup
import Yamb.Topology.Model

/-!
# The arrays of a level

* `NodesMap.units`: the units that a level lists;
* `find_foldl_addUnit`, `exists_foldl_addUnit`: what a loop of `addToLvl` finds and adds;
* `Merges`, `Restores`: the arrays take in the units, and `eraseFromLvl` takes them out again;
* **`addToLvl_merges_iff`**: they do where no unit brings a parent that the listed one lacks.
-/

set_option autoImplicit false

namespace Yamb

def NodesMap.units (nm : NodesMap) (lvl : ℕ) : List NodesMapDiffUnit := (nm lvl).getD []

/-- After `addToLvl` the level has one unit for each id, with all the parents that were listed or
added for it, and everything else is as it was. -/
structure Merges (nm nm' : NodesMap) (lvl : ℕ) (us : List NodesMapDiffUnit) : Prop where
  once : ((nm'.units lvl).map NodesMapDiffUnit.id).Nodup
  present : ∀ x ∈ nm.units lvl ++ us, ∃ y ∈ nm'.units lvl, y.id = x.id
  parents : ∀ y ∈ nm'.units lvl, ∀ x ∈ nm.units lvl ++ us, x.id = y.id →
    ∀ p ∈ x.parentIds, p ∈ y.parentIds
  other_lvls : ∀ l ≠ lvl, nm' l = nm l
  other_ids : ((nm'.units lvl).filter fun x => x.id ∉ us.map NodesMapDiffUnit.id) =
    (nm.units lvl).filter fun x => x.id ∉ us.map NodesMapDiffUnit.id

/-- Units with new ids, each with its own, can be taken out again. -/
def Restores (nm : NodesMap) (lvl : ℕ) (us : List NodesMapDiffUnit) : Prop :=
  (∀ u ∈ us, u.id ∉ (nm.units lvl).map NodesMapDiffUnit.id) →
    (us.map NodesMapDiffUnit.id).Nodup →
      eraseFromLvl (addToLvl nm lvl us) lvl us = Function.update nm lvl (some (nm.units lvl))

variable {nm : NodesMap} {lvl : ℕ} {arr us : List NodesMapDiffUnit} {u x y : NodesMapDiffUnit}

/-! ### The loop -/

theorem any_id_iff : (arr.any fun x => x.id = u.id) = true ↔
    u.id ∈ arr.map NodesMapDiffUnit.id := by
  simp only [List.any_eq_true, decide_eq_true_eq, List.mem_map]

theorem addUnit_of_mem (h : u.id ∈ arr.map NodesMapDiffUnit.id) : addUnit arr u = arr :=
  if_pos (any_id_iff.mpr h)

theorem addUnit_of_notMem (h : u.id ∉ arr.map NodesMapDiffUnit.id) : addUnit arr u = arr ++ [u] :=
  if_neg fun hany => h (any_id_iff.mp hany)

/-- The loop puts some of the units behind those that are there. -/
theorem exists_foldl_addUnit (arr us : List NodesMapDiffUnit) :
    ∃ new, us.foldl addUnit arr = arr ++ new ∧ ∀ y ∈ new, y ∈ us := by
  induction us generalizing arr with
  | nil => exact ⟨[], (List.append_nil arr).symm, fun _ h => h⟩
  | cons u us ih =>
    rw [List.foldl_cons]
    by_cases h : u.id ∈ arr.map NodesMapDiffUnit.id
    · obtain ⟨new, heq, hnew⟩ := ih arr
      rw [addUnit_of_mem h]
      exact ⟨new, heq, fun y hy => List.mem_cons_of_mem u (hnew y hy)⟩
    · obtain ⟨new, heq, hnew⟩ := ih (arr ++ [u])
      rw [addUnit_of_notMem h, heq, List.append_assoc]
      refine ⟨u :: new, rfl, fun y hy => ?_⟩
      rcases List.mem_cons.mp hy with rfl | hy
      · exact List.mem_cons_self
      · exact List.mem_cons_of_mem u (hnew y hy)

/-- The unit of an id is the first one that came. -/
theorem find_foldl_addUnit (arr us : List NodesMapDiffUnit) (i : PeerId) :
    (us.foldl addUnit arr).find? (fun x => x.id = i) = (arr ++ us).find? fun x => x.id = i := by
  induction us generalizing arr with
  | nil => rw [List.foldl_nil, List.append_nil]
  | cons u us ih =>
    rw [List.foldl_cons, ih, List.append_cons, List.find?_append, List.find?_append]
    congr 1
    by_cases h : u.id ∈ arr.map NodesMapDiffUnit.id
    · rw [addUnit_of_mem h, List.find?_append]
      cases hfind : arr.find? fun x => x.id = i with
      | some x => rfl
      | none =>
        have hne : ¬ u.id = i := by
          rintro rfl
          obtain ⟨x, hx, hid⟩ := List.mem_map.mp h
          exact List.find?_eq_none.mp hfind x hx (decide_eq_true hid)
        rw [List.find?_singleton, if_neg (by simpa using hne)]
        rfl
    · rw [addUnit_of_notMem h]

theorem nodup_foldl_addUnit :
    ((us.foldl addUnit arr).map NodesMapDiffUnit.id).Nodup ↔
      (arr.map NodesMapDiffUnit.id).Nodup := by
  constructor
  · intro h
    obtain ⟨new, heq, -⟩ := exists_foldl_addUnit arr us
    rw [heq, List.map_append] at h
    exact h.of_append_left
  · intro h
    induction us generalizing arr with
    | nil => exact h
    | cons u us ih =>
      rw [List.foldl_cons]
      refine ih ?_
      by_cases hu : u.id ∈ arr.map NodesMapDiffUnit.id
      · rw [addUnit_of_mem hu]
        exact h
      · rw [addUnit_of_notMem hu, List.map_append]
        exact h.append (List.nodup_singleton _) (List.disjoint_singleton.mpr hu)

/-- New ids, each once, are all added. -/
theorem foldl_addUnit_of_new (hnew : ∀ u ∈ us, u.id ∉ arr.map NodesMapDiffUnit.id)
    (hnodup : (us.map NodesMapDiffUnit.id).Nodup) : us.foldl addUnit arr = arr ++ us := by
  induction us generalizing arr with
  | nil => exact (List.append_nil arr).symm
  | cons u us ih =>
    obtain ⟨hu, hnodup⟩ := List.nodup_cons.mp hnodup
    rw [List.foldl_cons, addUnit_of_notMem (hnew u List.mem_cons_self), ih _ hnodup,
      List.append_assoc, List.singleton_append]
    intro v hv hmem
    rw [List.map_append, List.mem_append] at hmem
    rcases hmem with hmem | hmem
    · exact hnew v (List.mem_cons_of_mem u hv) hmem
    · refine hu (List.mem_map.mpr ⟨v, hv, ?_⟩)
      exact List.mem_singleton.mp hmem

theorem id_of_find {i : PeerId} (h : (arr.find? fun x => x.id = i) = some y) : y.id = i := by
  have hid := List.find?_some h
  exact of_decide_eq_true hid

theorem exists_find_of_mem (hx : x ∈ arr) : ∃ y, (arr.find? fun y => y.id = x.id) = some y := by
  rw [← Option.isSome_iff_exists, List.find?_isSome]
  exact ⟨x, hx, decide_eq_true rfl⟩

/-- Where ids occur once, a unit is the first of its id. -/
theorem find_of_mem (h : (arr.map NodesMapDiffUnit.id).Nodup) (hx : x ∈ arr) :
    (arr.find? fun y => y.id = x.id) = some x := by
  obtain ⟨y, hfind⟩ := exists_find_of_mem hx
  rw [hfind, List.inj_on_of_nodup_map h (List.mem_of_find?_eq_some hfind) hx (id_of_find hfind)]

/-! ### The level -/

theorem units_addToLvl (nm : NodesMap) (lvl : ℕ) (us : List NodesMapDiffUnit) :
    (addToLvl nm lvl us).units lvl = us.foldl addUnit (nm.units lvl) := by
  rw [NodesMap.units, addToLvl, Function.update_self]
  rfl

theorem addToLvl_of_ne {l : ℕ} (h : l ≠ lvl) : addToLvl nm lvl us l = nm l :=
  Function.update_of_ne h _ _

/-- **What is added can be erased.** -/
theorem restores (nm : NodesMap) (lvl : ℕ) (us : List NodesMapDiffUnit) : Restores nm lvl us := by
  intro hnew hnodup
  have hadd : addToLvl nm lvl us = Function.update nm lvl (some (nm.units lvl ++ us)) := by
    rw [addToLvl, ← foldl_addUnit_of_new hnew hnodup]
    rfl
  have hfilter : ((nm.units lvl ++ us).filter fun x => x ∉ us) = nm.units lvl := by
    rw [List.filter_append, List.filter_eq_self.mpr, List.filter_eq_nil_iff.mpr, List.append_nil]
    · intro u hu
      simpa using hu
    · intro x hx
      refine decide_eq_true fun hu => hnew x hu ?_
      exact List.mem_map_of_mem hx
  rw [hadd, eraseFromLvl, Function.update_self]
  show Function.update (Function.update nm lvl _) lvl (some (List.filter _ _)) = _
  rw [hfilter, Function.update_idem]

/-- **The arrays take the units in** exactly when the ids of the level were distinct, and no added unit
has a parent that the first unit of its id does not have, be it listed or added before. -/
theorem addToLvl_merges_iff (nm : NodesMap) (lvl : ℕ) (us : List NodesMapDiffUnit) :
    Merges nm (addToLvl nm lvl us) lvl us ∧ Restores nm lvl us ↔
      ((nm.units lvl).map NodesMapDiffUnit.id).Nodup ∧
        ∀ u ∈ us, ∀ e, ((nm.units lvl ++ us).find? fun x => x.id = u.id) = some e →
          ∀ p ∈ u.parentIds, p ∈ e.parentIds := by
  have hfind (i : PeerId) : ((addToLvl nm lvl us).units lvl).find? (fun x => x.id = i) =
      (nm.units lvl ++ us).find? fun x => x.id = i := by
    rw [units_addToLvl, find_foldl_addUnit]
  constructor
  · rintro ⟨h, -⟩
    refine ⟨?_, fun u hu e he p hp => ?_⟩
    · have honce := h.once
      rwa [units_addToLvl, nodup_foldl_addUnit] at honce
    · rw [← hfind] at he
      exact h.parents e (List.mem_of_find?_eq_some he) u (List.mem_append_right _ hu)
        (id_of_find he).symm p hp
  · rintro ⟨hnodup, hparents⟩
    refine ⟨⟨?_, fun x hx => ?_, fun y hy x hx hid p hp => ?_, fun l hl => addToLvl_of_ne hl, ?_⟩,
      restores nm lvl us⟩
    · rwa [units_addToLvl, nodup_foldl_addUnit]
    · obtain ⟨y, he⟩ := exists_find_of_mem hx
      rw [← hfind] at he
      exact ⟨y, List.mem_of_find?_eq_some he, id_of_find he⟩
    · have honce : (((addToLvl nm lvl us).units lvl).map NodesMapDiffUnit.id).Nodup := by
        rwa [units_addToLvl, nodup_foldl_addUnit]
      have he := find_of_mem honce hy
      rw [hfind] at he
      rcases List.mem_append.mp hx with hx | hx
      · -- the listed unit is the first
        have hx' := find_of_mem hnodup hx
        rw [hid] at hx'
        rw [List.find?_append, hx'] at he
        rwa [← Option.some.inj he]
      · rw [← hid] at he
        exact hparents x hx y he p hp
    · obtain ⟨new, heq, hnew⟩ := exists_foldl_addUnit (nm.units lvl) us
      have hnil : (new.filter fun x => x.id ∉ us.map NodesMapDiffUnit.id) = [] :=
        List.filter_eq_nil_iff.mpr fun y hy => by
          simpa using ⟨y, hnew y hy, rfl⟩
      rw [units_addToLvl, heq, List.filter_append, hnil, List.append_nil]

/-- A parent that is added for a listed unit is lost. -/
theorem not_merges_second_parent :
    ¬ ∀ nm lvl us, Merges nm (addToLvl nm lvl us) lvl us ∧ Restores nm lvl us := by
  intro h
  obtain ⟨hmerges, -⟩ := h (fun _ => some [⟨"a", ["b"]⟩]) 0 [⟨"a", ["c"]⟩]
  have hmem : "c" ∈ ["b"] := hmerges.parents ⟨"a", ["b"]⟩ (by decide) ⟨"a", ["c"]⟩ (by decide) rfl
    "c" List.mem_cons_self
  exact absurd hmem (by decide)

end Yamb
