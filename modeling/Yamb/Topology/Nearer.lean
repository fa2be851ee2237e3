import Yamb.Topology.Applicable
import Yamb.Topology.Idempotent

/-!
# A unit that is reported nearer

`createDiffConnectedBylvls` connects the unit where it is reported, and disconnects it from where it
is. The chain for the second names the neighbour above the unit and the unit in between, and is
searched from the wrong end.

* `orderly_of_nodup`, `twinFree_of_nodup`: a graph that has every id once;
* `exists_moved`: what comes of a unit that is reported nearer;
* `two_le_count`: it is there twice afterwards;
* `MovedNearer`, **`not_movedNearer`**: a unit that is reported nearer is never moved.
-/

set_option autoImplicit false

namespace Yamb

open RoseTree

variable {g g' t : NodeGraph} {myId : PeerId} {π : Path} {k : ℤ} {us : List NodesMapDiffUnit}
  {u : NodesMapDiffUnit} {incoming : IncomingMap} {diff : NodesMapDiff} {RU RU' : RoomMap}

/-! ### Every id once -/

theorem orderly_of_nodup (hnd : ((units t).map NodeUnit.id).Nodup)
    (hown : myId ∉ (units t).map NodeUnit.id) : Orderly myId t := by
  induction t using ind with
  | node v cs ih =>
    have hsub {c : NodeGraph} (hc : c ∈ cs) : c.values.Sublist (units (.node v cs)) :=
      List.sublist_flatten_of_mem (List.mem_map_of_mem hc)
    have hvalue {c : NodeGraph} : c.value ∈ c.values := mem_values.mpr ⟨[], get?_nil c⟩
    refine orderly_iff.mpr ⟨⟨?_, fun c hc hid => ?_⟩, fun c hc => ih c hc ?_ ?_⟩
    · rw [units, List.map_flatMap, List.nodup_flatMap] at hnd
      refine hnd.2.imp fun hdisj hid => ?_
      exact absurd (hid ▸ List.mem_map_of_mem hvalue) (hdisj (List.mem_map_of_mem hvalue))
    · exact absurd (hid ▸ List.mem_map_of_mem ((hsub hc).subset hvalue)) hown
    · refine hnd.sublist (((?_ : (units c).Sublist c.values).trans (hsub hc)).map _)
      rw [values_eq_units]
      exact List.sublist_cons_self _ _
    · intro hmem
      obtain ⟨w, hw, hid⟩ := List.mem_map.mp hmem
      refine hown (List.mem_map.mpr ⟨w, (hsub hc).subset ?_, hid⟩)
      rw [values_eq_units]
      exact List.mem_cons_of_mem _ hw

theorem orderly_of_nodup_peerIds (hnd : (peerIds g).Nodup) : Orderly g.value.id g := by
  rw [peerIds, values_eq_units, List.map_cons, List.nodup_cons] at hnd
  exact orderly_of_nodup hnd.2 hnd.1

theorem twinFree_of_nodup (hg : Levelled g) (hnd : (peerIds g).Nodup)
    (es : List (ℕ × NodesMapDiffUnit)) : TwinFree g es := by
  rintro u - ⟨a, b, c, p₀, p₁, -, h₀, h₁, hid⟩
  have heq := eq_of_mem_values hnd (mem_values.mpr ⟨_, h₀⟩) (mem_values.mpr ⟨_, h₁⟩) hid
  have hlvl := hg.lvl _ _ h₁
  rw [← heq, hg.lvl _ _ h₀] at hlvl
  simp at hlvl

/-! ### A unit that is reported nearer -/

/-- The unit is connected to a neighbour. -/
theorem Adds.exists_moved {e : ℕ × NodesMapDiffUnit} {cs ds : List Entry} (hadd : Adds g e cs ds)
    (hg : Levelled g) (hf : findInGraph g e.2.id = some π) (hlvl : e.1 < lvlAt g π) :
    ∃ back, .connect 1 ⟨e.2.id, [back, g.value.id]⟩ ∈ cs := by
  cases hadd with
  | own hown =>
    have hf : findInGraph g _ = some π := hf
    rw [hown, findInGraph_own] at hf
    obtain rfl := Option.some.inj hf
    exact absurd (lvlAt_own_le hg _) (Int.not_le.mpr hlvl)
  | near hown hf' hle =>
    obtain rfl := Option.some.inj (hf'.symm.trans hf)
    exact absurd hle (Int.not_le.mpr hlvl)
  | stray hown hnone => cases hnone.symm.trans hf
  | attach hown hnone => cases hnone.symm.trans hf
  | move => exact ⟨_, List.mem_cons_self⟩

/-- The unit is there twice: it has been connected, and nothing has been cut off. -/
theorem two_le_count (hg : Levelled RU.iamRoot) (hnd : (peerIds RU.iamRoot).Nodup)
    (hus : (k, us) ∈ incoming) (hu : u ∈ us) (hf : findInGraph RU.iamRoot u.id = some π)
    (hlvl : clampLvl (k + 1) < lvlAt RU.iamRoot π)
    (hd : createDiffConnectedBylvls .empty RU incoming = .ok diff)
    (hrun : RU.onNodesMapDiff diff = .ok RU') : 2 ≤ (peerIds RU'.iamRoot).count u.id := by
  have ho := orderly_of_nodup_peerIds hnd
  have hadds := createDiffConnectedBylvls_adds hg ho hd
  have hentries := (RoomMap.onNodesMapDiff_eq_ok.mp hrun).1
  rw [NodesMapDiff.entries_eq] at hentries
  have hcs := hadds.connects_of_twinFree hg ho (twinFree_of_nodup hg hnd _) hentries
  have hperm := peerIds_perm (values_of_connects (hadds.below ho) hcs)
  rw [List.map_map] at hperm
  have he : (clampLvl (k + 1), u) ∈ incomingUnits incoming :=
    List.mem_flatMap.mpr ⟨(k, us), hus, List.mem_map_of_mem hu⟩
  obtain ⟨cs', ds', hadd, hsub, -⟩ := hadds.exists_of_mem he
  obtain ⟨back, hmem⟩ := hadd.exists_moved hg hf hlvl
  have hnew : u.id ∈ diff.connects.map (NodeUnit.id ∘ Entry.unit) :=
    List.mem_map.mpr ⟨_, hsub hmem, rfl⟩
  have hold : u.id ∈ peerIds RU.iamRoot := mem_peerIds_of_findInGraph hf
  have hcount := hperm.count_eq u.id
  rw [List.count_append] at hcount
  have hnew := List.one_le_count_iff.mpr hnew
  have hold := List.one_le_count_iff.mpr hold
  omega

/-- The unit at `π` has moved to where `u` reports it, and the units that were not below it are where
they were. -/
structure MovedNearer (g g' : NodeGraph) (lvl : ℕ) (u : NodesMapDiffUnit) (π : Path) : Prop where
  one : (peerIds g').count u.id = 1
  placed : ∃ ρ v, g'.get? ρ = some v ∧ v.id = u.id ∧ v.lvl = lvl ∧
    idsTo g' ρ = u.id :: (u.parentIds ++ [g.value.id])
  others : ∀ ρ v, g.get? ρ = some v → ¬ π <+: ρ →
    ∃ σ, g'.get? σ = some v ∧ idsTo g' σ = idsTo g ρ

/-- **A unit that is reported nearer is never moved**, where every id is there once, whatever else the
map holds. -/
theorem not_movedNearer (hg : Levelled RU.iamRoot) (hnd : (peerIds RU.iamRoot).Nodup)
    (hus : (k, us) ∈ incoming) (hu : u ∈ us) (hf : findInGraph RU.iamRoot u.id = some π)
    (hlvl : clampLvl (k + 1) < lvlAt RU.iamRoot π)
    (hd : createDiffConnectedBylvls .empty RU incoming = .ok diff)
    (hrun : RU.onNodesMapDiff diff = .ok RU') :
    ¬ MovedNearer RU.iamRoot RU'.iamRoot (clampLvl (k + 1)) u π := by
  intro hmoved
  have hcount := two_le_count hg hnd hus hu hf hlvl hd hrun
  rw [hmoved.one] at hcount
  omega

/-- `x` is two links below the neighbour `a`, and the neighbour `s` reports it as its own. -/
theorem exists_reported_nearer : ∃ RU diff RU',
    (Levelled RU.iamRoot ∧ (peerIds RU.iamRoot).Nodup) ∧
    (findInGraph RU.iamRoot "x" = some [0, 0, 0] ∧
      (clampLvl (0 + 1) : ℤ) < lvlAt RU.iamRoot [0, 0, 0]) ∧
    createDiffConnectedBylvls .empty RU [(0, [⟨"x", ["s"]⟩])] = .ok diff ∧
    RU.onNodesMapDiff diff = .ok RU' ∧ (peerIds RU'.iamRoot).count "x" = 2 := by
  obtain ⟨RU, hr, hnd, hf, hlvl, RU', hmem, hcount⟩ := Lts.exists_run_of_any RoomMap.onNodesMapDiff
    (createRoomMap "me")
    [⟨[(0, [⟨"a", ["me"]⟩, ⟨"s", ["me"]⟩]), (1, [⟨"b", ["a", "me"]⟩]),
      (2, [⟨"x", ["b", "a", "me"]⟩])], []⟩]
    (fun RU => (peerIds RU.iamRoot).Nodup ∧ findInGraph RU.iamRoot "x" = some [0, 0, 0] ∧
      (clampLvl (0 + 1) : ℤ) < lvlAt RU.iamRoot [0, 0, 0] ∧
        ∃ RU' ∈ (RU.acceptMap [(0, [⟨"x", ["s"]⟩])]).toOption,
          (peerIds RU'.iamRoot).count "x" = 2) (by decide +kernel)
  obtain ⟨diff, hd, hrun⟩ := acceptMap_eq_ok (Lts.eq_ok_of_mem_toOption hmem)
  exact ⟨RU, diff, RU', ⟨(run_graphStep_sound hr).1, hnd⟩, ⟨hf, hlvl⟩, hd, hrun, hcount⟩

theorem not_movedNearer_grandchild : ∃ RU RU' diff,
    createDiffConnectedBylvls .empty RU [(0, [⟨"x", ["s"]⟩])] = .ok diff ∧
    RU.onNodesMapDiff diff = .ok RU' ∧
    ¬ MovedNearer RU.iamRoot RU'.iamRoot (clampLvl (0 + 1)) ⟨"x", ["s"]⟩ [0, 0, 0] := by
  obtain ⟨RU, diff, RU', ⟨hg, hnd⟩, ⟨hf, hlvl⟩, hd, hrun, -⟩ := exists_reported_nearer
  exact ⟨RU, RU', diff, hd, hrun,
    not_movedNearer hg hnd List.mem_cons_self List.mem_cons_self hf hlvl hd hrun⟩

/-- It stays where it was. -/
theorem not_forall_movedNearer : ¬ ∀ (RU RU' : RoomMap) (k : ℤ) (u : NodesMapDiffUnit) (π : Path)
    (diff : NodesMapDiff), Levelled RU.iamRoot → (peerIds RU.iamRoot).Nodup →
    findInGraph RU.iamRoot u.id = some π → clampLvl (k + 1) < lvlAt RU.iamRoot π →
    createDiffConnectedBylvls .empty RU [(k, [u])] = .ok diff → RU.onNodesMapDiff diff = .ok RU' →
      MovedNearer RU.iamRoot RU'.iamRoot (clampLvl (k + 1)) u π := by
  intro h
  obtain ⟨RU, diff, RU', ⟨hg, hnd⟩, ⟨hf, hlvl⟩, hd, hrun, hcount⟩ := exists_reported_nearer
  have hmoved := h RU RU' 0 ⟨"x", ["s"]⟩ [0, 0, 0] diff hg hnd hf hlvl hd hrun
  cases hcount.symm.trans hmoved.one

end Yamb
