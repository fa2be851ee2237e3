import Yamb.Topology.Applicable
import Yamb.Topology.Disconnect
import Yamb.Topology.Places

/-!
# The same map again

A node that changes its graph passes the change on. For this to end, a map that comes again must
change nothing.

* `Quiet`, `createDiffConnectedBylvls_eq_empty_iff`: the maps that make no difference;
* `Settles`, **`run_updateNodeMap_twice_iff`**: a map that comes again makes no difference exactly when
  the first place that is left of each of its units is not below the level at which the unit is looked
  for.
-/

set_option autoImplicit false

namespace Yamb

open RoseTree

/-- A unit of a map that adds nothing. -/
def Quiet (g : NodeGraph) (e : ℕ × NodesMapDiffUnit) : Prop :=
  (∃ π, findInGraph g e.2.id = some π ∧ lvlAt g π ≤ e.1) ∨
    findInGraph g e.2.id = none ∧
      ∃ back, e.2.parentIds.getLast? = some back ∧ findInGraph g back = none

/-- The first place of each unit that is left is not below the reported level, or no place of the unit
is left, and none of its last reported parent. -/
def Settles (g : NodeGraph) (es : List (ℕ × NodesMapDiffUnit)) : Prop :=
  ∀ e ∈ es,
    (∃ π, FirstLeft g es (Cut g es es.reverse) e.2.id [] π ∧ π.length ≤ e.1 + 1) ∨
    (∀ π, Place g es e.2.id π → Cut g es es.reverse π) ∧
      ∃ back, e.2.parentIds.getLast? = some back ∧ ∀ π, Place g es back π → Cut g es es.reverse π

variable {g g' h t : NodeGraph} {es : List (ℕ × NodesMapDiffUnit)} {e : ℕ × NodesMapDiffUnit}
  {cs ds : List Entry} {x myId : PeerId} {π : Path} {diff : NodesMapDiff} {incoming : IncomingMap}
  {RU RU' : RoomMap}

/-! ### Maps that make no difference -/

theorem Quiet.diffConnected (hq : Quiet g e) (diff : NodesMapDiff) :
    diffConnected g e.1 diff e.2 = .ok diff := by
  unfold Yamb.diffConnected
  by_cases hown : e.2.id = g.value.id
  · rw [if_pos hown]
  · rw [if_neg hown]
    rcases hq with ⟨π, hf, hlvl⟩ | ⟨hf, back, hback, hb⟩
    · simp only [hf, if_pos hlvl]
    · simp only [hf, attachUnit, hback, hb]

theorem Adds.quiet (hg : Levelled g) (h : Adds g e [] ds) : Quiet g e := by
  cases h with
  | @own lvl u hown =>
    refine .inl ⟨[], ?_, lvlAt_own_le hg lvl⟩
    show findInGraph g u.id = some []
    rw [hown]
    exact findInGraph_own g
  | near hown hf hlvl => exact .inl ⟨_, hf, hlvl⟩
  | stray hown hf hu hb => exact .inr ⟨hf, _, hu, hb⟩

theorem createDiffConnectedBylvls_eq_empty_iff (hg : Levelled RU.iamRoot)
    (ho : Orderly RU.iamRoot.value.id RU.iamRoot) :
    createDiffConnectedBylvls .empty RU incoming = .ok .empty ↔
      ∀ e ∈ incomingUnits incoming, Quiet RU.iamRoot e := by
  constructor
  · intro hd e he
    obtain ⟨cs', ds', hadd, hcs, -⟩ := (createDiffConnectedBylvls_adds hg ho hd).exists_of_mem he
    obtain rfl : cs' = [] := List.eq_nil_iff_forall_not_mem.mpr fun c hc =>
      absurd (hcs hc) List.not_mem_nil
    exact hadd.quiet hg
  · intro hq
    rw [createDiffConnectedBylvls_eq]
    generalize incomingUnits incoming = es at hq
    induction es with
    | nil => rfl
    | cons e es ih =>
      rw [List.foldlM_cons, (hq e List.mem_cons_self).diffConnected]
      exact ih fun e he => hq e (List.mem_cons_of_mem _ he)

/-! ### The same map again -/

theorem updateNodeMap_twice_iff (hg : Levelled RU.iamRoot)
    (ho : Orderly RU.iamRoot.value.id RU.iamRoot) {r : Option NodesMapDiff}
    (hu : updateNodeMap RU (some incoming) none = .ok (RU', r)) :
    updateNodeMap RU' (some incoming) none = .ok (RU', none) ↔
      Settles RU.iamRoot (incomingUnits incoming) := by
  obtain ⟨diff, hd, hrun⟩ := foldlM_entries_of_updateNodeMap hu
  have hadds := createDiffConnectedBylvls_adds hg ho hd
  have hinv : Levelled RU'.iamRoot ∧ Orderly RU'.iamRoot.value.id RU'.iamRoot :=
    (Lts.foldlM_eq_ok_iff.mp hrun).invariant
      (I := fun g => Levelled g ∧ Orderly g.value.id g) ⟨hg, ho⟩
      fun _ _ _ hs he => ⟨hs.1.onGraph he, (hs.2.onGraph he).2⟩
  rw [NodesMapDiff.entries_eq, Lts.foldlM_eq_ok_iff] at hrun
  obtain ⟨h, hcs, hds⟩ := hrun.append_inv
  have hcs := Lts.foldlM_eq_ok_iff.mpr hcs
  obtain ⟨up, hp⟩ := hadds.pruned hg ho hcs (Lts.foldlM_eq_ok_iff.mpr hds)
  rw [updateNodeMap_eq_none_iff, createDiff_connected,
    createDiffConnectedBylvls_eq_empty_iff hinv.1 hinv.2]
  refine forall₂_congr fun e he => or_congr ?_ (and_congr ?_ ?_)
  · rw [← findInGraph_length_iff hadds hg ho hcs hp]
    refine exists_congr fun π => and_congr_right fun hf => ?_
    obtain ⟨s, hs, -⟩ := exists_sub_of_findInGraph hf
    rw [lvlAt_of_levelled hinv.1 hs]
    omega
  · exact findInGraph_eq_none_iff_gone hadds hg ho hcs hp
  · exact exists_congr fun back =>
      and_congr_right fun _ => findInGraph_eq_none_iff_gone hadds hg ho hcs hp

theorem GraphStep.levelled {diff : NodesMapDiff} (h : GraphStep RU diff RU')
    (hg : Levelled RU.iamRoot) : Levelled RU'.iamRoot :=
  (Lts.foldlM_eq_ok_iff.mp (RoomMap.onNodesMapDiff_eq_ok.mp h).1).invariant hg
    fun _ _ _ hs he => hs.onGraph he

theorem run_graphStep_sound {ds : List NodesMapDiff}
    (h : Lts.Run GraphStep (createRoomMap myId) ds RU) :
    Levelled RU.iamRoot ∧ Orderly RU.iamRoot.value.id RU.iamRoot :=
  h.invariant (I := fun RU => Levelled RU.iamRoot ∧ Orderly RU.iamRoot.value.id RU.iamRoot)
    ⟨levelled_create myId, orderly_create myId⟩
    fun _ _ _ hs he => ⟨GraphStep.levelled he hs.1, GraphStep.orderly he hs.2⟩

/-- **A map that comes again changes nothing, and is not passed on, exactly when the first place that
is left of each of its units is not below the reported level.** -/
theorem run_updateNodeMap_twice_iff {ds : List NodesMapDiff}
    (h : Lts.Run GraphStep (createRoomMap myId) ds RU) {r : Option NodesMapDiff}
    (hu : updateNodeMap RU (some incoming) none = .ok (RU', r)) :
    updateNodeMap RU' (some incoming) none = .ok (RU', none) ↔
      Settles RU.iamRoot (incomingUnits incoming) := by
  have hinv := run_graphStep_sound h
  exact updateNodeMap_twice_iff hinv.1 hinv.2 hu

/-- A neighbour reports a unit that is below two units with one id: there it is cut off. -/
theorem run_updateNodeMap_twice_twin : ∃ ds RU RU' r,
    Lts.Run GraphStep (createRoomMap "me") ds RU ∧ findInGraph RU.iamRoot "x" = some [0, 0, 0] ∧
    updateNodeMap RU (some [(0, [⟨"x", ["s"]⟩])]) none = .ok (RU', r) ∧ r ≠ none ∧
    updateNodeMap RU' (some [(0, [⟨"x", ["s"]⟩])]) none = .ok (RU', none) ∧
    Settles RU.iamRoot (incomingUnits [(0, [⟨"x", ["s"]⟩])]) := by
  obtain ⟨RU, hr, hfar, htwice⟩ := Lts.exists_run_of_any RoomMap.onNodesMapDiff
    (createRoomMap "me")
    [⟨[(0, [⟨"a", ["me"]⟩, ⟨"s", ["me"]⟩]), (1, [⟨"a", ["a", "me"]⟩]),
      (2, [⟨"x", ["a", "a", "me"]⟩])], []⟩]
    (fun RU => findInGraph RU.iamRoot "x" = some [0, 0, 0] ∧
      ∃ r ∈ (updateNodeMap RU (some [(0, [⟨"x", ["s"]⟩])]) none).toOption, r.2 ≠ none ∧
        createDiff r.1 (some [(0, [⟨"x", ["s"]⟩])]) none = .ok .empty) (by decide +kernel)
  obtain ⟨⟨RU', r⟩, hmem, hr₁, hquiet⟩ := htwice
  have hu := Lts.eq_ok_of_mem_toOption hmem
  have hsame := updateNodeMap_eq_none_iff.mpr hquiet
  exact ⟨_, RU, RU', r, hr, hfar, hu, hr₁, hsame, (run_updateNodeMap_twice_iff hr hu).mp hsame⟩

/-- A unit two links below a neighbour that another neighbour reports as its own: the graph grows
each time. -/
theorem not_updateNodeMap_twice : ¬ ∀ myId S ds tr RU RUS RU' r,
    Lts.Run GraphStep (createRoomMap myId) ds RU → Lts.Run ChangeStep (createRoomMap S) tr RUS →
    (∃ c ∈ RU.iamRoot.children, c.value.id = S) →
    updateNodeMap RU (some RUS.data) none = .ok (RU', r) →
      updateNodeMap RU' (some RUS.data) none = .ok (RU', none) := by
  intro h
  obtain ⟨RU, hr, hnear, htwice⟩ := Lts.exists_run_of_any RoomMap.onNodesMapDiff
    (createRoomMap "me")
    [⟨[(0, [⟨"a", ["me"]⟩, ⟨"s", ["me"]⟩]), (1, [⟨"b", ["a", "me"]⟩]),
      (2, [⟨"x", ["b", "a", "me"]⟩])], []⟩]
    (fun RU => (∃ c ∈ RU.iamRoot.children, c.value.id = "s") ∧
      ∃ r ∈ (updateNodeMap RU (some [(0, [⟨"x", ["s"]⟩]), (1, [])]) none).toOption,
        ∀ r' ∈ (updateNodeMap r.1 (some [(0, [⟨"x", ["s"]⟩]), (1, [])]) none).toOption,
          r'.2 ≠ none) (by decide +kernel)
  obtain ⟨RUS, hrS, hdata⟩ := Lts.exists_run_of_any RoomMap.after (createRoomMap "s")
    [.neighbour "x"]
    (fun RU => RU.data = [(0, [⟨"x", ["s"]⟩]), (1, [])]) (by decide +kernel)
  obtain ⟨⟨RU', r⟩, hmem, hall⟩ := htwice
  rw [← hdata] at hmem hall
  have hu : updateNodeMap RU (some RUS.data) none = .ok (RU', r) := Lts.eq_ok_of_mem_toOption hmem
  have hsame := h _ _ _ _ RU RUS RU' r hr hrS hnear hu
  refine hall (RU', none) ?_ rfl
  rw [hsame]
  rfl

end Yamb
