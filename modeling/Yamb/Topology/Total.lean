import Yamb.Topology.Disconnect
import Yamb.Topology.Idempotent

/-!
# Incoming maps that make no fault

`createDiffConnectedBylvls` and `createDiffDisconnectedBylvls` index `ParentIds` and assert that
levels and chains fit together.

* `ConnectsWell`, `exists_diffConnected_iff`: the connected units for which nothing fails;
* `DisconnectsWell`, `exists_diffDisconnected_iff`: the disconnected ones;
* `exists_foldlM_eq_ok_iff`: a loop whose steps fail or not whatever came before;
* **`run_createDiff_ok_iff`**: in a room that differences have built, both functions come to their
  end exactly when every unit of the two maps is of these.
-/

set_option autoImplicit false

namespace Yamb

open RoseTree

variable {g : NodeGraph} {lvl : ℕ} {diff d : NodesMapDiff} {u : NodesMapDiffUnit} {π : Path}

/-! ### Connected units -/

/-- The own unit; a unit that is known as near as it is reported; a unit of the last level that is
reported below one known parent; an unknown unit whose last parent is unknown or has levels to
spare, but is not the node itself. -/
def ConnectsWell (g : NodeGraph) (lvl : ℕ) (u : NodesMapDiffUnit) : Prop :=
  u.id = g.value.id ∨
  (∃ π, findInGraph g u.id = some π ∧
    (lvlAt g π ≤ lvl ∨ lvl = 1 ∧ ∃ back, u.parentIds = [back] ∧ findInGraph g back ≠ none)) ∨
  findInGraph g u.id = none ∧ ∃ back, u.parentIds.getLast? = some back ∧
    ∀ f, findInGraph g back = some f → 0 ≤ lvlAt g f ∧ lvlAt g f ≤ 1

theorem Adds.connectsWell {e : ℕ × NodesMapDiffUnit} {cs ds : List Entry} (hg : Levelled g)
    (h : Adds g e cs ds) : ConnectsWell g e.1 e.2 := by
  cases h with
  | own hown => exact .inl hown
  | near hown hf hlvl => exact .inr (.inl ⟨_, hf, .inl hlvl⟩)
  | stray hown hf hu hb =>
    refine .inr (.inr ⟨hf, _, hu, fun f hf => ?_⟩)
    rw [hb] at hf
    cases hf
  | attach hown hf hu hb hne hlen =>
    refine .inr (.inr ⟨hf, _, hu, fun f hf => ?_⟩)
    obtain rfl := Option.some.inj (hb.symm.trans hf)
    obtain ⟨t, ht, -⟩ := exists_sub_of_findInGraph hb
    have hpos := List.length_pos_iff.mpr hne
    rw [lvlAt_of_levelled hg ht]
    omega
  | move hown hf h₀ h₁ hu hb =>
    exact .inr (.inl ⟨_, hf, .inr ⟨rfl, _, hu, fun hnone => by simp [hb] at hnone⟩⟩)

/-- What came before does not decide whether something fails, nor what is added. -/
def Additive (body : NodesMapDiff → Except GraphFault NodesMapDiff) : Prop :=
  ∃ e : Except GraphFault (NodesMapDiff → NodesMapDiff), ∀ diff, body diff = e.map fun add => add diff

theorem additive_error (F : GraphFault) : Additive fun _ => .error F :=
  ⟨.error F, fun _ => rfl⟩

theorem additive_ok (add : NodesMapDiff → NodesMapDiff) : Additive fun diff => .ok (add diff) :=
  ⟨.ok add, fun _ => rfl⟩

theorem Additive.ite {p : Prop} [Decidable p]
    {body body' : NodesMapDiff → Except GraphFault NodesMapDiff} (h : Additive body)
    (h' : Additive body') : Additive fun diff => if p then body diff else body' diff := by
  by_cases hp : p
  · simpa only [if_pos hp] using h
  · simpa only [if_neg hp] using h'

theorem additive_moveUnit (g : NodeGraph) (lvl : ℕ) (u : NodesMapDiffUnit) (π : Path) :
    Additive fun diff => moveUnit g lvl diff u π := by
  unfold moveUnit
  cases u.parentIds.getLast? with
  | none => exact additive_error _
  | some back =>
    dsimp only
    cases findInGraph g back with
    | none => exact additive_error _
    | some f =>
      refine (additive_error _).ite ?_
      cases fillChain g π with
      | none => exact additive_error _
      | some vv => exact additive_ok _

theorem additive_attachUnit (g : NodeGraph) (u : NodesMapDiffUnit) :
    Additive fun diff => attachUnit g diff u := by
  unfold attachUnit
  cases u.parentIds.getLast? with
  | none => exact additive_error _
  | some back =>
    dsimp only
    cases findInGraph g back with
    | none => exact additive_ok id
    | some f =>
      dsimp only
      cases fillChain g f with
      | none => exact additive_error _
      | some vv => exact (additive_error _).ite ((additive_error _).ite (additive_ok _))

theorem additive_diffConnected (g : NodeGraph) (lvl : ℕ) (u : NodesMapDiffUnit) :
    Additive fun diff => diffConnected g lvl diff u := by
  refine (additive_ok id).ite ?_
  cases findInGraph g u.id with
  | none => exact additive_attachUnit g u
  | some π => exact (additive_ok id).ite (additive_moveUnit g lvl u π)

theorem connectsWell_of_ok (hg : Levelled g) (ho : Orderly g.value.id g)
    (h : diffConnected g lvl diff u = .ok d) : ConnectsWell g lvl u := by
  obtain ⟨e, he⟩ := additive_diffConnected g lvl u
  have h := (he diff).symm.trans h
  cases e with
  | error F => cases h
  | ok add =>
    have hgr : NodesMapDiff.Grouped .empty := ⟨.nil, .inl rfl⟩
    obtain ⟨cs, ds, hadds, -⟩ := diffConnected_adds hg ho hgr (he .empty)
    exact hadds.connectsWell hg

/-- A unit that is reported below one known parent is moved there. -/
theorem exists_moveUnit (hg : Levelled g) (hf : findInGraph g u.id = some π)
    (hlvl : ¬ lvlAt g π ≤ (1 : ℕ)) {back : PeerId} (hu : u.parentIds = [back])
    (hb : findInGraph g back ≠ none) (diff : NodesMapDiff) :
    ∃ d, moveUnit g 1 diff u π = .ok d := by
  obtain ⟨s, hs, -⟩ := exists_sub_of_findInGraph hf
  have hdepth := hg.depth π _ (get?_of_sub hs)
  unfold maxLvl at hdepth
  rw [lvlAt_of_levelled hg hs] at hlvl
  obtain ⟨a, b, c, rfl⟩ : ∃ a b c, π = [a, b, c] := List.length_eq_three.mp (by omega)
  obtain ⟨p₀, p₁, -, -, hchain⟩ := fillChain_of_get? (get?_of_sub hs)
  obtain ⟨f, hf⟩ := Option.ne_none_iff_exists'.mp hb
  unfold moveUnit
  rw [hu]
  simp only [List.getLast?_singleton, hf, hchain]
  exact ⟨_, rfl⟩

/-- An unknown unit is connected to a parent that has levels to spare. -/
theorem exists_attachUnit_of_lvlAt (hg : Levelled g) {back : PeerId}
    (hu : u.parentIds.getLast? = some back)
    (hb : ∀ f, findInGraph g back = some f → 0 ≤ lvlAt g f ∧ lvlAt g f ≤ 1) (diff : NodesMapDiff) :
    ∃ d, attachUnit g diff u = .ok d := by
  unfold attachUnit
  simp only [hu]
  cases hf : findInGraph g back with
  | none => exact ⟨diff, rfl⟩
  | some f =>
    obtain ⟨t, ht, -⟩ := exists_sub_of_findInGraph hf
    obtain ⟨hpos, hle⟩ := hb f hf
    rw [lvlAt_of_levelled hg ht] at hpos hle
    have hne : f ≠ [] := by
      rintro rfl
      simp at hpos
    obtain ⟨vv, hchain, hlen, hlast, -⟩ := fillChain_of_length_le ht hne (by omega)
    have hshort : vv.length ≠ maxLvl + 1 := by
      unfold maxLvl
      omega
    simp only [hchain, hlast, ne_eq, not_true, if_false, if_neg hshort, lvlAt_of_levelled hg ht]
    -- the number that the last assert selects is `MAX_LVL` or a level above that of the parent
    rw [if_neg]
    · exact ⟨_, rfl⟩
    · split_ifs
      all_goals first | decide | omega

theorem exists_diffConnected_iff (hg : Levelled g) (ho : Orderly g.value.id g)
    (diff : NodesMapDiff) :
    (∃ d, diffConnected g lvl diff u = .ok d) ↔ ConnectsWell g lvl u := by
  refine ⟨fun ⟨d, hd⟩ => connectsWell_of_ok hg ho hd, fun h => ?_⟩
  unfold diffConnected
  by_cases hown : u.id = g.value.id
  · exact ⟨diff, if_pos hown⟩
  rw [if_neg hown]
  rcases h with hown' | ⟨π, hf, hcase⟩ | ⟨hf, back, hu, hb⟩
  · exact absurd hown' hown
  · simp only [hf]
    by_cases hlvl : lvlAt g π ≤ lvl
    · exact ⟨diff, if_pos hlvl⟩
    · rw [if_neg hlvl]
      rcases hcase with hle | ⟨rfl, back, hu, hb⟩
      · exact absurd hle hlvl
      · exact exists_moveUnit hg hf hlvl hu hb diff
  · rw [hf]
    exact exists_attachUnit_of_lvlAt hg hu hb diff

/-! ### Disconnected units -/

/-- With one parent id the search past it ends among the neighbours: it passes over all of them, or
finds the unit before it has to look below another one. -/
def PastOne (S X : PeerId) (cs : List NodeGraph) : Prop :=
  PassedOver S X cs ∨ ∃ k c, cs[k]? = some c ∧ c.value.id = X ∧ c.value.id ≠ S ∧
    PassedOver S X (cs.take k)

/-- The own unit; a unit that is found below its parents; a unit that has no parents, or more than
one; and with one parent, `PastOne`. -/
def DisconnectsWell (g : NodeGraph) (u : NodesMapDiffUnit) : Prop :=
  u.id = g.value.id ∨ findInGraphWithParents g u.parentIds u.id ≠ none ∨
    ∀ S, u.parentIds = [S] → PastOne S u.id g.children

/-- The loop ends at the unit itself. -/
theorem exists_findInChilds_one {S X : PeerId} {cs : List NodeGraph} {k : ℕ} {c : NodeGraph}
    (hc : cs[k]? = some c) (hX : c.value.id = X) (hS : c.value.id ≠ S)
    (hbefore : PassedOver S X (cs.take k)) : ∃ r, findInChilds [S] X cs 0 = .ok r := by
  induction cs generalizing k with
  | nil => cases hc
  | cons c' cs ih =>
    cases k with
    | zero =>
      obtain rfl := Option.some.inj hc
      rw [findInChilds_cons_of_ne hS]
      rcases findInGraphWithoutParentsInternal_wrapped S X c' with
        ⟨-, hfound⟩ | ⟨hne, -⟩ | ⟨hne, -⟩
      · exact ⟨some [0], by rw [hfound]⟩
      · exact absurd hX hne
      · exact absurd hX hne
    | succ k =>
      obtain ⟨hc', hbefore⟩ := List.forall_mem_cons.mp hbefore
      obtain ⟨r, hr⟩ := ih hc hbefore
      have hrest : ∃ r, (findInChilds [S] X cs 0).map
          (Option.map (List.modifyHead (· + 1))) = .ok r := ⟨_, by rw [hr]; rfl⟩
      by_cases hS' : c'.value.id = S
      · rwa [findInChilds_cons_of_eq hS']
      · obtain ⟨hX', hleaf⟩ := hc' hS'
        rw [findInChilds_cons_of_ne hS']
        rcases findInGraphWithoutParentsInternal_wrapped S X c' with
          ⟨heq, -⟩ | ⟨-, -, hnone⟩ | ⟨-, hne, -⟩
        · exact absurd heq hX'
        · rwa [hnone]
        · exact absurd hleaf hne

theorem findInChilds_one_ok_iff (S X : PeerId) (cs : List NodeGraph) :
    (∃ r, findInChilds [S] X cs 0 = .ok r) ↔ PastOne S X cs := by
  rcases findInChilds_one S X cs with ⟨hnone, hpast⟩ | ⟨⟨F, herr⟩, hpast⟩ |
    ⟨k, c, hsome, hc, hX, hS, hpast⟩
  · exact iff_of_true ⟨none, hnone⟩ (.inl hpast)
  · refine ⟨fun ⟨r, hr⟩ => by simp [herr] at hr, ?_⟩
    rintro (hall | ⟨k, c, hc, hX, hS, hbefore⟩)
    · exact absurd hall hpast
    · exact exists_findInChilds_one hc hX hS hbefore
  · exact iff_of_true ⟨some [k], hsome⟩ (.inr ⟨k, c, hc, hX, hS, hpast⟩)

/-- With a position that does not wrap, the search reads inside the list. -/
theorem exists_findInGraphWithoutParentsInternal (ids : List PeerId) (X : PeerId) {p : ℕ}
    (hp : 0 < p) (hlen : p < ids.length) (t : NodeGraph) :
    ∃ r, findInGraphWithoutParentsInternal ids X t p = .ok r := by
  induction p generalizing t with
  | zero => exact absurd hp (Nat.lt_irrefl 0)
  | succ p ih =>
    obtain ⟨u, cs⟩ := t
    rw [findInGraphWithoutParentsInternal]
    by_cases hX : u.id = X
    · exact ⟨some [], if_pos hX⟩
    rw [if_neg hX]
    induction cs with
    | nil => exact ⟨none, rfl⟩
    | cons c cs ihcs =>
      obtain ⟨r, hr⟩ := ihcs
      have hpred : sizePred (p + 1) = p := if_neg (Nat.succ_ne_zero p)
      have hfound : ∃ r, (if 0 < p then findInGraphWithoutParentsInternal ids X c p
          else .ok (findInGraph c X)) = .ok r := by
        split_ifs with h₀
        · exact ih h₀ (Nat.lt_of_succ_lt hlen) c
        · exact ⟨_, rfl⟩
      obtain ⟨r', hr'⟩ := hfound
      rw [findInChilds, List.getElem?_eq_getElem hlen]
      dsimp only
      rw [hpred, hr', hr]
      split_ifs
      · exact ⟨_, rfl⟩
      · cases r' with
        | none => exact ⟨_, rfl⟩
        | some π => exact ⟨_, rfl⟩

theorem exists_findInGraphWithoutParents_iff {X : PeerId} (hX : X ≠ g.value.id)
    (ids : List PeerId) : (∃ r, findInGraphWithoutParents g ids X = .ok r) ↔
      ∀ S, ids = [S] → PastOne S X g.children := by
  unfold findInGraphWithoutParents
  rcases ids with _ | ⟨S, _ | ⟨S', ids⟩⟩
  · refine iff_of_true ⟨findInGraph g X, ?_⟩ fun S hS => by cases hS
    exact if_neg fun h => h rfl
  · rw [if_pos (List.cons_ne_nil S []), ← node_value_children g, findInGraphWithoutParentsInternal,
      if_neg (Ne.symm hX), node_value_children]
    refine (findInChilds_one_ok_iff S X g.children).trans ⟨fun h S' hS => ?_, fun h => h S rfl⟩
    obtain rfl := List.head_eq_of_cons_eq hS
    exact h
  · rw [if_pos (List.cons_ne_nil S _)]
    refine iff_of_true ?_ fun S₁ hS => by cases hS
    exact exists_findInGraphWithoutParentsInternal _ X (by simp) (by simp) g

theorem exists_diffDisconnected_iff (diff : NodesMapDiff) :
    (∃ d, diffDisconnected g lvl diff u = .ok d) ↔ DisconnectsWell g u := by
  unfold diffDisconnected DisconnectsWell
  by_cases hown : u.id = g.value.id
  · exact iff_of_true ⟨diff, if_pos hown⟩ (.inl hown)
  rw [if_neg hown, or_iff_right hown]
  cases hf : findInGraphWithParents g u.parentIds u.id with
  | some π => exact iff_of_true ⟨_, rfl⟩ (.inl (Option.some_ne_none π))
  | none =>
    rw [or_iff_right fun h => h rfl, ← exists_findInGraphWithoutParents_iff hown]
    simp only [bind, Except.bind, pure, Except.pure]
    cases hw : findInGraphWithoutParents g u.parentIds u.id with
    | error F => exact iff_of_false (fun ⟨d, hd⟩ => by cases hd) fun ⟨r, hr⟩ => by cases hr
    | ok found =>
      refine iff_of_true ?_ ⟨found, rfl⟩
      cases found with
      | none => exact ⟨_, rfl⟩
      | some π =>
        dsimp only
        cases fillChain g π with
        | none => exact ⟨_, rfl⟩
        | some vv => exact ⟨_, rfl⟩

/-! ### Two maps -/

theorem createDiffDisconnectedBylvls_eq (diff : NodesMapDiff) (RU : RoomMap)
    (incoming : IncomingMap) :
    createDiffDisconnectedBylvls diff RU incoming = (incomingUnits incoming).foldlM
      (fun diff e => diffDisconnected RU.iamRoot e.1 diff e.2) diff := by
  unfold createDiffDisconnectedBylvls incomingUnits
  induction incoming generalizing diff with
  | nil => rfl
  | cons itr incoming ih =>
    rw [List.foldlM_cons, List.flatMap_cons, List.foldlM_append, List.foldlM_map]
    cases itr.2.foldlM (diffDisconnected RU.iamRoot (clampLvl (itr.1 + 1))) diff with
    | error F => rfl
    | ok d => exact ih d

/-- A loop whose steps fail or not whatever came before. -/
theorem exists_foldlM_eq_ok_iff {σ ε F : Type} {f : σ → ε → Except F σ} {P : ε → Prop}
    (hf : ∀ s e, (∃ s', f s e = .ok s') ↔ P e) (l : List ε) (s : σ) :
    (∃ s', l.foldlM f s = .ok s') ↔ ∀ e ∈ l, P e := by
  refine ⟨fun ⟨s', hs'⟩ e he => ?_, fun h => exists_foldlM_eq_ok fun e he s => (hf s e).mpr (h e he)⟩
  obtain ⟨l₁, l₂, rfl⟩ := List.append_of_mem he
  obtain ⟨s₁, s₂, -, hstep, -⟩ := (Lts.foldlM_eq_ok_iff.mp hs').split
  exact (hf s₁ e).mp ⟨s₂, hstep⟩

/-- **Both loops come to their end**, whatever the difference holds already, exactly when each unit
of the two maps is one that nothing fails for. -/
theorem run_createDiff_ok_iff {myId : PeerId} {ds : List NodesMapDiff} {RU : RoomMap}
    (h : Lts.Run GraphStep (createRoomMap myId) ds RU) (diff : NodesMapDiff)
    (connected disconnected : IncomingMap) :
    ((∃ d, createDiffConnectedBylvls diff RU connected = .ok d) ∧
      ∃ d, createDiffDisconnectedBylvls diff RU disconnected = .ok d) ↔
    (∀ e ∈ incomingUnits connected, ConnectsWell RU.iamRoot e.1 e.2) ∧
      ∀ e ∈ incomingUnits disconnected, DisconnectsWell RU.iamRoot e.2 := by
  obtain ⟨hg, ho⟩ := run_graphStep_sound h
  rw [createDiffConnectedBylvls_eq, createDiffDisconnectedBylvls_eq]
  refine and_congr (exists_foldlM_eq_ok_iff (fun diff e => ?_) _ _)
    (exists_foldlM_eq_ok_iff (fun diff e => ?_) _ _)
  · exact exists_diffConnected_iff hg ho diff
  · exact exists_diffDisconnected_iff diff

/-- Below a known neighbour a new unit and one that was known farther away; a known unit; a new unit
of the last level. -/
def reportedMap : IncomingMap :=
  [(0, [⟨"y", ["s"]⟩, ⟨"x", ["s"]⟩]), (1, [⟨"b", ["a"]⟩, ⟨"z", ["a", "b"]⟩])]

/-- A neighbour below another one, a unit below its parents, and one below others. -/
def lostMap : IncomingMap :=
  [(0, [⟨"s", ["a"]⟩]), (1, [⟨"b", ["a", "me"]⟩]), (2, [⟨"x", ["s", "me"]⟩])]

/-- A room with units at all levels, which two differences have built. -/
theorem run_createDiff_ok_levels : ∃ ds RU, Lts.Run GraphStep (createRoomMap "me") ds RU ∧
    (findInGraph RU.iamRoot "x").map (lvlAt RU.iamRoot) = some 2 ∧
    (∀ e ∈ incomingUnits reportedMap, ConnectsWell RU.iamRoot e.1 e.2) ∧
      ∀ e ∈ incomingUnits lostMap, DisconnectsWell RU.iamRoot e.2 := by
  obtain ⟨RU, hrun, hlvl, hc, hd⟩ := Lts.exists_run_of_any RoomMap.onNodesMapDiff
    (createRoomMap "me")
    [⟨[(0, [⟨"a", ["me"]⟩, ⟨"s", ["me"]⟩]), (1, [⟨"b", ["a", "me"]⟩])], []⟩,
      ⟨[(2, [⟨"x", ["b", "a", "me"]⟩])], []⟩]
    (fun RU => (findInGraph RU.iamRoot "x").map (lvlAt RU.iamRoot) = some 2 ∧
      (createDiffConnectedBylvls .empty RU reportedMap).toOption.isSome = true ∧
      (createDiffDisconnectedBylvls .empty RU lostMap).toOption.isSome = true) (by decide +kernel)
  obtain ⟨d, hc⟩ := Option.isSome_iff_exists.mp hc
  obtain ⟨d', hd⟩ := Option.isSome_iff_exists.mp hd
  exact ⟨_, RU, hrun, hlvl, (run_createDiff_ok_iff hrun .empty _ _).mp
    ⟨⟨d, Lts.eq_ok_of_mem_toOption hc⟩, d', Lts.eq_ok_of_mem_toOption hd⟩⟩

/-- A unit without parents is looked for at the end of an empty list. -/
theorem not_createDiff_ok_orphan : ¬ ∀ myId ds RU, Lts.Run GraphStep (createRoomMap myId) ds RU →
    ∀ diff connected disconnected,
      (∃ d, createDiffConnectedBylvls diff RU connected = .ok d) ∧
        ∃ d, createDiffDisconnectedBylvls diff RU disconnected = .ok d := by
  intro h
  obtain ⟨⟨d, hd⟩, -⟩ := h "me" [] _ .nil .empty [(0, [⟨"x", []⟩])] []
  have herr : createDiffConnectedBylvls .empty (createRoomMap "me") [(0, [⟨"x", []⟩])] =
      .error .outOfBounds := by decide
  rw [herr] at hd
  cases hd

end Yamb
