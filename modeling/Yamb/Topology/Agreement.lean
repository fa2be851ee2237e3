import Yamb.Topology.Built

/-!
# The graph and the arrays

A difference is applied to the graph by searching and cutting off subtrees, and to the arrays by
comparing whole entries.

* `Stored`: what the arrays say is at a level;
* `Agrees`: the arrays say what the graph says;
* `agrees_connect`, `agrees_disconnect_iff`: new units keep the agreement; a disconnected one keeps it
  exactly when it is `Matching`;
* **`run_agrees`**: as long as every disconnected unit is `Matching` when its turn comes, the two
  agree after every difference.
-/

set_option autoImplicit false

namespace Yamb

open RoseTree

/-- The arrays list a unit with this level and id. -/
def Stored (st : ℕ → List NodesMapDiffUnit) (u : NodeUnit) : Prop :=
  ∃ l : ℕ, u.lvl = l ∧ ∃ e ∈ st l, e.id = u.id

/-- An array lists an id once. -/
def Keyed (st : ℕ → List NodesMapDiffUnit) : Prop := ∀ l, ((st l).map NodesMapDiffUnit.id).Nodup

def Agrees (s : NodeGraph × (ℕ → List NodesMapDiffUnit)) : Prop := ∀ u, u ∈ units s.1 ↔ Stored s.2 u

/-- There is a unit like `u` that is not below `π`. -/
def Elsewhere (g : NodeGraph) (π : Path) (u : NodeUnit) : Prop :=
  ∃ ρ, g.get? ρ = some u ∧ ∀ σ, ρ ≠ π ++ σ

/-- A disconnected unit takes the same from the graph and from the arrays: what is cut off with it
is elsewhere too, but for the reported unit where the very entry is listed, which then is nowhere
else. -/
def Matching (s : NodeGraph × (ℕ → List NodesMapDiffUnit)) : Entry → Prop
  | .connect _ _ => True
  | .disconnect lvl e =>
    match findInGraphWithParents s.1 e.parentIds e.id with
    | none => e ∉ s.2 (clampLvl lvl)
    | some π => π ≠ [] ∧ (e ∈ s.2 (clampLvl lvl) → ¬ Elsewhere s.1 π ⟨clampLvl lvl, e.id⟩) ∧
        ∀ σ u, s.1.get? (π ++ σ) = some u →
          Elsewhere s.1 π u ∨ e ∈ s.2 (clampLvl lvl) ∧ u = ⟨clampLvl lvl, e.id⟩

variable {g g' : NodeGraph} {st : ℕ → List NodesMapDiffUnit} {lvl : ℤ} {e : NodesMapDiffUnit}
  {u : NodeUnit} {π : Path}

/-! ### The arrays -/

theorem mem_ids_addUnit {arr : List NodesMapDiffUnit} {x : PeerId} :
    (∃ d ∈ addUnit arr e, d.id = x) ↔ (∃ d ∈ arr, d.id = x) ∨ x = e.id := by
  unfold addUnit
  split_ifs with h
  · obtain ⟨d, hd, hid⟩ := List.any_eq_true.mp h
    refine ⟨.inl, fun hx => ?_⟩
    rcases hx with hx | rfl
    · exact hx
    · exact ⟨d, hd, of_decide_eq_true hid⟩
  · simp only [List.mem_append, List.mem_singleton, or_and_right, exists_or, exists_eq_left,
      eq_comm (a := x)]

theorem stored_connect :
    Stored (Entry.store st (.connect lvl e)) u ↔ Stored st u ∨ u = ⟨clampLvl lvl, e.id⟩ := by
  obtain ⟨k, x⟩ := u
  simp only [Stored, Entry.store, NodeUnit.mk.injEq]
  constructor
  · rintro ⟨l, rfl, h⟩
    by_cases hl : l = clampLvl lvl
    · subst hl
      rw [Function.update_self] at h
      rcases mem_ids_addUnit.mp h with h | h
      · exact .inl ⟨_, rfl, h⟩
      · exact .inr ⟨rfl, h⟩
    · rw [Function.update_of_ne hl] at h
      exact .inl ⟨l, rfl, h⟩
  · rintro (⟨l, rfl, h⟩ | ⟨rfl, hx⟩)
    · refine ⟨l, rfl, ?_⟩
      by_cases hl : l = clampLvl lvl
      · subst hl
        rw [Function.update_self]
        exact mem_ids_addUnit.mpr (.inl h)
      · rwa [Function.update_of_ne hl]
    · refine ⟨clampLvl lvl, rfl, ?_⟩
      rw [Function.update_self]
      exact mem_ids_addUnit.mpr (.inr hx)

theorem stored_disconnect (hk : Keyed st) : Stored (Entry.store st (.disconnect lvl e)) u ↔
    Stored st u ∧ ¬ (e ∈ st (clampLvl lvl) ∧ u = ⟨clampLvl lvl, e.id⟩) := by
  obtain ⟨k, x⟩ := u
  simp only [Stored, Entry.store, NodeUnit.mk.injEq]
  constructor
  · rintro ⟨l, rfl, d, hd, hdx⟩
    by_cases hl : l = clampLvl lvl
    · subst hl
      rw [Function.update_self] at hd
      obtain ⟨hd, hne⟩ := List.mem_filter.mp hd
      refine ⟨⟨_, rfl, d, hd, hdx⟩, fun ⟨he, _, hx⟩ => ?_⟩
      exact of_decide_eq_true hne (List.inj_on_of_nodup_map (hk _) hd he (hdx.trans hx))
    · rw [Function.update_of_ne hl] at hd
      refine ⟨⟨l, rfl, d, hd, hdx⟩, fun ⟨_, hkl, _⟩ => hl ?_⟩
      exact_mod_cast hkl
  · rintro ⟨⟨l, rfl, d, hd, hdx⟩, hne⟩
    refine ⟨l, rfl, d, ?_, hdx⟩
    by_cases hl : l = clampLvl lvl
    · subst hl
      rw [Function.update_self]
      refine List.mem_filter.mpr ⟨hd, decide_eq_true fun hde => hne ?_⟩
      subst hde
      exact ⟨hd, rfl, hdx.symm⟩
    · rwa [Function.update_of_ne hl]

theorem Keyed.store (hk : Keyed st) (e : Entry) : Keyed (Entry.store st e) := by
  have hupdate {l : ℕ} {arr : List NodesMapDiffUnit} (h : (arr.map NodesMapDiffUnit.id).Nodup) :
      Keyed (Function.update st l arr) := by
    intro l'
    by_cases hl : l' = l
    · rwa [hl, Function.update_self]
    · rw [Function.update_of_ne hl]
      exact hk l'
  cases e with
  | connect lvl e =>
    refine hupdate ?_
    unfold addUnit
    split_ifs with h
    · exact hk _
    · rw [List.map_append, List.map_singleton, List.nodup_append]
      refine ⟨hk _, List.nodup_singleton _, ?_⟩
      intro x hx y hy
      obtain ⟨d, hd, rfl⟩ := List.mem_map.mp hx
      obtain rfl := List.mem_singleton.mp hy
      exact fun hid => h (List.any_eq_true.mpr ⟨d, hd, decide_eq_true hid⟩)
  | disconnect lvl e => exact hupdate ((hk _).sublist (List.filter_sublist.map _))

/-! ### One entry -/

theorem agrees_connect (ha : Agrees (g, st))
    (h : (Entry.connect lvl e).onGraph g = .ok g') :
    Agrees (g', Entry.store st (.connect lvl e)) := by
  obtain ⟨π, s, hs, rfl, -⟩ := connectUnit_cases h
  intro u
  show u ∈ units (g.push _ π) ↔ _
  rw [(units_push hs _).mem_iff, List.mem_cons, stored_connect]
  exact or_comm.trans (or_congr (ha u) Iff.rfl)

theorem Levelled.value_lvl (hg : Levelled g) : g.value.lvl = -1 := hg.lvl [] _ (get?_nil g)

theorem Levelled.mem_units_erase (hg : Levelled g) (hπ : π ≠ []) (hu : u.lvl ≠ -1) :
    u ∈ units (g.erase π) ↔ Elsewhere g π u := by
  have hroot : u ≠ (g.erase π).value := by
    rintro rfl
    rw [value_erase] at hu
    exact hu hg.value_lvl
  rw [Elsewhere, ← mem_values_erase hπ, values_eq_units (g.erase π), List.mem_cons,
    or_iff_right hroot]

/-- What is left in the graph, and what was cut off. -/
theorem mem_units_iff_of_sub {s : NodeGraph} (hs : g.sub π = some s) (hπ : π ≠ []) :
    u ∈ units g ↔ (∃ σ, g.get? (π ++ σ) = some u) ∨ u ∈ units (g.erase π) := by
  rw [← (units_erase hs hπ).mem_iff, List.mem_append, mem_values]
  simp only [get?_append_of_sub hs]

theorem agrees_disconnect_iff (hg : Levelled g) (hk : Keyed st) (ha : Agrees (g, st))
    (h : (Entry.disconnect lvl e).onGraph g = .ok g') :
    Agrees (g', Entry.store st (.disconnect lvl e)) ↔ Matching (g, st) (.disconnect lvl e) := by
  have hstored (u : NodeUnit) : Stored (Entry.store st (.disconnect lvl e)) u ↔
      u ∈ units g ∧ ¬ (e ∈ st (clampLvl lvl) ∧ u = ⟨clampLvl lvl, e.id⟩) := by
    rw [stored_disconnect hk]
    exact and_congr (ha u).symm Iff.rfl
  have hlisted (he : e ∈ st (clampLvl lvl)) : (⟨clampLvl lvl, e.id⟩ : NodeUnit) ∈ units g :=
    (ha _).mpr ⟨_, rfl, e, he, rfl⟩
  have hne (u : NodeUnit) (hu : u ∈ units g) : u.lvl ≠ -1 := by
    obtain ⟨i, π, hπ⟩ := mem_units.mp hu
    rw [hg.lvl _ u hπ, List.length_cons]
    push_cast
    omega
  unfold Matching
  rcases disconnectUnit_cases h with ⟨hnone, rfl⟩ | ⟨π, s, hfound, hπ, hs, -, rfl⟩
  · simp only [hnone]
    constructor
    · intro ha' he
      exact ((hstored _).mp ((ha' _).mp (hlisted he))).2 ⟨he, rfl⟩
    · intro he u
      show u ∈ units g' ↔ _
      rw [hstored]
      exact ⟨fun hu => ⟨hu, fun hc => he hc.1⟩, And.left⟩
  · simp only [hfound]
    constructor
    · intro ha'
      refine ⟨hπ, fun he hel => ?_, fun σ u hu => ?_⟩
      · have hin := (hg.mem_units_erase hπ (hne _ (hlisted he))).mpr hel
        exact ((hstored _).mp ((ha' _).mp hin)).2 ⟨he, rfl⟩
      · have hin : u ∈ units g := (mem_units_iff_of_sub hs hπ).mpr (.inl ⟨σ, hu⟩)
        rw [← hg.mem_units_erase hπ (hne u hin)]
        by_contra hno
        rw [not_or] at hno
        exact hno.1 ((ha' u).mpr ((hstored u).mpr ⟨hin, hno.2⟩))
    · rintro ⟨-, hnowhere, hcut⟩ u
      show u ∈ units (g.erase π) ↔ _
      rw [hstored]
      constructor
      · intro hu
        have hin : u ∈ units g := (mem_units_iff_of_sub hs hπ).mpr (.inr hu)
        refine ⟨hin, ?_⟩
        rintro ⟨he, rfl⟩
        exact hnowhere he ((hg.mem_units_erase hπ (hne _ hin)).mp hu)
      · rintro ⟨hin, hno⟩
        rcases (mem_units_iff_of_sub hs hπ).mp hin with ⟨σ, hσ⟩ | hu
        · rcases hcut σ u hσ with hel | hc
          · exact (hg.mem_units_erase hπ (hne u hin)).mpr hel
          · exact absurd hc hno
        · exact hu

theorem elsewhere_iff (hπ : π ≠ []) : Elsewhere g π u ↔ u ∈ (g.erase π).values :=
  (mem_values_erase hπ).symm

/-- A unit that is found and cut off, by the values on both sides of the cut. -/
theorem matching_disconnect_iff {s : NodeGraph} (hs : g.sub π = some s) (hπ : π ≠ [])
    (hfound : findInGraphWithParents g e.parentIds e.id = some π) :
    Matching (g, st) (.disconnect lvl e) ↔
      (e ∈ st (clampLvl lvl) → ⟨clampLvl lvl, e.id⟩ ∉ (g.erase π).values) ∧
        ∀ u ∈ s.values, u ∈ (g.erase π).values ∨
          e ∈ st (clampLvl lvl) ∧ u = ⟨clampLvl lvl, e.id⟩ := by
  unfold Matching
  simp only [hfound, elsewhere_iff hπ, mem_values, get?_append_of_sub hs]
  rw [and_iff_right hπ]
  refine and_congr_right fun _ => ?_
  exact ⟨fun h u ⟨σ, hσ⟩ => h σ u hσ, fun h σ u hσ => h u ⟨σ, hσ⟩⟩

/-! ### Runs -/

abbrev DiffStep (RU : RoomMap) (diff : NodesMapDiff) (RU' : RoomMap) : Prop :=
  RU.applyDiff diff = .ok RU'

variable {RU RU' : RoomMap} {diff : NodesMapDiff} {myId : PeerId} {ds : List NodesMapDiff}

theorem exists_diff_run (RU : RoomMap) (ds : List NodesMapDiff) (P : RoomMap → Prop)
    [DecidablePred P]
    (h : ((ds.foldlM RoomMap.applyDiff RU).toOption.any fun RU' => decide (P RU')) = true) :
    ∃ RU', Lts.Run DiffStep RU ds RU' ∧ P RU' := Lts.exists_run_of_any _ _ _ _ h

/-- What every entry keeps. -/
structure Sound (s : NodeGraph × (ℕ → List NodesMapDiffUnit)) : Prop where
  levelled : Levelled s.1
  keyed : Keyed s.2

theorem Along.sound {s s' : NodeGraph × (ℕ → List NodesMapDiffUnit)} {e : Entry}
    (h : Along Entry.store s e s') (hs : Sound s) : Sound s' :=
  ⟨hs.levelled.onGraph h.1, by rw [h.2]; exact hs.keyed.store e⟩

theorem Along.agrees_iff {s s' : NodeGraph × (ℕ → List NodesMapDiffUnit)} {e : Entry}
    (h : Along Entry.store s e s') (hs : Sound s) (ha : Agrees s) : Agrees s' ↔ Matching s e := by
  obtain ⟨g, st⟩ := s
  obtain ⟨g', st'⟩ := s'
  obtain ⟨hg, rfl⟩ : e.onGraph g = .ok g' ∧ st' = Entry.store st e := h
  cases e with
  | connect lvl e => exact iff_of_true (agrees_connect ha hg) trivial
  | disconnect lvl e => exact agrees_disconnect_iff hs.levelled hs.keyed ha hg

/-- **Entry by entry, the graph and the arrays agree exactly as long as the entries match.** -/
theorem run_along_agrees_iff {s s' : NodeGraph × (ℕ → List NodesMapDiffUnit)} {es : List Entry}
    (hs : Sound s) (ha : Agrees s) : Lts.Run (Lts.Into (Along Entry.store) Agrees) s es s' ↔
      Lts.Run (Lts.Only (Along Entry.store) Matching) s es s' :=
  Lts.run_into_iff (C := fun _ => True) (I := fun s => Sound s ∧ Agrees s) trivial
    (fun _ _ _ _ _ => trivial) ⟨hs, ha⟩ (fun _ _ _ _ hs he => he.agrees_iff hs.1 hs.2)
    fun _ _ _ _ hs he hq => ⟨he.sound hs.1, (he.agrees_iff hs.1 hs.2).mpr hq⟩

/-- Every unit of the difference matches when its turn comes. -/
def RoomMap.Matches (RU : RoomMap) (diff : NodesMapDiff) : Prop :=
  InTurn Entry.store Matching RU.views diff.entries

theorem createRoomMap_agrees (myId : PeerId) :
    Sound (createRoomMap myId).views ∧ Agrees (createRoomMap myId).views := by
  have hst (l : ℕ) : (createRoomMap myId).stored l = [] := by
    simp only [RoomMap.stored, createRoomMap]
    split_ifs <;> rfl
  refine ⟨⟨levelled_create myId, fun l => ?_⟩, fun u => ?_⟩
  · show (((createRoomMap myId).stored l).map _).Nodup
    rw [hst]
    exact List.nodup_nil
  · refine iff_of_false List.not_mem_nil ?_
    rintro ⟨l, -, d, hd, -⟩
    have hd : d ∈ (createRoomMap myId).stored l := hd
    rw [hst] at hd
    cases hd

theorem onGraph_ne_rootFreed {e : Entry} (hq : Matching (g, st) e) :
    e.onGraph g ≠ .error .rootFreed := by
  intro h
  cases e with
  | connect lvl e => exact connectUnit_ne_rootFreed g _ e h
  | disconnect lvl e =>
    unfold Matching at hq
    simp only [findInGraphWithParents_of_error h] at hq
    exact hq.1 rfl

/-- A difference that matches frees no root. -/
theorem onNodesMapDiff_ne_rootFreed (hm : RU.Matches diff) :
    RU.onNodesMapDiff diff ≠ .error .rootFreed := by
  intro h
  rw [RoomMap.onNodesMapDiff_eq] at h
  cases hg : diff.entries.foldlM Entry.onGraph RU.iamRoot with
  | ok g =>
    rw [hg] at h
    cases h
  | error F =>
    rw [hg] at h
    obtain rfl : F = .rootFreed := Except.error.inj h
    obtain ⟨e, g₁, st, hq, he⟩ := InTurn.exists_of_error hm hg
    exact onGraph_ne_rootFreed hq he

/-- **The graph and the arrays agree** after every run of differences that match. -/
theorem run_agrees (h : Lts.Run (Lts.Only DiffStep RoomMap.Matches) (createRoomMap myId) ds RU) :
    Agrees RU.views ∧ ∀ diff, RU.Matches diff → RU.onNodesMapDiff diff ≠ .error .rootFreed := by
  suffices H : Sound RU.views ∧ Agrees RU.views from
    ⟨H.2, fun _ hm => onNodesMapDiff_ne_rootFreed hm⟩
  refine h.invariant (I := fun RU => Sound RU.views ∧ Agrees RU.views)
    (createRoomMap_agrees myId) fun RU diff RU' hs he => ?_
  have hr := run_along_of_inTurn (RoomMap.run_of_applyDiff he.1) he.2
  refine hr.invariant (I := fun s => Sound s ∧ Agrees s) hs fun s e s' hs he => ?_
  exact ⟨he.1.sound hs.1, (he.1.agrees_iff hs.1 hs.2).mpr he.2⟩

/-- A neighbour comes, and the entry it was connected with is disconnected. -/
theorem run_agrees_neighbour : ∃ RU,
    Lts.Run (Lts.Only DiffStep RoomMap.Matches) (createRoomMap "me")
      [⟨[(0, [⟨"v", ["me"]⟩])], []⟩, ⟨[], [(0, [⟨"v", ["me"]⟩])]⟩] RU ∧
    Agrees RU.views ∧ ∀ diff, RU.Matches diff → RU.onNodesMapDiff diff ≠ .error .rootFreed := by
  obtain ⟨RU, hr, -⟩ := exists_diff_run (createRoomMap "me")
    [⟨[(0, [⟨"v", ["me"]⟩])], []⟩, ⟨[], [(0, [⟨"v", ["me"]⟩])]⟩] (fun _ => True)
    (by decide +kernel)
  obtain ⟨RU₁, h₁, hr₂⟩ := hr.cons_inv
  have hP : (((createRoomMap "me").applyDiff ⟨[(0, [⟨"v", ["me"]⟩])], []⟩).toOption.any fun RU =>
      decide (findInGraphWithParents RU.iamRoot ["me"] "v" = some [0] ∧
        (RU.iamRoot.sub [0]).map values = some [⟨0, "v"⟩] ∧
        (RU.iamRoot.erase [0]).values = [⟨-1, "me"⟩] ∧
        RU.stored 0 = [⟨"v", ["me"]⟩])) = true := by decide +kernel
  rw [h₁] at hP
  obtain ⟨hfound, hsub, hleft, hst⟩ := of_decide_eq_true hP
  obtain ⟨s, hs, hv⟩ := Option.map_eq_some_iff.mp hsub
  have hm₁ : (createRoomMap "me").Matches ⟨[(0, [⟨"v", ["me"]⟩])], []⟩ :=
    inTurn_singleton.mpr trivial
  have hm₂ : RU₁.Matches ⟨[], [(0, [⟨"v", ["me"]⟩])]⟩ := by
    refine inTurn_singleton.mpr ((matching_disconnect_iff hs (List.cons_ne_nil 0 []) hfound).mpr ?_)
    rw [hleft, hv, show RU₁.stored (clampLvl 0) = [⟨"v", ["me"]⟩] from hst]
    decide
  obtain ⟨RU₂, h₂, -⟩ := hr₂.cons_inv
  have hrun : Lts.Run (Lts.Only DiffStep RoomMap.Matches) _ _ RU₂ :=
    (Lts.Run.single ⟨h₁, hm₁⟩).snoc ⟨h₂, hm₂⟩
  exact ⟨RU₂, hrun, run_agrees hrun⟩

/-- A neighbour, one below it, and the neighbour is disconnected: the graph loses both. -/
theorem not_agrees_below_neighbour :
    ¬ ∀ myId ds RU, Lts.Run DiffStep (createRoomMap myId) ds RU → Agrees RU.views := by
  intro h
  obtain ⟨RU, hr, hg, hst⟩ := exists_diff_run (createRoomMap "me")
    [⟨[(0, [⟨"v", ["me"]⟩]), (1, [⟨"w", ["v", "me"]⟩])], []⟩, ⟨[], [(0, [⟨"v", ["me"]⟩])]⟩]
    (fun RU => (⟨1, "w"⟩ : NodeUnit) ∉ units RU.iamRoot ∧ ⟨"w", ["v", "me"]⟩ ∈ RU.stored 1)
    (by decide +kernel)
  exact hg ((h _ _ RU hr ⟨1, "w"⟩).mpr ⟨1, rfl, _, hst, rfl⟩)

end Yamb
