import Yamb.Topology.Diff

/-!
# The graphs that are built

* `findInGraph_eq_some`, `findInTurn_append_singleton`, `exists_sub_of_followChain`: what the
  searches find;
* `connectUnit_cases`, `disconnectUnit_cases`: what one unit does to the graph;
* `units`: the units below `IamRoot`;
* `Levelled`, `Levelled.onGraph`: in a graph that differences have built, `Lvl` is the depth of a
  unit below `IamRoot`, and at most `MAX_LVL`;
* `Orderly`, `Orderly.onGraph`: in such a graph, of the units with one parent and one id only the
  first has children.
-/

set_option autoImplicit false

namespace Yamb

open RoseTree

variable {g g' t : NodeGraph} {π ρ : Path} {u v : NodeUnit} {x myId : PeerId} {ids : List PeerId}

/-! ### The searches -/

theorem findInGraph_eq_some : findInGraph g x = some π ↔
    (∃ u, g.get? π = some u ∧ u.id = x) ∧
      ∀ ρ v, g.get? ρ = some v → v.id = x → ¬ Precedes ρ π := by
  rw [findInGraph, find?_eq_some_iff]
  constructor
  · intro h
    obtain ⟨u, hu, hx⟩ := h.found
    exact ⟨⟨u, hu, of_decide_eq_true hx⟩, fun ρ v hv hx => h.first ρ v hv (decide_eq_true hx)⟩
  · rintro ⟨⟨u, hu, hx⟩, h⟩
    exact ⟨⟨u, hu, decide_eq_true hx⟩, fun ρ v hv hx => h ρ v hv (of_decide_eq_true hx)⟩

theorem findInGraph_eq_none : findInGraph g x = none ↔ ∀ ρ v, g.get? ρ = some v → v.id ≠ x := by
  rw [findInGraph, find?_eq_none_iff]
  simp only [decide_eq_true_eq, ne_eq]

theorem exists_sub_of_findInGraph (h : findInGraph g x = some π) :
    ∃ s, g.sub π = some s ∧ s.value.id = x := by
  obtain ⟨⟨u, hu, rfl⟩, -⟩ := findInGraph_eq_some.mp h
  obtain ⟨s, hs, rfl⟩ := get?_eq_some.mp hu
  exact ⟨s, hs, rfl⟩

theorem id_of_findInGraph {s : NodeGraph} (h : findInGraph g x = some π) (hs : g.sub π = some s) :
    s.value.id = x := by
  obtain ⟨s', hs', hid⟩ := exists_sub_of_findInGraph h
  obtain rfl := Option.some.inj (hs.symm.trans hs')
  exact hid

theorem findInTurn_cons_eq_some : findInTurn g (x :: ids) = some π ↔
    ∃ ρ s σ, findInGraph g x = some ρ ∧ g.sub ρ = some s ∧ findInTurn s ids = some σ ∧
      π = ρ ++ σ := by
  simp only [findInTurn, Option.bind_eq_bind, Option.bind_eq_some_iff, Option.pure_def,
    Option.some.injEq]
  constructor
  · rintro ⟨ρ, hρ, s, hs, σ, hσ, rfl⟩
    exact ⟨ρ, s, σ, hρ, hs, hσ, rfl⟩
  · rintro ⟨ρ, s, σ, hρ, hs, hσ, rfl⟩
    exact ⟨ρ, hρ, s, hs, σ, hσ, rfl⟩

theorem findInTurn_append_singleton (h : findInTurn g (ids ++ [x]) = some π) :
    ∃ s, g.sub π = some s ∧ s.value.id = x := by
  induction ids generalizing g π with
  | nil =>
    obtain ⟨ρ, s, σ, hρ, hs, hσ, rfl⟩ := findInTurn_cons_eq_some.mp h
    obtain rfl := Option.some.inj hσ
    rw [List.append_nil]
    exact exists_sub_of_findInGraph hρ
  | cons y ids ih =>
    obtain ⟨ρ, s, σ, -, hs, hσ, rfl⟩ := findInTurn_cons_eq_some.mp h
    obtain ⟨s', hs', hx⟩ := ih hσ
    exact ⟨s', (sub_append_of_sub hs σ).trans hs', hx⟩

theorem followChain_cons_eq_some (hx : myId ≠ x) : followChain myId t (x :: ids) = some π ↔
    ∃ i c ρ, t.children.findIdx? (fun d => d.value.id = x) = some i ∧ t.children[i]? = some c ∧
      followChain myId c ids = some ρ ∧ π = i :: ρ := by
  rw [followChain, if_neg hx]
  simp only [Option.bind_eq_bind, Option.bind_eq_some_iff, Option.pure_def, Option.some.injEq]
  constructor
  · rintro ⟨i, hi, c, hc, ρ, hρ, rfl⟩
    exact ⟨i, c, ρ, hi, hc, hρ, rfl⟩
  · rintro ⟨i, c, ρ, hi, hc, hρ, rfl⟩
    exact ⟨i, hi, c, hc, ρ, hρ, rfl⟩

theorem exists_sub_of_followChain (h : followChain myId t ids = some π) :
    ∃ s, t.sub π = some s := by
  induction ids generalizing t π with
  | nil =>
    obtain rfl := Option.some.inj h
    exact ⟨t, sub_nil t⟩
  | cons x ids ih =>
    by_cases hx : myId = x
    · rw [followChain, if_pos hx] at h
      exact ih h
    · obtain ⟨i, c, ρ, -, hc, hρ, rfl⟩ := (followChain_cons_eq_some hx).mp h
      obtain ⟨s, hs⟩ := ih hρ
      exact ⟨s, sub_cons_eq_some.mpr ⟨c, hc, hs⟩⟩

theorem lvlAt_of_get? (h : g.get? π = some u) : lvlAt g π = u.lvl := by
  rw [lvlAt, h]
  rfl

/-! ### One unit of a difference -/

/-- A new unit is a leaf under a unit of the level above. -/
theorem connectUnit_cases {lvl : ℕ} {e : NodesMapDiffUnit} (h : connectUnit g lvl e = .ok g') :
    ∃ π s, g.sub π = some s ∧ g' = g.push (.node ⟨lvl, e.id⟩ []) π ∧
      (lvl : ℤ) = s.value.lvl + 1 ∧ g.values.length + 1 < 2 ^ 64 ∧
      (e.parentIds = [] ∧ π = [] ∨ findInGraphByChain g e.parentIds = some π) := by
  have hnew {π : Path} (h : newNodeUnit g π ⟨lvl, e.id⟩ = .ok g') :
      g' = g.push (.node ⟨lvl, e.id⟩ []) π ∧ g.values.length + 1 < 2 ^ 64 := by
    unfold newNodeUnit at h
    split_ifs at h with hlen
    exact ⟨(Except.ok.inj h).symm, hlen⟩
  unfold connectUnit at h
  by_cases hp : e.parentIds = []
  · rw [if_pos hp] at h
    split_ifs at h with hlvl hzero
    obtain ⟨hg', hlen⟩ := hnew h
    exact ⟨[], g, sub_nil g, hg', by omega, hlen, .inl ⟨hp, rfl⟩⟩
  · rw [if_neg hp] at h
    cases hπ : findInGraphByChain g e.parentIds with
    | none =>
      rw [hπ] at h
      cases h
    | some π =>
      simp only [hπ] at h
      obtain ⟨s, hs⟩ := exists_sub_of_followChain hπ
      rw [lvlAt_of_get? (get?_of_sub hs)] at h
      split_ifs at h with hlvl
      obtain ⟨hg', hlen⟩ := hnew h
      exact ⟨π, s, hs, hg', by omega, hlen, .inr rfl⟩

theorem connectUnit_ne_rootFreed (g : NodeGraph) (lvl : ℕ) (e : NodesMapDiffUnit) :
    connectUnit g lvl e ≠ .error .rootFreed := by
  have hnew (π : Path) : newNodeUnit g π ⟨lvl, e.id⟩ ≠ .error .rootFreed := by
    unfold newNodeUnit
    split_ifs <;> simp
  unfold connectUnit
  by_cases hp : e.parentIds = []
  · rw [if_pos hp]
    split_ifs
    · simp
    · simp
    · exact hnew []
  · rw [if_neg hp]
    split
    · split_ifs
      · simp
      · exact hnew _
    · simp

theorem findInGraphWithParents_of_error {e : NodesMapDiffUnit} {F : GraphFault}
    (h : disconnectUnit g e = .error F) :
    findInGraphWithParents g e.parentIds e.id = some [] := by
  unfold disconnectUnit at h
  cases hπ : findInGraphWithParents g e.parentIds e.id with
  | none =>
    rw [hπ] at h
    cases h
  | some π =>
    rw [hπ] at h
    cases π with
    | nil => rfl
    | cons => cases h

/-- A unit that is found goes with all that is below it. -/
theorem disconnectUnit_cases {e : NodesMapDiffUnit} (h : disconnectUnit g e = .ok g') :
    findInGraphWithParents g e.parentIds e.id = none ∧ g' = g ∨
      ∃ π s, findInGraphWithParents g e.parentIds e.id = some π ∧ π ≠ [] ∧ g.sub π = some s ∧
        s.value.id = e.id ∧ g' = g.erase π := by
  unfold disconnectUnit at h
  cases hπ : findInGraphWithParents g e.parentIds e.id with
  | none =>
    rw [hπ] at h
    exact .inl ⟨rfl, (Except.ok.inj h).symm⟩
  | some π =>
    rw [hπ] at h
    obtain ⟨s, hs, hid⟩ := findInTurn_append_singleton hπ
    cases π with
    | nil => cases h
    | cons i π => exact .inr ⟨i :: π, s, rfl, List.cons_ne_nil i π, hs, hid, (Except.ok.inj h).symm⟩

/-! ### The units below `IamRoot` -/

/-- The units that are reached from `IamRoot` by one link or more. -/
def units (g : NodeGraph) : List NodeUnit := g.children.flatMap values

theorem values_eq_units (g : NodeGraph) : g.values = g.value :: units g := by
  cases g with
  | node u cs => rw [values_node, value_node, units, children_node]

theorem mem_units : u ∈ units g ↔ ∃ i π, g.get? (i :: π) = some u := by
  simp only [units, List.mem_flatMap, mem_values, get?_cons_eq_some]
  constructor
  · rintro ⟨c, hc, π, hπ⟩
    obtain ⟨i, hi⟩ := List.mem_iff_getElem?.mp hc
    exact ⟨i, π, c, hi, hπ⟩
  · rintro ⟨i, π, c, hi, hπ⟩
    exact ⟨c, List.mem_of_getElem? hi, π, hπ⟩

theorem value_push (g c : NodeGraph) (π : Path) : (g.push c π).value = g.value :=
  value_onChildren _ g π

theorem value_erase (g : NodeGraph) (π : Path) : (g.erase π).value = g.value := by
  unfold erase
  split
  · rfl
  · exact value_onChildren _ g _

theorem units_push {s : NodeGraph} (hs : g.sub π = some s) (u : NodeUnit) :
    (units (g.push (.node u []) π)).Perm (u :: units g) := by
  have hp := values_push hs (.node u [])
  rw [values_eq_units, values_eq_units g, value_push, values_node, List.flatMap_nil] at hp
  exact (hp.trans (List.Perm.swap _ _ _)).cons_inv

theorem units_erase {s : NodeGraph} (hs : g.sub π = some s) (hπ : π ≠ []) :
    (s.values ++ units (g.erase π)).Perm (units g) := by
  have hp := values_erase hs hπ
  rw [values_eq_units g, values_eq_units (g.erase π), value_erase] at hp
  exact (List.perm_middle.symm.trans hp).cons_inv

/-! ### Levels -/

/-- The level of a unit is its depth. -/
structure Levelled (g : NodeGraph) : Prop where
  lvl : ∀ π u, g.get? π = some u → u.lvl = π.length - 1
  depth : ∀ π u, g.get? π = some u → π.length ≤ maxLvl + 1

theorem clampLvl_le (lvl : ℤ) : clampLvl lvl ≤ maxLvl := Nat.min_le_right _ _

theorem Levelled.onGraph (hg : Levelled g) {e : Entry} (h : e.onGraph g = .ok g') :
    Levelled g' := by
  cases e with
  | connect lvl e =>
    obtain ⟨π, s, hs, rfl, hlvl, -⟩ := connectUnit_cases h
    have hs' := hg.lvl π _ (get?_of_sub hs)
    have hle := clampLvl_le lvl
    constructor
    · intro ρ u hu
      rw [get?_push_leaf hs] at hu
      split_ifs at hu with hρ
      · obtain rfl := Option.some.inj hu
        rw [hρ, List.length_append, List.length_singleton]
        push_cast
        omega
      · exact hg.lvl ρ u hu
    · intro ρ u hu
      rw [get?_push_leaf hs] at hu
      split_ifs at hu with hρ
      · rw [hρ, List.length_append, List.length_singleton]
        omega
      · exact hg.depth ρ u hu
  | disconnect lvl e =>
    rcases disconnectUnit_cases h with ⟨-, rfl⟩ | ⟨π, s, -, -, -, -, rfl⟩
    · exact hg
    · constructor
      · intro ρ u hu
        obtain ⟨ρ', hρ', hl⟩ := exists_get?_of_erase hu
        rw [hg.lvl ρ' u hρ', hl]
      · intro ρ u hu
        obtain ⟨ρ', hρ', hl⟩ := exists_get?_of_erase hu
        rw [← hl]
        exact hg.depth ρ' u hρ'

theorem levelled_create (myId : PeerId) : Levelled (createRoomMap myId).iamRoot := by
  have hroot (π : Path) (u : NodeUnit) (hu : (createRoomMap myId).iamRoot.get? π = some u) :
      π = [] ∧ u = ⟨-1, myId⟩ := by
    cases π with
    | nil => exact ⟨rfl, (Option.some.inj hu).symm⟩
    | cons i π =>
      obtain ⟨c, hc, -⟩ := get?_cons_eq_some.mp hu
      cases hc
  constructor
  · intro π u hu
    obtain ⟨rfl, rfl⟩ := hroot π u hu
    rfl
  · intro π u hu
    obtain ⟨rfl, rfl⟩ := hroot π u hu
    exact Nat.zero_le _

/-! ### Children with the same id -/

/-- Of the children with one id only the first has children, and those with the id of the node have
none. -/
structure OrderlyAt (myId : PeerId) (cs : List NodeGraph) : Prop where
  first : cs.Pairwise fun c d => c.value.id = d.value.id → d.children = []
  own : ∀ c ∈ cs, c.value.id = myId → c.children = []

/-- `findInGraphByChain` takes the first child with an id, and passes over the id of the node. -/
def Orderly (myId : PeerId) (g : NodeGraph) : Prop :=
  ∀ π s, g.sub π = some s → OrderlyAt myId s.children

theorem orderly_iff : Orderly myId t ↔
    OrderlyAt myId t.children ∧ ∀ c ∈ t.children, Orderly myId c := by
  constructor
  · refine fun ht => ⟨ht [] t (sub_nil t), fun c hc π s hs => ?_⟩
    obtain ⟨i, hi⟩ := List.mem_iff_getElem?.mp hc
    exact ht (i :: π) s (sub_cons_eq_some.mpr ⟨c, hi, hs⟩)
  · rintro ⟨hat, hbelow⟩ (_ | ⟨i, π⟩) s hs
    · rw [sub_nil] at hs
      obtain rfl := Option.some.inj hs
      exact hat
    · obtain ⟨c, hc, hs⟩ := sub_cons_eq_some.mp hs
      exact hbelow c (List.mem_of_getElem? hc) π s hs

theorem orderly_leaf (myId : PeerId) (u : NodeUnit) : Orderly myId (.node u []) :=
  orderly_iff.mpr ⟨⟨.nil, fun _ hc => absurd hc List.not_mem_nil⟩,
    fun _ hc => absurd hc List.not_mem_nil⟩

/-- Of two children with one id the second has no children. -/
theorem pairwise_first_iff {cs : List NodeGraph} :
    cs.Pairwise (fun c d : NodeGraph => c.value.id = d.value.id → d.children = []) ↔
      ∀ (i j : ℕ) (c d : NodeGraph), i < j → cs[i]? = some c → cs[j]? = some d → c.value.id = d.value.id →
        d.children = [] := by
  rw [List.pairwise_iff_getElem]
  constructor
  · intro h i j c d hij hc hd
    obtain ⟨hi, rfl⟩ := List.getElem?_eq_some_iff.mp hc
    obtain ⟨hj, rfl⟩ := List.getElem?_eq_some_iff.mp hd
    exact h i j hi hj hij
  · intro h i j hi hj hij
    exact h i j _ _ hij (List.getElem?_eq_getElem hi) (List.getElem?_eq_getElem hj)

/-- A child changes below its value, and gets children only if it is the first with its id. -/
theorem OrderlyAt.modify {cs : List NodeGraph} (hcs : OrderlyAt myId cs) {i : ℕ}
    {f : NodeGraph → NodeGraph} (hvalue : ∀ c, (f c).value = c.value)
    (hf : ∀ c, cs[i]? = some c → (c.children = [] → (f c).children = []) ∨
      c.value.id ≠ myId ∧ ∀ j < i, ∀ d, cs[j]? = some d → d.value.id ≠ c.value.id) :
    OrderlyAt myId (cs.modify i f) := by
  have hmodify {j : ℕ} {d : NodeGraph} (h : (cs.modify i f)[j]? = some d) :
      ∃ c, cs[j]? = some c ∧ d.value = c.value ∧ (i = j ∧ d = f c ∨ i ≠ j ∧ d = c) := by
    obtain ⟨c, hc, ⟨hij, rfl⟩ | ⟨hij, rfl⟩⟩ := getElem?_modify_eq_some h
    · exact ⟨c, hc, hvalue c, .inl ⟨hij, rfl⟩⟩
    · exact ⟨d, hc, rfl, .inr ⟨hij, rfl⟩⟩
  constructor
  · refine pairwise_first_iff.mpr fun j k c' d' hjk hc' hd' hid => ?_
    obtain ⟨c, hc, hcv, -⟩ := hmodify hc'
    obtain ⟨d, hd, hdv, hcase⟩ := hmodify hd'
    rw [hcv, hdv] at hid
    have hnone := pairwise_first_iff.mp hcs.first j k c d hjk hc hd hid
    rcases hcase with ⟨rfl, rfl⟩ | ⟨-, rfl⟩
    · rcases hf d hd with hf | ⟨-, hfirst⟩
      · exact hf hnone
      · exact absurd hid (hfirst j hjk c hc)
    · exact hnone
  · intro d' hd' hown
    obtain ⟨j, hj⟩ := List.mem_iff_getElem?.mp hd'
    obtain ⟨d, hd, hdv, hcase⟩ := hmodify hj
    rw [hdv] at hown
    have hnone := hcs.own d (List.mem_of_getElem? hd) hown
    rcases hcase with ⟨rfl, rfl⟩ | ⟨-, rfl⟩
    · rcases hf d hd with hf | ⟨hne, -⟩
      · exact hf hnone
      · exact absurd hown hne
    · exact hnone

theorem children_erase_of_childless (ht : t.children = []) (π : Path) :
    (t.erase π).children = [] := by
  rcases π with _ | ⟨i, _ | ⟨j, π⟩⟩
  · exact ht
  · rw [erase_singleton, children_node, ht]
    rfl
  · rw [erase_cons_cons, children_node, ht, List.modify_nil]

theorem Orderly.erase (ht : Orderly myId t) (π : Path) : Orderly myId (t.erase π) := by
  induction π generalizing t with
  | nil => exact ht
  | cons i π ih =>
    obtain ⟨hat, hbelow⟩ := orderly_iff.mp ht
    cases π with
    | nil =>
      rw [erase_singleton]
      refine orderly_iff.mpr ⟨⟨hat.first.sublist (List.eraseIdx_sublist _ i), ?_⟩, ?_⟩
      · exact fun c hc => hat.own c (List.mem_of_mem_eraseIdx hc)
      · exact fun c hc => hbelow c (List.mem_of_mem_eraseIdx hc)
    | cons j π =>
      rw [erase_cons_cons]
      refine orderly_iff.mpr ⟨hat.modify (fun c => value_erase c _) fun c hc => .inl ?_, ?_⟩
      · exact fun hnone => children_erase_of_childless hnone _
      · intro c hc
        obtain ⟨k, hk⟩ := List.mem_iff_getElem?.mp hc
        obtain ⟨d, hd, ⟨-, rfl⟩ | ⟨-, rfl⟩⟩ := getElem?_modify_eq_some hk
        · exact ih (hbelow d (List.mem_of_getElem? hd))
        · exact hbelow c (List.mem_of_getElem? hd)

/-- A new leaf under the unit a chain leads to. -/
theorem Orderly.push (ht : Orderly myId t) (h : followChain myId t ids = some π) (u : NodeUnit) :
    Orderly myId (t.push (.node u []) π) := by
  induction ids generalizing t π with
  | nil =>
    obtain rfl := Option.some.inj h
    obtain ⟨hat, hbelow⟩ := orderly_iff.mp ht
    rw [RoseTree.push, onChildren_nil]
    refine orderly_iff.mpr ⟨⟨?_, fun c hc hown => ?_⟩, fun c hc => ?_⟩
    · refine List.pairwise_append.mpr ⟨hat.first, List.pairwise_singleton _ _, ?_⟩
      intro c _ d hd _
      rw [List.mem_singleton.mp hd, children_node]
    · rcases List.mem_append.mp hc with hc | hc
      · exact hat.own c hc hown
      · rw [List.mem_singleton.mp hc, children_node]
    · rcases List.mem_append.mp hc with hc | hc
      · exact hbelow c hc
      · rw [List.mem_singleton.mp hc]
        exact orderly_leaf myId u
  | cons x ids ih =>
    by_cases hx : myId = x
    · rw [followChain, if_pos hx] at h
      exact ih ht h
    · obtain ⟨i, c, ρ, hi, hc, hρ, rfl⟩ := (followChain_cons_eq_some hx).mp h
      obtain ⟨hat, hbelow⟩ := orderly_iff.mp ht
      rw [RoseTree.push, onChildren_cons]
      refine orderly_iff.mpr ⟨hat.modify (fun c => value_push c _ _) fun d hd => .inr ?_, ?_⟩
      · obtain ⟨hlt, hfound, hfirst⟩ := List.findIdx?_eq_some_iff_getElem.mp hi
        obtain ⟨_, rfl⟩ := List.getElem?_eq_some_iff.mp hd
        have hfound := of_decide_eq_true hfound
        refine ⟨fun hown => hx (hown.symm.trans hfound), fun j hj e he hsame => ?_⟩
        obtain ⟨_, rfl⟩ := List.getElem?_eq_some_iff.mp he
        exact hfirst j hj (decide_eq_true (hsame.trans hfound))
      · intro d hd
        obtain ⟨k, hk⟩ := List.mem_iff_getElem?.mp hd
        obtain ⟨e, he, ⟨rfl, rfl⟩ | ⟨-, rfl⟩⟩ := getElem?_modify_eq_some hk
        · obtain rfl := Option.some.inj (hc.symm.trans he)
          exact ih (hbelow c (List.mem_of_getElem? hc)) hρ
        · exact hbelow d (List.mem_of_getElem? he)

theorem Orderly.onGraph (hg : Orderly g.value.id g) {e : Entry} (h : e.onGraph g = .ok g') :
    g'.value = g.value ∧ Orderly g'.value.id g' := by
  cases e with
  | connect lvl e =>
    obtain ⟨π, s, -, rfl, -, -, hπ⟩ := connectUnit_cases h
    rw [value_push]
    refine ⟨rfl, ?_⟩
    rcases hπ with ⟨-, rfl⟩ | hπ
    · have hroot : followChain g.value.id g [] = some [] := rfl
      exact hg.push hroot _
    · exact hg.push hπ _
  | disconnect lvl e =>
    rcases disconnectUnit_cases h with ⟨-, rfl⟩ | ⟨π, s, -, -, -, -, rfl⟩
    · exact ⟨rfl, hg⟩
    · rw [value_erase]
      exact ⟨rfl, hg.erase π⟩

theorem orderly_create (myId : PeerId) : Orderly myId (createRoomMap myId).iamRoot :=
  orderly_leaf myId ⟨-1, myId⟩

end Yamb
