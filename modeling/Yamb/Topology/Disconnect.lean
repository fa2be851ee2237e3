import Yamb.Topology.Built

/-!
# A report of a lost link

A neighbour `S` reports that it has lost `X`. The search for `X` goes to any depth, and when it fails
another one looks for `X` elsewhere.

* `RoomMap.onLinkLost`: the report, made into a difference and applied;
* `cutLink`, `OnlyChild`: the graph without the link, and when it is the graph without one unit
  (`OnlyChild.erase_eq_cutLink`, `exists_of_erase_eq_cutLink`);
* `findInChilds_one`: the search past one unit;
* `CutsLink`, **`run_onLinkLost_iff`**: a report cuts the link, and nothing else, exactly when the
  first search finds it, or the second one meets childless neighbours with other ids only.
-/

set_option autoImplicit false

namespace Yamb

open RoseTree

abbrev GraphStep (RU : RoomMap) (diff : NodesMapDiff) (RU' : RoomMap) : Prop :=
  RU.onNodesMapDiff diff = .ok RU'

/-- `{Id: X, ParentIds: [S]}` is reported, under any key. -/
def RoomMap.onLinkLost (RU : RoomMap) (key : ℤ) (X S : PeerId) : Except GraphFault RoomMap := do
  let diff ← createDiffDisconnectedBylvls .empty RU [(key, [⟨X, [S]⟩])]
  RU.onNodesMapDiff diff

/-- A unit without its children of one id. -/
def cutChild (X : PeerId) (c : NodeGraph) : NodeGraph :=
  .node c.value (c.children.filter fun d => d.value.id ≠ X)

/-- The graph without the units `X` that are children of a neighbour `S`. -/
def cutLink (g : NodeGraph) (S X : PeerId) : NodeGraph :=
  .node g.value (g.children.map fun c => if c.value.id = S then cutChild X c else c)

/-- A neighbour `S` has a child `X`. -/
def HasLink (g : NodeGraph) (S X : PeerId) : Prop :=
  ∃ c ∈ g.children, c.value.id = S ∧ ∃ d ∈ c.children, d.value.id = X

/-- The one child `X` is at `j`. -/
structure OnlyChild (c : NodeGraph) (X : PeerId) (j : ℕ) : Prop where
  exists_child : ∃ d, c.children[j]? = some d ∧ d.value.id = X
  unique : ∀ k d, c.children[k]? = some d → d.value.id = X → k = j

/-- The neighbours have no children and other ids, except for `S`. -/
def PassedOver (S X : PeerId) (cs : List NodeGraph) : Prop :=
  ∀ c ∈ cs, c.value.id ≠ S → c.value.id ≠ X ∧ c.children = []

/-- The searches lead to the one unit that is to be cut off, or nowhere where there is none. -/
inductive CutsLink (g : NodeGraph) (S X : PeerId) : Prop
  | own (hX : X = g.value.id) (hno : ¬ HasLink g S X)
  | found (hX : X ≠ g.value.id) {i j : ℕ} {c : NodeGraph} (hi : findInGraph g S = some [i])
      (hc : g.children[i]? = some c) (hj : findInGraph c X = some [j]) (honly : OnlyChild c X j)
  | unknown (hX : X ≠ g.value.id) (hnone : findInGraphWithParents g [S] X = none)
      (hno : ¬ HasLink g S X)
      (hpast : PassedOver S X g.children)

variable {g s c : NodeGraph} {π : Path} {S X myId : PeerId} {j : ℕ} {cs : List NodeGraph}

/-! ### The graph without the link -/

theorem cutChild_of_forall (h : ∀ d ∈ c.children, d.value.id ≠ X) : cutChild X c = c := by
  rw [cutChild, List.filter_eq_self.mpr fun d hd => decide_eq_true (h d hd), node_value_children]

theorem getElem?_cutLink (g : NodeGraph) (S X : PeerId) (i : ℕ) : (cutLink g S X).children[i]? =
    g.children[i]?.map fun c => if c.value.id = S then cutChild X c else c := by
  rw [cutLink, children_node, List.getElem?_map]

/-- A link of the cut graph would be a child that was filtered out. -/
theorem not_mem_of_cutLink {i : ℕ} (hc : (cutLink g S X).children[i]? = some c)
    (hS : c.value.id = S) : ∀ d ∈ c.children, d.value.id ≠ X := by
  rw [getElem?_cutLink] at hc
  obtain ⟨c', -, rfl⟩ := Option.map_eq_some_iff.mp hc
  intro d hd
  by_cases hS' : c'.value.id = S
  · rw [if_pos hS'] at hd
    exact of_decide_eq_true (List.mem_filter.mp hd).2
  · rw [if_neg hS'] at hS
    exact absurd hS hS'

theorem cutLink_eq_self_iff : cutLink g S X = g ↔ ¬ HasLink g S X := by
  constructor
  · rintro h ⟨c, hc, hS, d, hd, hX⟩
    obtain ⟨i, hi⟩ := List.mem_iff_getElem?.mp hc
    rw [← h] at hi
    exact not_mem_of_cutLink hi hS d hd hX
  · intro h
    rw [cutLink, List.map_congr_left (g := id), List.map_id, node_value_children]
    intro c hc
    by_cases hS : c.value.id = S
    · rw [if_pos hS]
      exact cutChild_of_forall fun d hd hX => h ⟨c, hc, hS, d, hd, hX⟩
    · rw [if_neg hS, id]

theorem filter_eq_eraseIdx {α : Type} {l : List α} {p : α → Bool} {j : ℕ}
    (h : ∀ k d, l[k]? = some d → (p d = false ↔ k = j)) : l.filter p = l.eraseIdx j := by
  induction l generalizing j with
  | nil => rfl
  | cons a l ih =>
    have ha := h 0 a rfl
    cases j with
    | zero =>
      rw [List.filter_cons_of_neg (by simp [ha.mpr rfl]), List.eraseIdx_cons_zero]
      refine List.filter_eq_self.mpr fun d hd => ?_
      obtain ⟨k, hk⟩ := List.mem_iff_getElem?.mp hd
      by_contra hp
      have := (h (k + 1) d hk).mp (Bool.not_eq_true _ ▸ hp)
      omega
    | succ j =>
      have hp : p a = true := by
        by_contra hp
        have := ha.mp (Bool.not_eq_true _ ▸ hp)
        omega
      rw [List.filter_cons_of_pos hp, List.eraseIdx_cons_succ, ih]
      intro k d hk
      rw [h (k + 1) d hk]
      omega

theorem OnlyChild.erase (h : OnlyChild c X j) : c.erase [j] = cutChild X c := by
  rw [erase_singleton, cutChild, filter_eq_eraseIdx]
  intro k d hk
  simp only [ne_eq, decide_not, Bool.not_eq_false', decide_eq_true_eq]
  constructor
  · exact h.unique k d hk
  · rintro rfl
    obtain ⟨d', hd', hX⟩ := h.exists_child
    obtain rfl := Option.some.inj (hk.symm.trans hd')
    exact hX

/-- Of the neighbours `S`, only one has children. -/
theorem eq_of_orderly (hg : Orderly myId g) {i k : ℕ} {d : NodeGraph} (hc : g.children[i]? = some c)
    (hne : c.children ≠ []) (hd : g.children[k]? = some d) (hid : d.value.id = c.value.id)
    (hik : k ≠ i) : d.children = [] := by
  have hfirst := pairwise_first_iff.mp (orderly_iff.mp hg).1.first
  rcases Nat.lt_or_gt_of_ne hik with hlt | hgt
  · exact absurd (hfirst k i d c hlt hd hc hid) hne
  · exact hfirst i k c d hgt hc hd hid.symm

theorem OnlyChild.children_ne_nil (h : OnlyChild c X j) : c.children ≠ [] := by
  obtain ⟨d, hd, -⟩ := h.exists_child
  rintro heq
  rw [heq] at hd
  cases hd

theorem OnlyChild.erase_eq_cutLink (hg : Orderly myId g) {i : ℕ} (hc : g.children[i]? = some c)
    (hS : c.value.id = S) (h : OnlyChild c X j) : g.erase [i, j] = cutLink g S X := by
  rw [erase_cons_cons, cutLink]
  congr 1
  refine List.ext_getElem? fun k => ?_
  rw [List.getElem?_modify, List.getElem?_map]
  cases hd : g.children[k]? with
  | none => rfl
  | some d =>
    simp only [Option.map_eq_map, Option.map_some, Option.some.injEq]
    by_cases hik : i = k
    · subst hik
      obtain rfl := Option.some.inj (hc.symm.trans hd)
      rw [if_pos rfl, if_pos hS, h.erase]
    · rw [if_neg hik]
      by_cases hd' : d.value.id = S
      · rw [if_pos hd', cutChild_of_forall]
        rw [eq_of_orderly hg hc h.children_ne_nil hd (hd'.trans hS.symm) (Ne.symm hik)]
        exact fun _ hno => absurd hno List.not_mem_nil
      · rw [if_neg hd']

theorem erase_ne_self (hs : g.sub π = some s) (hπ : π ≠ []) : g.erase π ≠ g := by
  intro h
  have hlen := (values_erase hs hπ).length_eq
  rw [h, values_eq_units s, List.length_append, List.length_cons] at hlen
  omega

theorem not_mem_cutChild : ∀ d ∈ (cutChild X c).children, d.value.id ≠ X := fun _ hd =>
  of_decide_eq_true (List.mem_filter.mp hd).2

theorem onlyChild_of_erase (h : c.erase [j] = cutChild X c)
    (hX : ∃ d ∈ c.children, d.value.id = X) : OnlyChild c X j := by
  have hunique : ∀ k d, c.children[k]? = some d → d.value.id = X → k = j := by
    intro k d hd hX
    by_contra hk
    refine not_mem_cutChild (c := c) d ?_ hX
    rw [← h, erase_singleton, children_node]
    exact List.mem_eraseIdx_iff_getElem?.mpr ⟨k, hk, hd⟩
  obtain ⟨d, hd, hX⟩ := hX
  obtain ⟨k, hk⟩ := List.mem_iff_getElem?.mp hd
  obtain rfl := hunique k d hk hX
  exact ⟨⟨d, hk, hX⟩, hunique⟩

/-- Below a child that lost something deeper, the ids are the same. -/
theorem exists_child_erase_cons_cons {i k : ℕ} {τ : Path} {d : NodeGraph} (hd : d ∈ c.children) :
    ∃ d' ∈ (c.erase (i :: k :: τ)).children, d'.value = d.value := by
  obtain ⟨m, hm⟩ := List.mem_iff_getElem?.mp hd
  rw [erase_cons_cons, children_node]
  refine ⟨if i = m then d.erase (k :: τ) else d, List.mem_iff_getElem?.mpr ⟨m, ?_⟩, ?_⟩
  · rw [List.getElem?_modify, hm]
    rfl
  · split_ifs
    · rw [value_erase]
    · rfl

/-- Cutting off one unit cuts the link only if the unit is the child of the neighbour. -/
theorem exists_of_erase_eq_cutLink (hs : g.sub π = some s) (hπ : π ≠ [])
    (h : g.erase π = cutLink g S X) : ∃ i j c, π = [i, j] ∧ g.children[i]? = some c ∧
      c.value.id = S ∧ OnlyChild c X j := by
  have hlink : HasLink g S X := by
    by_contra hno
    rw [cutLink_eq_self_iff.mpr hno] at h
    exact erase_ne_self hs hπ h
  obtain ⟨c, hc, hS, d, hd, hX⟩ := hlink
  obtain ⟨i, hi⟩ := List.mem_iff_getElem?.mp hc
  have hcut : (g.erase π).children[i]? = some (cutChild X c) := by
    rw [h, getElem?_cutLink, hi, Option.map_some, if_pos hS]
  rcases π with _ | ⟨m, _ | ⟨k, τ⟩⟩
  · exact absurd rfl hπ
  · -- a neighbour less
    have hlen := congrArg (fun t : NodeGraph => t.children.length) h
    simp only [erase_singleton, cutLink, children_node, List.length_map] at hlen
    obtain ⟨u, hu, -⟩ := sub_cons_eq_some.mp hs
    obtain ⟨hm, -⟩ := List.getElem?_eq_some_iff.mp hu
    rw [List.length_eraseIdx_of_lt hm] at hlen
    omega
  · rw [erase_cons_cons, children_node, List.getElem?_modify, hi] at hcut
    have hcut : (if m = i then c.erase (k :: τ) else c) = cutChild X c := Option.some.inj hcut
    by_cases hmi : m = i
    · subst hmi
      rw [if_pos rfl] at hcut
      cases τ with
      | nil => exact ⟨m, k, c, rfl, hi, hS, onlyChild_of_erase hcut ⟨d, hd, hX⟩⟩
      | cons n τ =>
        obtain ⟨d', hd', hv⟩ := exists_child_erase_cons_cons (i := k) (k := n) (τ := τ) hd
        rw [hcut] at hd'
        exact absurd (hv ▸ hX) (not_mem_cutChild d' hd')
    · rw [if_neg hmi] at hcut
      exact absurd hX (not_mem_cutChild d (hcut ▸ hd))

/-! ### The search past one unit -/

/-- Below a neighbour the position has wrapped. -/
theorem findInGraphWithoutParentsInternal_wrapped (S X : PeerId) (c : NodeGraph) :
    c.value.id = X ∧
        findInGraphWithoutParentsInternal [S] X c (sizePred 0) = .ok (some []) ∨
      c.value.id ≠ X ∧ c.children = [] ∧
        findInGraphWithoutParentsInternal [S] X c (sizePred 0) = .ok none ∨
      c.value.id ≠ X ∧ c.children ≠ [] ∧
        findInGraphWithoutParentsInternal [S] X c (sizePred 0) = .error .outOfBounds := by
  obtain ⟨u, ds⟩ := c
  rw [findInGraphWithoutParentsInternal]
  by_cases hX : u.id = X
  · rw [if_pos hX]
    exact .inl ⟨hX, rfl⟩
  · rw [if_neg hX]
    cases ds with
    | nil => exact .inr (.inl ⟨hX, rfl, rfl⟩)
    | cons d ds => exact .inr (.inr ⟨hX, List.cons_ne_nil d ds, rfl⟩)

theorem findInChilds_cons_of_eq {c : NodeGraph} (hS : c.value.id = S) :
    findInChilds [S] X (c :: cs) 0 =
      (findInChilds [S] X cs 0).map (Option.map (List.modifyHead (· + 1))) := by
  rw [findInChilds]
  simp only [List.getElem?_cons_zero, hS, if_true]

theorem findInChilds_cons_of_ne {c : NodeGraph} (hS : c.value.id ≠ S) :
    findInChilds [S] X (c :: cs) 0 =
      match findInGraphWithoutParentsInternal [S] X c (sizePred 0) with
      | .error f => .error f
      | .ok (some π) => .ok (some (0 :: π))
      | .ok none => (findInChilds [S] X cs 0).map (Option.map (List.modifyHead (· + 1))) := by
  rw [findInChilds]
  simp only [List.getElem?_cons_zero, hS, if_false]
  rfl

/-- The loop over the neighbours: those with the id `S` are passed over, any other one is looked at
first, and its children would be compared with what is not in `ParentIds`. -/
theorem findInChilds_one (S X : PeerId) (cs : List NodeGraph) :
    findInChilds [S] X cs 0 = .ok none ∧ PassedOver S X cs ∨
    (∃ F, findInChilds [S] X cs 0 = .error F) ∧ ¬ PassedOver S X cs ∨
    ∃ k c, findInChilds [S] X cs 0 = .ok (some [k]) ∧ cs[k]? = some c ∧ c.value.id = X ∧
      c.value.id ≠ S ∧ PassedOver S X (cs.take k) := by
  induction cs with
  | nil => exact .inl ⟨rfl, fun c hc => absurd hc List.not_mem_nil⟩
  | cons c cs ih =>
    have hrest (heq : findInChilds [S] X (c :: cs) 0 =
        (findInChilds [S] X cs 0).map (Option.map (List.modifyHead (· + 1))))
        (hc : c.value.id ≠ S → c.value.id ≠ X ∧ c.children = []) :
        findInChilds [S] X (c :: cs) 0 = .ok none ∧ PassedOver S X (c :: cs) ∨
        (∃ F, findInChilds [S] X (c :: cs) 0 = .error F) ∧ ¬ PassedOver S X (c :: cs) ∨
        ∃ k d, findInChilds [S] X (c :: cs) 0 = .ok (some [k]) ∧ (c :: cs)[k]? = some d ∧
          d.value.id = X ∧ d.value.id ≠ S ∧ PassedOver S X ((c :: cs).take k) := by
      rw [heq]
      rcases ih with ⟨hnone, hpast⟩ | ⟨⟨F, herr⟩, hpast⟩ | ⟨k, d, hsome, hd, hX, hS, hpast⟩
      · rw [hnone]
        exact .inl ⟨rfl, List.forall_mem_cons.mpr ⟨hc, hpast⟩⟩
      · rw [herr]
        exact .inr (.inl ⟨⟨F, rfl⟩, fun hall => hpast (List.forall_mem_cons.mp hall).2⟩)
      · rw [hsome]
        exact .inr (.inr ⟨k + 1, d, rfl, hd, hX, hS, List.forall_mem_cons.mpr ⟨hc, hpast⟩⟩)
    by_cases hS : c.value.id = S
    · exact hrest (findInChilds_cons_of_eq hS) fun hne => absurd hS hne
    · have heq : findInChilds [S] X (c :: cs) 0 = _ := findInChilds_cons_of_ne hS
      rcases findInGraphWithoutParentsInternal_wrapped S X c with
        ⟨hX, hfound⟩ | ⟨hX, hleaf, hfound⟩ | ⟨hX, hne, hfound⟩
      · rw [hfound] at heq
        exact .inr (.inr ⟨0, c, heq, rfl, hX, hS, fun d hd => absurd hd List.not_mem_nil⟩)
      · rw [hfound] at heq
        exact hrest heq fun _ => ⟨hX, hleaf⟩
      · rw [hfound] at heq
        refine .inr (.inl ⟨⟨.outOfBounds, heq⟩, fun hall => ?_⟩)
        exact hne (hall c List.mem_cons_self hS).2

/-! ### The report -/

/-- The id of `IamRoot` at the end of `ParentIds` leads nowhere else. -/
theorem findInGraphWithParents_append_own (g : NodeGraph) (ids : List PeerId) (X : PeerId) :
    findInGraphWithParents g (ids ++ [g.value.id]) X = findInGraphWithParents g ids X := by
  have hroot : findInGraph g g.value.id = some [] :=
    findInGraph_eq_some.mpr ⟨⟨g.value, get?_nil g, rfl⟩, fun ρ _ _ _ => not_precedes_nil ρ⟩
  rw [findInGraphWithParents, findInGraphWithParents, List.reverse_append, List.reverse_singleton,
    List.singleton_append, List.cons_append, findInTurn, hroot]
  simp only [Option.bind_eq_bind, Option.bind_some, sub_nil, List.nil_append, Option.pure_def,
    Option.bind_fun_some]

variable {RU RU' : RoomMap} {key : ℤ} {ds : List NodesMapDiff}

theorem createDiffDisconnectedBylvls_singleton (RU : RoomMap) (key : ℤ) (u : NodesMapDiffUnit) :
    createDiffDisconnectedBylvls .empty RU [(key, [u])] =
      diffDisconnected RU.iamRoot (clampLvl (key + 1)) .empty u := by
  simp only [createDiffDisconnectedBylvls, List.foldlM_cons, List.foldlM_nil, bind_pure]

/-- One disconnected unit. -/
theorem onNodesMapDiff_disconnect (RU : RoomMap) (lvl : ℤ) (u : NodesMapDiffUnit)
    (hf : findInGraphWithParents RU.iamRoot u.parentIds u.id = some π) (hπ : π ≠ []) :
    ∃ RU', RU.onNodesMapDiff (NodesMapDiff.empty.disconnect lvl u) = .ok RU' ∧
      RU'.iamRoot = RU.iamRoot.erase π := by
  have hentries : (NodesMapDiff.empty.disconnect lvl u).entries.foldlM Entry.onGraph RU.iamRoot =
      disconnectUnit RU.iamRoot u := bind_pure _
  rw [RoomMap.onNodesMapDiff_eq, hentries, disconnectUnit, hf]
  cases π with
  | nil => exact absurd rfl hπ
  | cons i π => exact ⟨_, rfl, rfl⟩

theorem onLinkLost_eq (RU : RoomMap) (key : ℤ) (X S : PeerId) : RU.onLinkLost key X S =
    (diffDisconnected RU.iamRoot (clampLvl (key + 1)) .empty ⟨X, [S]⟩).bind RU.onNodesMapDiff := by
  rw [RoomMap.onLinkLost, createDiffDisconnectedBylvls_singleton]
  rfl

/-- **What a report does**: nothing, an access out of bounds, or the unit that one of the searches
finds is cut off. -/
theorem onLinkLost_cases (RU : RoomMap) (key : ℤ) (X S : PeerId) :
    RU.onLinkLost key X S = .ok RU ∧ (X = RU.iamRoot.value.id ∨
        findInGraphWithParents RU.iamRoot [S] X = none ∧ PassedOver S X RU.iamRoot.children) ∨
    (∃ F, RU.onLinkLost key X S = .error F) ∧ X ≠ RU.iamRoot.value.id ∧
        findInGraphWithParents RU.iamRoot [S] X = none ∧ ¬ PassedOver S X RU.iamRoot.children ∨
    ∃ RU' π s, RU.onLinkLost key X S = .ok RU' ∧ X ≠ RU.iamRoot.value.id ∧
      RU.iamRoot.sub π = some s ∧ π ≠ [] ∧ RU'.iamRoot = RU.iamRoot.erase π ∧
      (findInGraphWithParents RU.iamRoot [S] X = some π ∨
        findInGraphWithParents RU.iamRoot [S] X = none ∧ findInGraph RU.iamRoot X = some π ∧
          ∃ k c, RU.iamRoot.children[k]? = some c ∧ c.value.id = X ∧ c.value.id ≠ S ∧
            PassedOver S X (RU.iamRoot.children.take k)) := by
  rw [onLinkLost_eq]
  unfold diffDisconnected
  by_cases hX : X = RU.iamRoot.value.id
  · rw [if_pos hX]
    exact .inl ⟨rfl, .inl hX⟩
  · rw [if_neg hX]
    have hne {π : Path} {s : NodeGraph} (hs : RU.iamRoot.sub π = some s) (hid : s.value.id = X) :
        π ≠ [] := by
      rintro rfl
      rw [sub_nil] at hs
      obtain rfl := Option.some.inj hs
      exact hX hid.symm
    cases hf : findInGraphWithParents RU.iamRoot [S] X with
    | some π =>
      obtain ⟨s, hs, hid⟩ := findInTurn_append_singleton hf
      obtain ⟨RU', hok, hg⟩ := onNodesMapDiff_disconnect RU
        (resultLvl (clampLvl (key + 1)) (lvlAt RU.iamRoot π)) ⟨X, [S] ++ [RU.iamRoot.value.id]⟩
        ((findInGraphWithParents_append_own _ _ _).trans hf) (hne hs hid)
      exact .inr (.inr ⟨RU', π, s, hok, hX, hs, hne hs hid, hg, .inl rfl⟩)
    | none =>
      have hwithout : findInGraphWithoutParents RU.iamRoot [S] X =
          findInChilds [S] X RU.iamRoot.children 0 := by
        rw [findInGraphWithoutParents, if_pos (List.cons_ne_nil S []),
          ← node_value_children RU.iamRoot, findInGraphWithoutParentsInternal,
          if_neg (Ne.symm hX)]
        rfl
      simp only [hwithout]
      rcases findInChilds_one S X RU.iamRoot.children with
        ⟨hnone, hpast⟩ | ⟨⟨F, herr⟩, hpast⟩ | ⟨k, c, hsome, hc, hid, hS, hpast⟩
      · rw [hnone]
        exact .inl ⟨rfl, .inr ⟨trivial, hpast⟩⟩
      · rw [herr]
        exact .inr (.inl ⟨⟨F, rfl⟩, hX, trivial, hpast⟩)
      · have hk : RU.iamRoot.get? [k] = some c.value :=
          get?_cons_eq_some.mpr ⟨c, hc, get?_nil c⟩
        obtain ⟨π, hπ⟩ := exists_find? (p := fun u => u.id = X) hk (decide_eq_true hid)
        obtain ⟨s, hs, hid'⟩ := exists_sub_of_findInGraph hπ
        have hown : findInGraphWithParents RU.iamRoot [RU.iamRoot.value.id] X = some π :=
          (findInGraphWithParents_append_own _ [] X).trans
            (findInTurn_cons_eq_some.mpr ⟨π, s, [], hπ, hs, rfl, (List.append_nil π).symm⟩)
        have hchain : fillChain RU.iamRoot [k] = some [RU.iamRoot.value.id] := by
          simp only [fillChain, List.getLast?_singleton, fillChain.parents, hc]
          rfl
        obtain ⟨RU', hok, hg⟩ := onNodesMapDiff_disconnect RU
          (resultLvl (clampLvl (key + 1)) (lvlAt RU.iamRoot [k])) ⟨X, [RU.iamRoot.value.id]⟩ hown
          (hne hs hid')
        refine .inr (.inr ⟨RU', π, s, ?_, hX, hs, hne hs hid', hg,
          .inr ⟨trivial, hπ, k, c, hc, hid, hS, hpast⟩⟩)
        simp only [hsome, bind, Except.bind, hchain]
        exact hok

/-! ### The search that finds the child -/

theorem findInGraphWithParents_of_neighbour {i : ℕ} (hi : findInGraph g S = some [i])
    (hc : g.children[i]? = some c) (hj : findInGraph c X = some [j]) :
    findInGraphWithParents g [S] X = some [i, j] := by
  have hsub : g.sub [i] = some c := (sub_singleton g i).trans hc
  obtain ⟨d, hd, -⟩ := exists_sub_of_findInGraph hj
  exact findInTurn_cons_eq_some.mpr ⟨[i], c, [j], hi, hsub,
    findInTurn_cons_eq_some.mpr ⟨[j], d, [], hj, hd, rfl, rfl⟩, rfl⟩

/-- A neighbour `S` that has children is met before any other unit `S`, `IamRoot` included, except
for what is below a neighbour before it. -/
theorem findInGraph_neighbour (hg : Orderly g.value.id g) {i : ℕ} (hc : g.children[i]? = some c)
    (hS : c.value.id = S) (hne : c.children ≠ []) :
    ∃ σ, findInGraph g S = some σ ∧ (σ = [i] ∨ ∃ m n τ, σ = m :: n :: τ ∧ m < i) := by
  have hget : g.get? [i] = some c.value := get?_cons_eq_some.mpr ⟨c, hc, get?_nil c⟩
  obtain ⟨σ, hσ⟩ := exists_find? (p := fun u => u.id = S) hget (decide_eq_true hS)
  have hσ : findInGraph g S = some σ := hσ
  obtain ⟨⟨u, hu, hid⟩, hfirst⟩ := findInGraph_eq_some.mp hσ
  have hnot := hfirst [i] c.value hget hS
  refine ⟨σ, hσ, ?_⟩
  rcases σ with _ | ⟨m, τ⟩
  · rw [get?_nil] at hu
    obtain rfl := Option.some.inj hu
    exact absurd ((orderly_iff.mp hg).1.own c (List.mem_of_getElem? hc) (hS.trans hid.symm)) hne
  · rw [cons_precedes_cons, not_or, Nat.not_lt, not_and] at hnot
    obtain ⟨hle, htail⟩ := hnot
    rcases Nat.lt_or_eq_of_le hle with hlt | rfl
    · cases τ with
      | nil =>
        obtain ⟨d, hd, hu⟩ := get?_cons_eq_some.mp hu
        rw [get?_nil] at hu
        obtain rfl := Option.some.inj hu
        have hfirst := pairwise_first_iff.mp (orderly_iff.mp hg).1.first
        exact absurd (hfirst m i d c hlt hd hc (hid.trans hS.symm)) hne
      | cons n τ => exact .inr ⟨m, n, τ, rfl, hlt⟩
    · cases τ with
      | nil => exact .inl rfl
      | cons n τ => exact absurd (nil_precedes_cons n τ) (htail rfl)

/-- The first search finds the child only by way of the neighbour. -/
theorem cutsLink_of_found (hg : Orderly g.value.id g) (hX : X ≠ g.value.id) {i : ℕ}
    (hc : g.children[i]? = some c) (hS : c.value.id = S) (h : OnlyChild c X j)
    (hf : findInGraphWithParents g [S] X = some [i, j]) : CutsLink g S X := by
  obtain ⟨σ, s, ρ', hσ, hs, hρ, heq⟩ := findInTurn_cons_eq_some.mp hf
  obtain ⟨ρ, t, ν, hρ', -, hν, rfl⟩ := findInTurn_cons_eq_some.mp hρ
  obtain rfl := Option.some.inj hν
  rw [List.append_nil] at heq
  obtain ⟨σ', hσ', hcase⟩ := findInGraph_neighbour hg hc hS h.children_ne_nil
  obtain rfl := Option.some.inj (hσ.symm.trans hσ')
  rcases hcase with rfl | ⟨m, n, τ, rfl, hlt⟩
  · rw [sub_singleton] at hs
    obtain rfl := Option.some.inj (hc.symm.trans hs)
    obtain rfl : [j] = ρ := (List.cons.inj heq).2
    exact .found hX hσ hc hρ' h
  · simp only [List.cons_append, List.cons.injEq] at heq
    omega

/-- The search past the neighbour never finds its child. -/
theorem not_found_without (hg : Orderly g.value.id g) {i k : ℕ} {d : NodeGraph}
    (hc : g.children[i]? = some c) (hS : c.value.id = S) (h : OnlyChild c X j)
    (hnone : findInGraphWithParents g [S] X = none) (hπ : findInGraph g X = some [i, j])
    (hd : g.children[k]? = some d) (hid : d.value.id = X) :
    ¬ PassedOver S X (g.children.take k) := by
  intro hpast
  have hfirst := (findInGraph_eq_some.mp hπ).2 [k] d.value
    (get?_cons_eq_some.mpr ⟨d, hd, get?_nil d⟩) hid
  have hik : i < k := by
    rw [cons_precedes_cons, not_or, not_and] at hfirst
    have hne : k ≠ i := fun heq => hfirst.2 heq (nil_precedes_cons j [])
    omega
  obtain ⟨σ, hσ, rfl | ⟨m, n, τ, rfl, hlt⟩⟩ :=
    findInGraph_neighbour hg hc hS h.children_ne_nil
  · obtain ⟨e, he, hX⟩ := h.exists_child
    have hget : c.get? [j] = some e.value := get?_cons_eq_some.mpr ⟨e, he, get?_nil e⟩
    obtain ⟨ρ, hρ⟩ := exists_find? (p := fun u => u.id = X) hget (decide_eq_true hX)
    have hρ : findInGraph c X = some ρ := hρ
    obtain ⟨t, ht, -⟩ := exists_sub_of_findInGraph hρ
    have hf : findInGraphWithParents g [S] X = some ([i] ++ ρ) :=
      findInTurn_cons_eq_some.mpr ⟨[i], c, ρ, hσ, (sub_singleton g i).trans hc,
        findInTurn_cons_eq_some.mpr ⟨ρ, t, [], hρ, ht, rfl, (List.append_nil ρ).symm⟩, rfl⟩
    rw [hf] at hnone
    cases hnone
  · obtain ⟨⟨u, hu, hid'⟩, hfirst'⟩ := findInGraph_eq_some.mp hσ
    obtain ⟨e, he, hu⟩ := get?_cons_eq_some.mp hu
    have hmem : e ∈ g.children.take k :=
      List.mem_of_getElem? ((List.getElem?_take_of_lt (by omega)).trans he)
    have heS : e.value.id ≠ S := fun hS' =>
      hfirst' [m] e.value (get?_cons_eq_some.mpr ⟨e, he, get?_nil e⟩) hS' (.inr ⟨rfl, trivial⟩)
    obtain ⟨e', he', -⟩ := get?_cons_eq_some.mp hu
    rw [(hpast e hmem heS).2] at he'
    cases he'

/-- **A report** in a room with an orderly graph. -/
theorem onLinkLost_cuts_iff (hg : Orderly RU.iamRoot.value.id RU.iamRoot) (key : ℤ) (X S : PeerId) :
    (∃ RU', RU.onLinkLost key X S = .ok RU' ∧ RU'.iamRoot = cutLink RU.iamRoot S X) ↔
      CutsLink RU.iamRoot S X := by
  rcases onLinkLost_cases RU key X S with
    ⟨hok, hcase⟩ | ⟨⟨F, herr⟩, hX, hnone, hpast⟩ | ⟨RU', π, s, hok, hX, hs, hπ, hg', hcase⟩
  · have hlhs : (∃ RU', RU.onLinkLost key X S = .ok RU' ∧ RU'.iamRoot = cutLink RU.iamRoot S X) ↔
        ¬ HasLink RU.iamRoot S X := by
      rw [← cutLink_eq_self_iff, hok]
      constructor
      · rintro ⟨RU', h, heq⟩
        obtain rfl := Except.ok.inj h
        exact heq.symm
      · exact fun heq => ⟨RU, rfl, heq.symm⟩
    rw [hlhs]
    constructor
    · intro hno
      by_cases hX : X = RU.iamRoot.value.id
      · exact .own hX hno
      · obtain ⟨hnone, hpast⟩ := hcase.resolve_left hX
        exact .unknown hX hnone hno hpast
    · rintro (⟨-, hno⟩ | ⟨hX, hi, hc, hj, -⟩ | ⟨-, -, hno, -⟩)
      · exact hno
      · obtain ⟨hnone, -⟩ := hcase.resolve_left hX
        rw [findInGraphWithParents_of_neighbour hi hc hj] at hnone
        cases hnone
      · exact hno
  · refine iff_of_false ?_ ?_
    · rintro ⟨RU', h, -⟩
      rw [herr] at h
      cases h
    · rintro (⟨hown, -⟩ | ⟨-, hi, hc, hj, -⟩ | ⟨-, -, -, hpast'⟩)
      · exact hX hown
      · rw [findInGraphWithParents_of_neighbour hi hc hj] at hnone
        cases hnone
      · exact hpast hpast'
  · constructor
    · rintro ⟨RU'', h, heq⟩
      obtain rfl := Except.ok.inj (hok.symm.trans h)
      obtain ⟨i, j, c, rfl, hc, hS, honly⟩ := exists_of_erase_eq_cutLink hs hπ (hg'.symm.trans heq)
      rcases hcase with hf | ⟨hnone, hf, k, d, hd, hid, -, hpast⟩
      · exact cutsLink_of_found hg hX hc hS honly hf
      · exact absurd hpast (not_found_without hg hc hS honly hnone hf hd hid)
    · rintro (⟨hown, -⟩ | ⟨-, hi, hc, hj, honly⟩ | ⟨-, hnone', -, hpast'⟩)
      · exact absurd hown hX
      · have hf' := findInGraphWithParents_of_neighbour hi hc hj
        rcases hcase with hf | ⟨hnone, -⟩
        · obtain rfl := Option.some.inj (hf'.symm.trans hf)
          obtain ⟨u, hu, hS⟩ := exists_sub_of_findInGraph hi
          rw [sub_singleton] at hu
          obtain rfl := Option.some.inj (hc.symm.trans hu)
          exact ⟨RU', hok, hg'.trans (honly.erase_eq_cutLink hg hc hS)⟩
        · rw [hf'] at hnone
          cases hnone
      · rcases hcase with hf | ⟨-, -, k, d, hd, hid, hS, -⟩
        · rw [hf] at hnone'
          cases hnone'
        · exact absurd hid (hpast' d (List.mem_of_getElem? hd) hS).1

theorem GraphStep.orderly {diff : NodesMapDiff} (h : GraphStep RU diff RU')
    (hg : Orderly RU.iamRoot.value.id RU.iamRoot) : Orderly RU'.iamRoot.value.id RU'.iamRoot := by
  obtain ⟨hr, -⟩ := RoomMap.onNodesMapDiff_eq_ok.mp h
  refine (Lts.foldlM_eq_ok_iff.mp hr).invariant (I := fun g => Orderly g.value.id g) hg ?_
  exact fun g e g' hg he => (hg.onGraph he).2

/-- **A report cuts the link it names, and nothing else**, in every room that differences have built,
exactly when `CutsLink` holds. -/
theorem run_onLinkLost_iff (h : Lts.Run GraphStep (createRoomMap myId) ds RU) (key : ℤ)
    (X S : PeerId) :
    (∃ RU', RU.onLinkLost key X S = .ok RU' ∧ RU'.iamRoot = cutLink RU.iamRoot S X) ↔
      CutsLink RU.iamRoot S X := by
  refine onLinkLost_cuts_iff ?_ key X S
  exact h.invariant (I := fun RU => Orderly RU.iamRoot.value.id RU.iamRoot) (orderly_create myId)
    fun _ _ _ hs he => GraphStep.orderly he hs

/-- A neighbour with one unit below it reports that it has lost this unit. -/
theorem run_onLinkLost_child : ∃ ds RU, Lts.Run GraphStep (createRoomMap "me") ds RU ∧
    ∃ RU', RU.onLinkLost 0 "t" "s" = .ok RU' ∧ RU'.iamRoot = cutLink RU.iamRoot "s" "t" := by
  let RU : RoomMap := { createRoomMap "me" with
    nPeersInRoom := 3
    iamRoot := .node ⟨-1, "me"⟩ [.node ⟨0, "s"⟩ [.node ⟨1, "t"⟩ []]] }
  let diff : NodesMapDiff := ⟨[(0, [⟨"s", ["me"]⟩]), (1, [⟨"t", ["s", "me"]⟩])], []⟩
  have hrun : Lts.Run GraphStep (createRoomMap "me") [diff] RU :=
    .single (RoomMap.onNodesMapDiff_eq_ok.mpr ⟨rfl, rfl, rfl⟩)
  have honly : OnlyChild (.node ⟨0, "s"⟩ [.node ⟨1, "t"⟩ []]) "t" 0 := by
    refine ⟨⟨_, rfl, rfl⟩, fun k d hd _ => ?_⟩
    cases k with
    | zero => rfl
    | succ k => cases hd
  have hcuts : CutsLink RU.iamRoot "s" "t" :=
    .found (i := 0) (j := 0) (by decide) (by decide) rfl (by decide) honly
  exact ⟨[diff], RU, hrun, (run_onLinkLost_iff hrun 0 "t" "s").mpr hcuts⟩

/-- A neighbour reports that it has lost another neighbour: the unit of that one goes. -/
theorem not_cutLink_neighbour : ¬ ∀ myId ds RU, Lts.Run GraphStep (createRoomMap myId) ds RU →
    ∀ (key : ℤ) (X S : PeerId), (∃ c ∈ RU.iamRoot.children, c.value.id = S) →
      ∃ RU', RU.onLinkLost key X S = .ok RU' ∧ RU'.iamRoot = cutLink RU.iamRoot S X := by
  intro h
  let RU : RoomMap := { createRoomMap "me" with
    nPeersInRoom := 3
    iamRoot := .node ⟨-1, "me"⟩ [.node ⟨0, "s"⟩ [], .node ⟨0, "x"⟩ []] }
  have hrun : Lts.Run GraphStep (createRoomMap "me")
      [⟨[(0, [⟨"s", ["me"]⟩, ⟨"x", ["me"]⟩])], []⟩] RU :=
    .single (RoomMap.onNodesMapDiff_eq_ok.mpr ⟨rfl, rfl, rfl⟩)
  obtain ⟨RU', hok, heq⟩ := h "me" _ RU hrun 0 "x" "s" ⟨_, List.mem_cons_self, rfl⟩
  have hlost : (RU.onLinkLost 0 "x" "s").map (fun RU => RU.iamRoot.values) =
      .ok [⟨-1, "me"⟩, ⟨0, "s"⟩] := by decide +kernel
  have hvalues : (cutLink RU.iamRoot "s" "x").values = [⟨-1, "me"⟩, ⟨0, "s"⟩, ⟨0, "x"⟩] := by
    decide +kernel
  rw [hok] at hlost
  have hlost : RU'.iamRoot.values = [⟨-1, "me"⟩, ⟨0, "s"⟩] := Except.ok.inj hlost
  rw [heq, hvalues] at hlost
  cases hlost

end Yamb
