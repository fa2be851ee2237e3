import Yamb.Topology.Applicable
import Yamb.Topology.Idempotent

/-!
# Reported paths

A neighbour lists its units, each with its parents up to the neighbour itself.
`createDiffConnectedBylvls` connects a unit that is not known to the last of its parents, which is the
neighbour.

* `ReportedBy`: a map of a neighbour that lists the parents of its units;
* `map_value_erase`: what is cut off below a neighbour leaves the neighbours as they are;
* `Gathered`, `Gathered.onGraph`: the units with a new id are below one neighbour, at one level;
* `KeepsPath`, **`keepsPath_iff`**: a unit that is not known is inserted where it is reported exactly
  when it is listed under the first key, and the sender is found among the neighbours.
-/

set_option autoImplicit false

namespace Yamb

open RoseTree

variable {g h t t' : NodeGraph} {S x : PeerId} {f π κ : Path} {k : ℕ}
  {us : List NodesMapDiffUnit} {u : NodesMapDiffUnit} {incoming : IncomingMap}
  {diff : NodesMapDiff} {RU RU' : RoomMap} {e : Entry} {cs ds : List Entry}
  {es : List (ℕ × NodesMapDiffUnit)}

/-- A map from `S`, which lists the parents of each unit at lower levels. -/
structure ReportedBy (S : PeerId) (incoming : IncomingMap) : Prop where
  levels : ∀ itr ∈ incoming, 0 ≤ itr.1
  sender : ∀ itr ∈ incoming, ∀ u ∈ itr.2, u.parentIds.getLast? = some S
  parents : ∀ itr ∈ incoming, ∀ u ∈ itr.2, ∀ p ∈ u.parentIds.dropLast,
    ∃ itr' ∈ incoming, itr'.1 < itr.1 ∧ ∃ v ∈ itr'.2, v.id = p

/-- There is a unit with the id of `u`, one level below the key, under the unit that its chain leads
to. -/
def KeepsPath (g : NodeGraph) (k : ℕ) (u : NodesMapDiffUnit) : Prop :=
  ∃ π i v, findInGraphByChain g (u.parentIds ++ [g.value.id]) = some π ∧
    g.get? (π ++ [i]) = some v ∧ v.id = u.id ∧ v.lvl = (min (k + 1) maxLvl : ℕ)

/-! ### What is cut off -/

theorem head?_unerase (hκ : 2 ≤ κ.length) (ρ : Path) : (unerase κ ρ).head? = ρ.head? := by
  obtain ⟨i, j, κ, rfl⟩ : ∃ i j κ', κ = i :: j :: κ' := by
    rcases κ with _ | ⟨i, _ | ⟨j, κ⟩⟩
    · simp at hκ
    · simp at hκ
    · exact ⟨i, j, κ, rfl⟩
  cases ρ with
  | nil => rfl
  | cons l ρ =>
    rw [unerase_cons_cons]
    split_ifs <;> rfl

theorem map_value_erase (hκ : 2 ≤ κ.length) :
    (t.erase κ).children.map value = t.children.map value := by
  rcases κ with _ | ⟨i, _ | ⟨j, κ⟩⟩
  · simp at hκ
  · simp at hκ
  · rw [erase_cons_cons, children_node]
    exact map_value_modify i fun c => value_erase c _

/-! ### Where the units with a new id are -/

/-- The units with the id are below the neighbour that `f` leads through, at the level below `f`, and
if `f` leads to a neighbour there are such units. The neighbours are those of `g`. -/
structure Gathered (g : NodeGraph) (x : PeerId) (f : Path) (t : NodeGraph) : Prop where
  value_eq : t.value = g.value
  neighbours : t.children.map value = g.children.map value
  found : f.length = 1 → ∃ ρ v, t.get? ρ = some v ∧ v.id = x
  only : ∀ ρ v, t.get? ρ = some v → v.id = x → ρ.head? = f.head? ∧ ρ.length = f.length + 1

/-- The new units are leaves below the unit that `f` leads to. -/
theorem gathered_of_connects (hl : Leafed g h cs) (hadds : AddsAll g es cs ds) (hg : Levelled g)
    (ho : Orderly g.value.id g) (hsender : ∀ e ∈ es, e.2.parentIds.getLast? = some S)
    (hf : findInGraph g S = some f) (hne : f ≠ []) (hx : findInGraph g x = none)
    (hes : ∃ e ∈ es, e.2.id = x) : Gathered g x f h := by
  have hjoins {e : ℕ × NodesMapDiffUnit} (he : e ∈ es) (hid : e.2.id = x) :
      joins g e = some f := by
    rw [joins, hid, hx, hsender e he]
    exact hf
  refine ⟨hl.value_eq, hl.neighbours, ?_, fun ρ v hv hid => ?_⟩
  · intro _
    obtain ⟨e, he, hid⟩ := hes
    obtain ⟨s, hs, -⟩ := exists_sub_of_findInGraph hf
    obtain ⟨cs', ds', hadd, hcs, -⟩ := hadds.exists_of_mem he
    rcases hadd.connects_cases hg ho with ⟨hnone, -⟩ | ⟨lvl, u, rfl, hue, hchain, -⟩
    · rw [hjoins he hid] at hnone
      cases hnone
    · obtain ⟨i, v, -, hv, hvu⟩ := hl.new lvl u f s (hcs List.mem_cons_self)
        (hchain.trans (hjoins he hid)) hs
      exact ⟨f ++ [i], v, hv, hvu.trans (hue.trans hid)⟩
  · rcases hl.only ρ v hv with hold | ⟨lvl, u, f', s, i, hmem, hf', -, -, rfl, hu⟩
    · exact absurd hid (findInGraph_eq_none.mp hx ρ v hold)
    · obtain ⟨e, he, cs', ds', hadd, hmem⟩ := hadds.exists_of_connect hmem
      rcases hadd.connects_cases hg ho with ⟨-, rfl⟩ | ⟨lvl', u', rfl, hue, hchain, -⟩
      · cases hmem
      · cases List.mem_singleton.mp hmem
        rw [hf', hjoins he (hue.symm.trans (hu.symm.trans hid))] at hchain
        obtain rfl := Option.some.inj hchain
        obtain ⟨j, f, rfl⟩ := List.exists_cons_of_ne_nil hne
        exact ⟨rfl, List.length_append⟩

/-- Cutting units off leaves them there. -/
theorem Gathered.onGraph (ht : Gathered g x f t) (hm : Moved g e) (ho : Orderly g.value.id g)
    (hx : findInGraph g x = none) (he : e.onGraph t = .ok t') : Gathered g x f t' := by
  rcases hm.onGraph_cases ho ht.value_eq he with rfl | ⟨κ, s, rfl, hs, hκ, hknown, -⟩
  · exact ht
  · have hne : κ ≠ [] := by
      rintro rfl
      simp at hκ
    refine ⟨(value_erase t κ).trans ht.value_eq, (map_value_erase hκ).trans ht.neighbours, ?_, ?_⟩
    · intro hf
      obtain ⟨ρ, v, hv, hid⟩ := ht.found hf
      obtain ⟨-, hlen⟩ := ht.only ρ v hv hid
      -- it would be the unit that is cut off, which is known
      have hnot : ∀ σ, ρ ≠ κ ++ σ := by
        rintro σ rfl
        rw [List.length_append] at hlen
        obtain rfl : σ = [] := List.length_eq_zero_iff.mp (by omega)
        rw [List.append_nil] at hv
        obtain rfl := Option.some.inj ((get?_of_sub hs).symm.trans hv)
        rw [hid] at hknown
        exact hknown hx
      obtain ⟨ρ', rfl⟩ := exists_unerase hne hnot
      exact ⟨ρ', v, (get?_erase t κ ρ' hne).trans hv, hid⟩
    · intro ρ v hv hid
      rw [get?_erase t κ ρ hne] at hv
      obtain ⟨hhead, hlen⟩ := ht.only _ v hv hid
      rw [head?_unerase hκ] at hhead
      rw [length_unerase] at hlen
      exact ⟨hhead, hlen⟩

theorem Gathered.foldlM (ht : Gathered g x f t) (hds : ∀ d ∈ ds, Moved g d)
    (ho : Orderly g.value.id g) (hx : findInGraph g x = none)
    (hrun : ds.foldlM Entry.onGraph t = .ok t') : Gathered g x f t' := by
  induction ds generalizing t with
  | nil =>
    obtain rfl := Except.ok.inj hrun
    exact ht
  | cons d ds ih =>
    rw [Lts.foldlM_eq_ok_iff] at hrun
    obtain ⟨t₁, hd, hrun⟩ := hrun.cons_inv
    exact ih (ht.onGraph (hds d List.mem_cons_self) ho hx hd)
      (fun d hd => hds d (List.mem_cons_of_mem _ hd)) (Lts.foldlM_eq_ok_iff.mpr hrun)

/-! ### A map -/

/-- A chain that ends in a neighbour leads through a neighbour with this id. -/
theorem exists_neighbour_of_chain {ids : List PeerId} (hown : S ≠ g.value.id)
    (hlast : ids.getLast? = some S) (hπ : findInGraphByChain g (ids ++ [g.value.id]) = some π) :
    ∃ j c ρ, g.children[j]? = some c ∧ c.value.id = S ∧ π = j :: ρ := by
  obtain ⟨ps, rfl⟩ := List.getLast?_eq_some_iff.mp hlast
  rw [findInGraphByChain, List.reverse_append, List.reverse_append, List.reverse_singleton,
    List.reverse_singleton, List.singleton_append, List.singleton_append, followChain, if_pos rfl,
    followChain_cons_eq_some (Ne.symm hown)] at hπ
  obtain ⟨j, c, ρ, hj, hc, -, rfl⟩ := hπ
  obtain ⟨_, hid, -⟩ := List.findIdx?_eq_some_iff_getElem.mp hj
  obtain ⟨_, rfl⟩ := List.getElem?_eq_some_iff.mp hc
  exact ⟨j, _, ρ, hc, of_decide_eq_true hid, rfl⟩

theorem ReportedBy.getLast?_of_mem (hmap : ReportedBy S incoming) {e : ℕ × NodesMapDiffUnit}
    (he : e ∈ incomingUnits incoming) : e.2.parentIds.getLast? = some S := by
  obtain ⟨itr, hitr, he⟩ := List.mem_flatMap.mp he
  obtain ⟨u, hu, rfl⟩ := List.mem_map.mp he
  exact hmap.sender itr hitr u hu

/-- Under the first key the sender is the one parent. -/
theorem ReportedBy.parentIds_eq (hmap : ReportedBy S incoming) (hus : (0, us) ∈ incoming)
    (hu : u ∈ us) : u.parentIds = [S] := by
  obtain ⟨ps, hps⟩ := List.getLast?_eq_some_iff.mp (hmap.sender _ hus u hu)
  have hnil : ps = [] := by
    refine List.eq_nil_iff_forall_not_mem.mpr fun p hp => ?_
    obtain ⟨itr, hitr, hlt, -⟩ := hmap.parents _ hus u hu p (by rwa [hps, List.dropLast_concat])
    exact absurd hlt (Int.not_lt.mpr (hmap.levels itr hitr))
  rw [hps, hnil, List.nil_append]

/-- A unit that is not known is connected to its last parent. -/
theorem Adds.exists_attached {lvl : ℕ} (hadd : Adds g (lvl, u) cs ds)
    (hx : findInGraph g u.id = none) (hlast : u.parentIds.getLast? = some S)
    (hnear : ∃ c ∈ g.children, c.value.id = S) : ∃ f, f ≠ [] ∧ findInGraph g S = some f := by
  obtain ⟨c, hc, rfl⟩ := hnear
  cases hadd with
  | own hown =>
    rw [hown, findInGraph_own] at hx
    cases hx
  | near hown hf => cases hf.symm.trans hx
  | stray hown hf hu hb =>
    obtain rfl := Option.some.inj (hu.symm.trans hlast)
    obtain ⟨i, hi⟩ := List.mem_iff_getElem?.mp hc
    exact absurd rfl (findInGraph_eq_none.mp hb [i] _ (get?_cons_eq_some.mpr ⟨c, hi, get?_nil c⟩))
  | attach hown hf hu hb hne =>
    obtain rfl := Option.some.inj (hu.symm.trans hlast)
    exact ⟨_, hne, hb⟩
  | move hown hf => cases hf.symm.trans hx

/-- The units with the id of an unknown unit, after the map. -/
theorem gathered_of_map (hg : Levelled RU.iamRoot) (ho : Orderly RU.iamRoot.value.id RU.iamRoot)
    (hnear : ∃ c ∈ RU.iamRoot.children, c.value.id = S) (hmap : ReportedBy S incoming)
    (hus : ((k : ℤ), us) ∈ incoming) (hu : u ∈ us) (hx : findInGraph RU.iamRoot u.id = none)
    (hd : createDiffConnectedBylvls .empty RU incoming = .ok diff)
    (hrun : RU.onNodesMapDiff diff = .ok RU') :
    ∃ f, f ≠ [] ∧ findInGraph RU.iamRoot S = some f ∧
      Gathered RU.iamRoot u.id f RU'.iamRoot := by
  have hadds := createDiffConnectedBylvls_adds hg ho hd
  have hentries := (RoomMap.onNodesMapDiff_eq_ok.mp hrun).1
  rw [NodesMapDiff.entries_eq, Lts.foldlM_eq_ok_iff] at hentries
  obtain ⟨h, hcs, hds⟩ := hentries.append_inv
  have hl := hadds.leafed hg ho (Lts.foldlM_eq_ok_iff.mpr hcs)
  have he : (clampLvl (k + 1), u) ∈ incomingUnits incoming :=
    List.mem_flatMap.mpr ⟨(k, us), hus, List.mem_map_of_mem hu⟩
  obtain ⟨cs', ds', hadd, -⟩ := hadds.exists_of_mem he
  obtain ⟨f, hne, hf⟩ := hadd.exists_attached hx (hmap.getLast?_of_mem he) hnear
  have hgathered := gathered_of_connects hl hadds hg ho (fun e => hmap.getLast?_of_mem) hf hne hx
    ⟨_, he, rfl⟩
  exact ⟨f, hne, hf, hgathered.foldlM hadds.moved ho hx (Lts.foldlM_eq_ok_iff.mpr hds)⟩

/-- **A unit that is not known is inserted where a map reports it exactly when** it is listed under the
first key, and the first unit with the id of the sender is the neighbour. -/
theorem keepsPath_iff (hg : Levelled RU.iamRoot) (ho : Orderly RU.iamRoot.value.id RU.iamRoot)
    (hnear : ∃ c ∈ RU.iamRoot.children, c.value.id = S) (hmap : ReportedBy S incoming)
    (hk : k < maxLvl) (hus : ((k : ℤ), us) ∈ incoming) (hu : u ∈ us)
    (hx : findInGraph RU.iamRoot u.id = none)
    (hd : createDiffConnectedBylvls .empty RU incoming = .ok diff)
    (hrun : RU.onNodesMapDiff diff = .ok RU') :
    KeepsPath RU'.iamRoot k u ↔ k = 0 ∧ ∃ i, findInGraph RU.iamRoot S = some [i] := by
  obtain ⟨f, hne, hf, hgathered⟩ := gathered_of_map hg ho hnear hmap hus hu hx hd hrun
  have hlev : Levelled RU'.iamRoot := GraphStep.levelled hrun hg
  have hown : S ≠ RU'.iamRoot.value.id := by
    rw [hgathered.value_eq]
    rintro rfl
    exact hne (Option.some.inj (hf.symm.trans (findInGraph_own _)))
  constructor
  · rintro ⟨π, i, v, hπ, hv, hid, hlvl⟩
    obtain ⟨hhead, hlen⟩ := hgathered.only _ v hv hid
    obtain ⟨j, c, ρ, hc, hcS, rfl⟩ :=
      exists_neighbour_of_chain hown (hmap.sender _ hus u hu) hπ
    have hneighbour : RU.iamRoot.get? [j] = some c.value := by
      have hmap := congrArg (·[j]?) hgathered.neighbours
      simp only [List.getElem?_map, hc, Option.map_some] at hmap
      obtain ⟨d, hd, heq⟩ := Option.map_eq_some_iff.mp hmap.symm
      exact get?_cons_eq_some.mpr ⟨d, hd, heq ▸ get?_nil d⟩
    obtain ⟨f, rfl⟩ : ∃ f', f = j :: f' := by
      obtain ⟨i', f, rfl⟩ := List.exists_cons_of_ne_nil hne
      obtain rfl := Option.some.inj hhead
      exact ⟨f, rfl⟩
    -- nothing before the neighbour has the id, so the search ends there
    have hnil : f = [] := by
      rcases f with _ | ⟨l, f⟩
      · rfl
      · exact absurd (.inr ⟨rfl, nil_precedes_cons l f⟩)
          ((findInGraph_eq_some.mp hf).2 [j] _ hneighbour hcS)
    subst hnil
    have hroot := hlev.lvl _ v hv
    rw [hlen] at hroot
    unfold maxLvl at hk hlvl
    refine ⟨?_, j, hf⟩
    rw [hroot, List.length_singleton] at hlvl
    omega
  · rintro ⟨rfl, i, hi⟩
    obtain rfl := Option.some.inj (hf.symm.trans hi)
    obtain ⟨ρ, v, hv, hid⟩ := hgathered.found List.length_singleton
    obtain ⟨hhead, hlen⟩ := hgathered.only ρ v hv hid
    obtain ⟨i', j, rfl⟩ := List.length_eq_two.mp hlen
    obtain rfl := Option.some.inj hhead
    have hlvl := hlev.lvl _ v hv
    refine ⟨[i'], j, v, ?_, hv, hid, hlvl⟩
    rw [hmap.parentIds_eq hus hu]
    obtain ⟨c, hc, hcS⟩ := exists_sub_of_findInGraph hf
    have hchain := findInGraphByChain_idsTo ho hf hne
    rw [idsTo_singleton hc, hcS] at hchain
    obtain ⟨i, hi, heq⟩ := (findInGraphByChain_pair (hgathered.value_eq ▸ hown)).mp hchain
    refine (findInGraphByChain_pair hown).mpr ⟨i, ?_, heq⟩
    rw [findIdx?_congr hgathered.neighbours]
    exact hi

/-- `p` is reported as a neighbour of the neighbour `s`, and `q` below it. -/
theorem exists_reported : ∃ RU diff RU',
    (Levelled RU.iamRoot ∧ Orderly RU.iamRoot.value.id RU.iamRoot) ∧
    (∃ c ∈ RU.iamRoot.children, c.value.id = "s") ∧
    (∀ x ∈ ["p", "q"], findInGraph RU.iamRoot x = none) ∧
    findInGraph RU.iamRoot "s" = some [0] ∧
    createDiffConnectedBylvls .empty RU [(0, [⟨"p", ["s"]⟩]), (1, [⟨"q", ["p", "s"]⟩])] = .ok diff ∧
    RU.onNodesMapDiff diff = .ok RU' ∧ ⟨2, "q"⟩ ∉ RU'.iamRoot.values := by
  obtain ⟨RU, hr, hnear, hnew, hs, RU', hmem, hq⟩ := Lts.exists_run_of_any RoomMap.onNodesMapDiff
    (createRoomMap "me") [⟨[(0, [⟨"s", ["me"]⟩])], []⟩]
    (fun RU => (∃ c ∈ RU.iamRoot.children, c.value.id = "s") ∧
      (∀ x ∈ ["p", "q"], findInGraph RU.iamRoot x = none) ∧
      findInGraph RU.iamRoot "s" = some [0] ∧
      ∃ RU' ∈ (RU.acceptMap [(0, [⟨"p", ["s"]⟩]), (1, [⟨"q", ["p", "s"]⟩])]).toOption,
        ⟨2, "q"⟩ ∉ RU'.iamRoot.values) (by decide +kernel)
  obtain ⟨diff, hd, hrun⟩ := acceptMap_eq_ok (Lts.eq_ok_of_mem_toOption hmem)
  exact ⟨RU, diff, RU', run_graphStep_sound hr, hnear, hnew, hs, hd, hrun, hq⟩

theorem reportedBy_s :
    ReportedBy "s" [(0, [⟨"p", ["s"]⟩]), (1, [⟨"q", ["p", "s"]⟩])] where
  levels := by decide
  sender := by decide
  parents := by decide

theorem keepsPath_neighbour : ∃ RU diff RU',
    createDiffConnectedBylvls .empty RU [(0, [⟨"p", ["s"]⟩]), (1, [⟨"q", ["p", "s"]⟩])] = .ok diff ∧
    RU.onNodesMapDiff diff = .ok RU' ∧ KeepsPath RU'.iamRoot 0 ⟨"p", ["s"]⟩ := by
  obtain ⟨RU, diff, RU', ⟨hg, ho⟩, hnear, hnew, hs, hd, hrun, -⟩ := exists_reported
  refine ⟨RU, diff, RU', hd, hrun, (keepsPath_iff hg ho hnear reportedBy_s (by decide)
    List.mem_cons_self List.mem_cons_self ?_ hd hrun).mpr ⟨rfl, 0, hs⟩⟩
  exact hnew "p" List.mem_cons_self

/-- A unit two links away from the sender is inserted as its neighbour. -/
theorem not_keepsPath : ¬ ∀ (S : PeerId) (RU RU' : RoomMap) (incoming : IncomingMap)
    (diff : NodesMapDiff) (k : ℕ) (us : List NodesMapDiffUnit) (u : NodesMapDiffUnit),
    Levelled RU.iamRoot → Orderly RU.iamRoot.value.id RU.iamRoot →
    (∃ c ∈ RU.iamRoot.children, c.value.id = S) → ReportedBy S incoming → k < maxLvl →
    ((k : ℤ), us) ∈ incoming → u ∈ us → findInGraph RU.iamRoot u.id = none →
    createDiffConnectedBylvls .empty RU incoming = .ok diff → RU.onNodesMapDiff diff = .ok RU' →
      KeepsPath RU'.iamRoot k u := by
  intro h
  obtain ⟨RU, diff, RU', ⟨hg, ho⟩, hnear, hnew, -, hd, hrun, hq⟩ := exists_reported
  obtain ⟨π, i, v, -, hv, hid, hlvl⟩ := h "s" RU RU' _ diff 1 _ ⟨"q", ["p", "s"]⟩ hg ho hnear
    reportedBy_s (by decide) (List.mem_cons_of_mem _ List.mem_cons_self) List.mem_cons_self
    (hnew "q" (by decide)) hd hrun
  have heq : v = ⟨2, "q"⟩ := by
    rw [show v = ⟨v.lvl, v.id⟩ from rfl, hid, hlvl]
    rfl
  exact hq (mem_values.mpr ⟨_, heq ▸ hv⟩)

end Yamb
