import Yamb.Lib.Pruning
import Yamb.Topology.Leaves

/-!
# The places of a unit

Where the first pass over a map leaves the units of the graph.

* `joins`, `Place`, **`place_iff`**: where a unit stands, and where a map puts it;
* `FirstLeft`, `FoundLeft`, `Cut`: what a search finds of the places that are left, and the places that
  the units of a map cut off, one unit after the other;
* **`AddsAll.pruned`**: after the map the graph is the one with the new leaves, without the places that
  are cut off;
* **`findInGraph_iff_firstLeft`**: a unit is found at the first of its places that is left.
-/

set_option autoImplicit false

namespace Yamb

open RoseTree

/-- The unit below which a map connects a unit, if it does. -/
def joins (g : NodeGraph) (e : ℕ × NodesMapDiffUnit) : Option Path :=
  match findInGraph g e.2.id with
  | some π => if lvlAt g π ≤ e.1 then none else findInGraphByChain g (e.2.parentIds ++ [g.value.id])
  | none => e.2.parentIds.getLast?.bind (findInGraph g)

/-- The ids that a map connects to the unit at a path, one after the other. -/
def joinedUnits (g : NodeGraph) (es : List (ℕ × NodesMapDiffUnit)) (f : Path) : List PeerId :=
  es.filterMap fun e => if joins g e = some f then some e.2.id else none

/-- The places of the units with an id: where they are, and where a map connects them. -/
inductive Place (g : NodeGraph) (es : List (ℕ × NodesMapDiffUnit)) (x : PeerId) : Path → Prop
  | here {π : Path} {v : NodeUnit} (hv : g.get? π = some v) (hx : v.id = x) : Place g es x π
  | joins {f : Path} {s : NodeGraph} {j : ℕ} (hs : g.sub f = some s)
      (hj : (joinedUnits g es f)[j]? = some x) : Place g es x (f ++ [s.children.length + j])

/-- The first place at or below `κ` that is not gone. -/
structure FirstLeft (g : NodeGraph) (es : List (ℕ × NodesMapDiffUnit)) (gone : Path → Prop)
    (x : PeerId) (κ π : Path) : Prop where
  place : Place g es x π
  isPrefix : κ <+: π
  not_gone : ¬ gone π
  first : ∀ ρ, Place g es x ρ → κ <+: ρ → ¬ gone ρ → ¬ Precedes ρ π

/-- The first place of `y₁`, then of `y₀` below it, then of `x` below that. -/
def FoundLeft (g : NodeGraph) (es : List (ℕ × NodesMapDiffUnit)) (gone : Path → Prop)
    (x y₀ y₁ : PeerId) (π : Path) : Prop :=
  ∃ ρ₁ ρ₂, FirstLeft g es gone y₁ [] ρ₁ ∧ FirstLeft g es gone y₀ ρ₁ ρ₂ ∧
    FirstLeft g es gone x ρ₂ π

/-- The unit is reported near and is two links below a neighbour: `y₀` is the neighbour, `y₁` the unit
in between. -/
def Moves (g : NodeGraph) (e : ℕ × NodesMapDiffUnit) (y₀ y₁ : PeerId) : Prop :=
  e.1 = 1 ∧ ∃ a b c p₀ p₁, findInGraph g e.2.id = some [a, b, c] ∧ g.get? [a] = some p₀ ∧
    g.get? [a, b] = some p₁ ∧ p₀.id = y₀ ∧ p₁.id = y₁

/-- The places that the units of a map cut off, the latest unit first. -/
def Cut (g : NodeGraph) (es : List (ℕ × NodesMapDiffUnit)) :
    List (ℕ × NodesMapDiffUnit) → Path → Prop
  | [], _ => False
  | e :: us, π => Cut g es us π ∨ ∃ y₀ y₁ ρ, Moves g e y₀ y₁ ∧
      FoundLeft g es (Cut g es us) e.2.id y₀ y₁ ρ ∧ ρ <+: π

variable {g g' h s t t' : NodeGraph} {es us : List (ℕ × NodesMapDiffUnit)}
  {e : ℕ × NodesMapDiffUnit} {cs ds : List Entry} {x y₀ y₁ y₀' y₁' : PeerId} {f π ρ σ κ : Path}
  {up : Path → Path} {gone : Path → Prop}

/-! ### What a map connects -/

theorem lvlAt_own_le (hg : Levelled g) (lvl : ℕ) : lvlAt g [] ≤ lvl := by
  rw [lvlAt_of_levelled hg (sub_nil g)]
  simp only [List.length_nil]
  omega

theorem joinedUnits_cons (g : NodeGraph) (e : ℕ × NodesMapDiffUnit)
    (es : List (ℕ × NodesMapDiffUnit)) (f : Path) : joinedUnits g (e :: es) f =
      (if joins g e = some f then [e.2.id] else []) ++ joinedUnits g es f := by
  unfold joinedUnits
  rw [List.filterMap_cons]
  split_ifs <;> rfl

/-- A unit is connected below the path that it joins, one level lower. -/
theorem Adds.connects_cases (hadd : Adds g e cs ds) (hg : Levelled g)
    (ho : Orderly g.value.id g) : joins g e = none ∧ cs = [] ∨
      ∃ (lvl : ℤ) (u : NodesMapDiffUnit), cs = [.connect lvl u] ∧ u.id = e.2.id ∧
        findInGraphByChain g u.parentIds = joins g e ∧
          ∀ f, joins g e = some f → lvl = (max 1 f.length : ℕ) := by
  cases hadd with
  | @own lvl u hown =>
    have hroot : findInGraph g u.id = some [] := by
      rw [hown]
      exact findInGraph_own g
    refine .inl ⟨?_, rfl⟩
    simp only [joins, hroot, if_pos (lvlAt_own_le hg lvl)]
  | near hown hf hlvl =>
    refine .inl ⟨?_, rfl⟩
    simp only [joins, hf, if_pos hlvl]
  | stray hown hf hu hb =>
    refine .inl ⟨?_, rfl⟩
    simp only [joins, hf, hu, Option.bind_some, hb]
  | @attach lvl u back f hown hf hu hb hne hlen =>
    have hjoins : joins g (lvl, u) = some f := by simp only [joins, hf, hu, Option.bind_some, hb]
    refine .inr ⟨_, _, rfl, rfl, ?_, fun f' hf' => ?_⟩
    · rw [hjoins]
      exact findInGraphByChain_idsTo ho hb hne
    · obtain rfl := Option.some.inj (hjoins.symm.trans hf')
      have hpos := List.length_pos_of_ne_nil hne
      rw [max_eq_right hpos]
  | @move u back _ a b c p₀ p₁ hown hf h₀ h₁ hu hb =>
    have hjoins : joins g (1, u) = findInGraphByChain g [back, g.value.id] := by
      simp only [joins, hf, if_neg (not_lvlAt_le hg hf), hu, List.singleton_append]
    refine .inr ⟨_, _, rfl, rfl, hjoins.symm, fun f hf => ?_⟩
    rw [hjoins] at hf
    by_cases hback : back = g.value.id
    · rw [hback, findInGraphByChain_own] at hf
      obtain rfl := Option.some.inj hf
      rfl
    · obtain ⟨i, -, rfl⟩ := (findInGraphByChain_pair hback).mp hf
      rfl

/-- Entries of other levels may be left out. -/
theorem joinedIds_filter {k : ℤ} (hlvl : ∀ lvl u, .connect lvl u ∈ cs →
    findInGraphByChain g u.parentIds = some f → lvl = k) :
    joinedIds g (cs.filter (·.lvl = k)) f = joinedIds g cs f := by
  unfold joinedIds
  rw [List.filterMap_filter]
  refine List.filterMap_congr fun c hc => ?_
  cases c with
  | connect lvl u =>
    by_cases hf : findInGraphByChain g u.parentIds = some f
    · exact if_pos (decide_eq_true (hlvl lvl u hc hf))
    · simp only [if_neg hf, ite_self]
  | disconnect lvl u => simp only [ite_self]

/-- The entries connect the same ids as the units, in the same order. -/
theorem AddsAll.joinedIds_eq (hadds : AddsAll g es cs ds) (hg : Levelled g)
    (ho : Orderly g.value.id g) (f : Path) : joinedIds g cs f = joinedUnits g es f := by
  have hlvl : ∀ (lvl : ℤ) (u : NodesMapDiffUnit), .connect lvl u ∈ cs →
      findInGraphByChain g u.parentIds = some f → lvl = (max 1 f.length : ℕ) := by
    intro lvl u hmem hf
    obtain ⟨e, -, cs', ds', hadd, hmem⟩ := hadds.exists_of_connect hmem
    rcases hadd.connects_cases hg ho with ⟨-, rfl⟩ | ⟨lvl', u', rfl, -, hchain, hlvl⟩
    · cases hmem
    · cases List.mem_singleton.mp hmem
      exact hlvl f (hchain.symm.trans hf)
  obtain ⟨added, hforall, hcs, -⟩ := hadds
  have hlvl' : ∀ (lvl : ℤ) (u : NodesMapDiffUnit), .connect lvl u ∈ added.flatMap Prod.fst →
      findInGraphByChain g u.parentIds = some f → lvl = (max 1 f.length : ℕ) :=
    fun lvl u hmem => hlvl lvl u (hcs.perm.mem_iff.mpr hmem)
  rw [← joinedIds_filter hlvl, hcs.filter_eq, joinedIds_filter hlvl']
  clear hlvl hlvl' hcs
  induction hforall with
  | nil => rfl
  | @cons e l es added hadd _ ih =>
    rw [List.flatMap_cons, joinedIds_append, joinedUnits_cons, ih]
    congr 1
    rcases hadd.connects_cases hg ho with ⟨hnone, hnil⟩ | ⟨lvl, u, hcs, hid, hchain, -⟩
    · rw [hnil, hnone, if_neg (Option.some_ne_none f).symm]
      rfl
    · rw [hcs, joinedIds_singleton, hchain, hid]

/-! ### Searches -/

section Places

variable (hadds : AddsAll g es cs ds) (hg : Levelled g) (ho : Orderly g.value.id g)
  (hrun : cs.foldlM Entry.onGraph g = .ok h)

include hadds hg ho hrun

/-- **The places of a unit** are where there is one after the units have been connected. -/
theorem place_iff : Place g es x π ↔ ∃ v, h.get? π = some v ∧ v.id = x := by
  have hl := hadds.leafed hg ho hrun
  have hbelow (f : Path) (i : ℕ) := get?_of_connects hg (hadds.below ho) hrun f i
  simp only [hadds.joinedIds_eq hg ho] at hbelow
  constructor
  · intro hp
    cases hp with
    | here hv hx => exact ⟨_, hl.old _ _ hv, hx⟩
    | @joins f s j hs hj =>
      refine Option.map_eq_some_iff.mp ?_
      rw [hbelow, hs, Option.bind_some, List.getElem?_append_right, List.length_map,
        Nat.add_sub_cancel_left, hj]
      rw [List.length_map]
      exact Nat.le_add_right _ j
  · rintro ⟨v, hv, hx⟩
    rcases π.eq_nil_or_concat' with rfl | ⟨f, i, rfl⟩
    · rw [get?_nil, hl.value_eq] at hv
      exact .here ((get?_nil g).trans hv) hx
    · have hget := hbelow f i
      rw [hv, Option.map_some, hx] at hget
      obtain ⟨s, hs, hget⟩ := Option.bind_eq_some_iff.mp hget.symm
      by_cases hi : i < s.children.length
      · rw [List.getElem?_append_left (by rwa [List.length_map]), ← map_id_get?_append hs] at hget
        obtain ⟨w, hw, hid⟩ := Option.map_eq_some_iff.mp hget
        exact .here hw hid
      · rw [Nat.not_lt] at hi
        rw [List.getElem?_append_right (by rwa [List.length_map]), List.length_map] at hget
        have hplace := Place.joins hs hget
        rwa [Nat.add_sub_cancel' hi] at hplace

theorem findInGraph_below_iff (hp : Pruned h t gone up) (hs : t.sub ρ = some s) :
    findInGraph s x = some σ ↔ FirstLeft g es gone x (up ρ) (up (ρ ++ σ)) := by
  rw [findInGraph, find?_eq_some_iff, hp.first_below_iff hs]
  constructor
  · rintro ⟨⟨v, hv, hx⟩, hleft, hfirst⟩
    refine ⟨(place_iff hadds hg ho hrun).mpr ⟨v, hv, of_decide_eq_true hx⟩, hp.lifts.isPrefix ρ σ,
      hleft, fun τ hτ => ?_⟩
    obtain ⟨w, hw, hid⟩ := (place_iff hadds hg ho hrun).mp hτ
    exact hfirst τ w hw (decide_eq_true hid)
  · rintro ⟨hplace, -, hleft, hfirst⟩
    obtain ⟨v, hv, hx⟩ := (place_iff hadds hg ho hrun).mp hplace
    refine ⟨⟨v, hv, decide_eq_true hx⟩, hleft, fun τ w hw hid => ?_⟩
    exact hfirst τ ((place_iff hadds hg ho hrun).mpr ⟨w, hw, of_decide_eq_true hid⟩)

/-- **A unit is found** at the first of its places that is left. -/
theorem findInGraph_iff_firstLeft (hp : Pruned h t gone up) :
    findInGraph t x = some σ ↔ FirstLeft g es gone x [] (up σ) := by
  have hiff := findInGraph_below_iff hadds hg ho hrun (x := x) (σ := σ) hp (sub_nil t)
  rwa [hp.lifts.nil, List.nil_append] at hiff

theorem FirstLeft.exists_up (hfirst : FirstLeft g es gone x κ π) (hp : Pruned h t gone up) :
    ∃ σ, up σ = π := by
  obtain ⟨v, hv, -⟩ := (place_iff hadds hg ho hrun).mp hfirst.place
  exact hp.exists_up π v hv hfirst.not_gone

theorem FirstLeft.exists_up_append (hfirst : FirstLeft g es gone x (up ρ) π)
    (hp : Pruned h t gone up) : ∃ σ, up (ρ ++ σ) = π := by
  obtain ⟨κ, rfl⟩ := hfirst.exists_up hadds hg ho hrun hp
  obtain ⟨σ, rfl⟩ := hp.lifts.prefix_iff.mp hfirst.isPrefix
  exact ⟨σ, rfl⟩

theorem FoundLeft.exists_up (hfound : FoundLeft g es gone x y₀ y₁ π) (hp : Pruned h t gone up) :
    ∃ σ, up σ = π := by
  obtain ⟨ρ₁, ρ₂, -, -, hlast⟩ := hfound
  exact hlast.exists_up hadds hg ho hrun hp

/-- The search for a unit that is to be cut off. -/
theorem findInGraphWithParents_iff_foundLeft (hp : Pruned h t gone up) :
    findInGraphWithParents t [x, y₀, y₁] x = some κ ↔ FoundLeft g es gone x y₀ y₁ (up κ) := by
  rw [findInGraphWithParents_moved]
  constructor
  · rintro ⟨σ₁, s₁, σ₂, s₂, σ₃, hσ₁, hs₁, hσ₂, hs₂, hσ₃, rfl⟩
    refine ⟨up σ₁, up (σ₁ ++ σ₂), ?_, ?_, ?_⟩
    · exact (findInGraph_iff_firstLeft hadds hg ho hrun hp).mp hσ₁
    · exact (findInGraph_below_iff hadds hg ho hrun hp hs₁).mp hσ₂
    · rw [← sub_append_of_sub hs₁] at hs₂
      rw [← List.append_assoc]
      exact (findInGraph_below_iff hadds hg ho hrun hp hs₂).mp hσ₃
  · rintro ⟨π₁, π₂, hπ₁, hπ₂, hκ⟩
    obtain ⟨σ₁, rfl⟩ := hπ₁.exists_up hadds hg ho hrun hp
    have hσ₁ := (findInGraph_iff_firstLeft hadds hg ho hrun hp).mpr hπ₁
    obtain ⟨s₁, hs₁, -⟩ := exists_sub_of_findInGraph hσ₁
    obtain ⟨σ₂, rfl⟩ := hπ₂.exists_up_append hadds hg ho hrun hp
    have hσ₂ := (findInGraph_below_iff hadds hg ho hrun hp hs₁).mpr hπ₂
    obtain ⟨s₂, hs₂, -⟩ := exists_sub_of_findInGraph hσ₂
    obtain ⟨σ₃, hσ₃⟩ := hκ.exists_up_append hadds hg ho hrun hp
    obtain rfl := hp.lifts.injective hσ₃
    have hsub : t.sub (σ₁ ++ σ₂) = some s₂ := (sub_append_of_sub hs₁ σ₂).trans hs₂
    exact ⟨σ₁, s₁, σ₂, s₂, σ₃, hσ₁, hs₁, hσ₂, hs₂,
      (findInGraph_below_iff hadds hg ho hrun hp hsub).mpr hκ, List.append_assoc σ₁ σ₂ σ₃⟩

/-! ### What is cut off -/

omit hadds ho hrun in
theorem Adds.moves_cases {cs ds : List Entry} (hadd : Adds g e cs ds) :
    ds = [] ∧ (∀ y₀ y₁, ¬ Moves g e y₀ y₁) ∨ ∃ y₀ y₁, Moves g e y₀ y₁ ∧
      ds = [.disconnect 2 ⟨e.2.id, [e.2.id, y₀, y₁]⟩] := by
  cases hadd with
  | own hown =>
    refine .inl ⟨rfl, ?_⟩
    rintro y₀ y₁ ⟨-, a, b, c, p₀, p₁, hf, -⟩
    rw [hown, findInGraph_own] at hf
    cases hf
  | near hown hf hlvl =>
    refine .inl ⟨rfl, ?_⟩
    rintro y₀ y₁ ⟨rfl, a, b, c, p₀, p₁, hf', -⟩
    obtain rfl := Option.some.inj (hf.symm.trans hf')
    exact not_lvlAt_le hg hf hlvl
  | stray hown hf | attach hown hf =>
    refine .inl ⟨rfl, ?_⟩
    rintro y₀ y₁ ⟨-, a, b, c, p₀, p₁, hf', -⟩
    rw [hf] at hf'
    cases hf'
  | move hown hf h₀ h₁ =>
    exact .inr ⟨_, _, ⟨rfl, _, _, _, _, _, hf, h₀, h₁, rfl, rfl⟩, rfl⟩

omit hadds hg ho hrun in
theorem Moves.unique (hm : Moves g e y₀ y₁) (hm' : Moves g e y₀' y₁') : y₀ = y₀' ∧ y₁ = y₁' := by
  obtain ⟨-, a, b, c, p₀, p₁, hf, h₀, h₁, rfl, rfl⟩ := hm
  obtain ⟨-, a', b', c', p₀', p₁', hf', h₀', h₁', rfl, rfl⟩ := hm'
  cases Option.some.inj (hf.symm.trans hf')
  rw [Option.some.inj (h₀.symm.trans h₀'), Option.some.inj (h₁.symm.trans h₁')]
  exact ⟨rfl, rfl⟩

/-- A unit that is to be cut off: what the search finds goes. -/
theorem disconnect_pruned (hp : Pruned h t (Cut g es us) up) (hm : Moves g e y₀ y₁)
    (hd : disconnectUnit t ⟨e.2.id, [e.2.id, y₀, y₁]⟩ = .ok t') :
    ∃ up', Pruned h t' (Cut g es (e :: us)) up' := by
  rcases disconnectUnit_cases hd with ⟨hnone, rfl⟩ | ⟨κ, s, hκ, hne, -, -, rfl⟩
  · refine ⟨up, hp.congr fun π v hv => ⟨?_, .inl⟩⟩
    rintro (hc | ⟨y₀', y₁', ρ, hm', hρ, -⟩)
    · exact hc
    · obtain ⟨rfl, rfl⟩ := hm.unique hm'
      obtain ⟨σ, rfl⟩ := hρ.exists_up hadds hg ho hrun hp
      rw [(findInGraphWithParents_iff_foundLeft hadds hg ho hrun hp).mpr hρ] at hnone
      cases hnone
  · have hfound := (findInGraphWithParents_iff_foundLeft hadds hg ho hrun hp).mp hκ
    refine ⟨_, (hp.erase hne).congr fun π v hv => or_congr_right ⟨?_, fun hpre => ?_⟩⟩
    · rintro ⟨y₀', y₁', ρ, hm', hρ, hpre⟩
      obtain ⟨rfl, rfl⟩ := hm.unique hm'
      obtain ⟨σ, rfl⟩ := hρ.exists_up hadds hg ho hrun hp
      rw [(findInGraphWithParents_iff_foundLeft hadds hg ho hrun hp).mpr hρ] at hκ
      rwa [← Option.some.inj hκ]
    · exact ⟨y₀, y₁, up κ, hm, hfound, hpre⟩

/-- The units that are still to come, after those that have been gone through. -/
theorem pruned_of_forall₂ {later : List (ℕ × NodesMapDiffUnit)}
    {added : List (List Entry × List Entry)}
    (hforall : List.Forall₂ (fun e l => Adds g e l.1 l.2) later added)
    (hp : Pruned h t (Cut g es us) up)
    (hd : (added.flatMap Prod.snd).foldlM Entry.onGraph t = .ok t') :
    ∃ up', Pruned h t' (Cut g es (later.reverse ++ us)) up' := by
  induction hforall generalizing us t up with
  | nil =>
    obtain rfl := Except.ok.inj hd
    exact ⟨up, hp⟩
  | @cons e l later added hadd _ ih =>
    rw [List.flatMap_cons, Lts.foldlM_eq_ok_iff] at hd
    obtain ⟨t₁, he, hlater⟩ := hd.append_inv
    obtain ⟨up₁, hp₁⟩ : ∃ up₁, Pruned h t₁ (Cut g es (e :: us)) up₁ := by
      rcases hadd.moves_cases hg with ⟨hnil, hnot⟩ | ⟨y₀, y₁, hm, hds⟩
      · rw [hnil] at he
        obtain rfl := he.nil_inv
        refine ⟨up, hp.congr fun π v hv => or_iff_left ?_⟩
        rintro ⟨y₀, y₁, ρ, hm, -⟩
        exact hnot y₀ y₁ hm
      · rw [hds] at he
        obtain ⟨t₂, he, hnil⟩ := he.cons_inv
        obtain rfl := hnil.nil_inv
        exact disconnect_pruned hadds hg ho hrun hp hm he
    rw [List.reverse_cons, List.append_assoc, List.singleton_append]
    exact ih hp₁ (Lts.foldlM_eq_ok_iff.mpr hlater)

/-- **A map**: after the connected units have become leaves, the places that are cut off go. -/
theorem AddsAll.pruned (hd : ds.foldlM Entry.onGraph h = .ok g') :
    ∃ up, Pruned h g' (Cut g es es.reverse) up := by
  have hall := hadds
  obtain ⟨added, hforall, -, rfl⟩ := hall
  have hp : ∃ up, Pruned h g' (Cut g es (_ ++ [])) up :=
    pruned_of_forall₂ hadds hg ho hrun hforall (pruned_self h fun _ => id) hd
  rwa [List.append_nil] at hp

/-! ### What is left -/

/-- Where no place is left, there is no unit. -/
theorem findInGraph_eq_none_iff_gone (hp : Pruned h t gone up) :
    findInGraph t x = none ↔ ∀ π, Place g es x π → gone π := by
  rw [findInGraph_eq_none]
  constructor
  · intro hnone π hplace
    obtain ⟨v, hv, hx⟩ := (place_iff hadds hg ho hrun).mp hplace
    by_contra hleft
    obtain ⟨ρ, rfl⟩ := hp.exists_up π v hv hleft
    exact hnone ρ v ((hp.get?_eq ρ).trans hv) hx
  · intro hgone ρ v hv hx
    refine hp.not_gone ρ v hv (hgone _ ((place_iff hadds hg ho hrun).mpr ⟨v, ?_, hx⟩))
    exact (hp.get?_eq ρ).symm.trans hv

/-- **The unit that is found** is as deep as the first place that is left. -/
theorem findInGraph_length_iff (hp : Pruned h t gone up) (n : ℕ) :
    (∃ ρ, findInGraph t x = some ρ ∧ ρ.length ≤ n) ↔
      ∃ π, FirstLeft g es gone x [] π ∧ π.length ≤ n := by
  constructor
  · rintro ⟨ρ, hρ, hlen⟩
    refine ⟨up ρ, (findInGraph_iff_firstLeft hadds hg ho hrun hp).mp hρ, ?_⟩
    rwa [hp.lifts.length_eq]
  · rintro ⟨π, hπ, hlen⟩
    obtain ⟨ρ, rfl⟩ := hπ.exists_up hadds hg ho hrun hp
    rw [hp.lifts.length_eq] at hlen
    exact ⟨ρ, (findInGraph_iff_firstLeft hadds hg ho hrun hp).mpr hπ, hlen⟩

end Places

end Yamb
