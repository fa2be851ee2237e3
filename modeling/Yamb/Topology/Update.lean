import Yamb.Topology.Built

/-!
# An incoming map of connected units

What `createDiffConnectedBylvls` makes of a map, one unit after the other.

* `incomingUnits`, `Adds`, **`createDiffConnectedBylvls_adds`**: what each unit of the map adds to
  the difference;
* `connects`, `disconnects`: the two halves of a difference; `Regrouped`: the order of their entries.
-/

set_option autoImplicit false

namespace Yamb

open RoseTree

/-- The units of an incoming map, each with the level it is looked for at. -/
def incomingUnits (incoming : IncomingMap) : List (ℕ × NodesMapDiffUnit) :=
  incoming.flatMap fun itr => itr.2.map fun unit => (clampLvl (itr.1 + 1), unit)

theorem createDiffConnectedBylvls_eq (diff : NodesMapDiff) (RU : RoomMap) (incoming : IncomingMap) :
    createDiffConnectedBylvls diff RU incoming = (incomingUnits incoming).foldlM
      (fun diff e => diffConnected RU.iamRoot e.1 diff e.2) diff := by
  unfold createDiffConnectedBylvls incomingUnits
  induction incoming generalizing diff with
  | nil => rfl
  | cons itr incoming ih =>
    rw [List.foldlM_cons, List.flatMap_cons, List.foldlM_append, List.foldlM_map]
    cases itr.2.foldlM (diffConnected RU.iamRoot (clampLvl (itr.1 + 1))) diff with
    | error F => rfl
    | ok d => exact ih d

namespace NodesMapDiff

def connects (diff : NodesMapDiff) : List Entry :=
  UnitsByLvl.entries .connect diff.connectedBylvls

def disconnects (diff : NodesMapDiff) : List Entry :=
  UnitsByLvl.entries .disconnect diff.disconnectedBylvls

theorem entries_eq (diff : NodesMapDiff) : diff.entries = diff.connects ++ diff.disconnects := rfl

/-- The disconnected units are all under the last key. -/
def UnderLast (diff : NodesMapDiff) : Prop :=
  diff.disconnectedBylvls = [] ∨ ∃ us, diff.disconnectedBylvls = [(2, us)]

/-- The keys of the connected units are in order, too. -/
structure Grouped (diff : NodesMapDiff) : Prop where
  ascending : diff.connectedBylvls.Pairwise fun p q => p.1 < q.1
  underLast : diff.UnderLast

theorem UnderLast.disconnect {diff : NodesMapDiff} (h : diff.UnderLast) (u : NodesMapDiffUnit) :
    (diff.disconnect 2 u).UnderLast ∧
      (diff.disconnect 2 u).disconnects = diff.disconnects ++ [.disconnect 2 u] := by
  unfold UnderLast disconnects NodesMapDiff.disconnect
  rcases h with h | ⟨us, h⟩
  · rw [h]
    exact ⟨.inr ⟨[u], rfl⟩, rfl⟩
  · rw [h]
    refine ⟨.inr ⟨us ++ [u], rfl⟩, ?_⟩
    simp [UnitsByLvl.push, UnitsByLvl.entries]

end NodesMapDiff

/-! ### The order of the entries -/

/-- The key of an entry. -/
def Entry.lvl : Entry → ℤ
  | .connect lvl _ => lvl
  | .disconnect lvl _ => lvl

/-- The entries in another order, those of one key in the same order. -/
structure Regrouped (l l' : List Entry) : Prop where
  perm : l.Perm l'
  filter_eq : ∀ k, l.filter (·.lvl = k) = l'.filter (·.lvl = k)

namespace Regrouped

variable {l l' m : List Entry}

theorem refl (l : List Entry) : Regrouped l l := ⟨.refl l, fun _ => rfl⟩

theorem trans (h : Regrouped l l') (h' : Regrouped l' m) : Regrouped l m :=
  ⟨h.perm.trans h'.perm, fun k => (h.filter_eq k).trans (h'.filter_eq k)⟩

theorem append_right (h : Regrouped l l') (m : List Entry) : Regrouped (l ++ m) (l' ++ m) :=
  ⟨h.perm.append_right m, fun k => by rw [List.filter_append, List.filter_append, h.filter_eq k]⟩

end Regrouped

theorem entries_push (entry : ℤ → NodesMapDiffUnit → Entry) (m : UnitsByLvl) (lvl : ℤ)
    (u : NodesMapDiffUnit) : (UnitsByLvl.entries entry (m.push lvl u)).Perm
      (UnitsByLvl.entries entry m ++ [entry lvl u]) := by
  induction m with
  | nil => exact List.Perm.refl _
  | cons pair m ih =>
    obtain ⟨k, us⟩ := pair
    unfold UnitsByLvl.push
    split_ifs with hlt heq
    · exact (List.perm_append_singleton _ _).symm
    · subst heq
      simp only [UnitsByLvl.entries, List.flatMap_cons, List.map_append, List.map_cons,
        List.map_nil]
      exact perm_append_right_comm _ _ _
    · simp only [UnitsByLvl.entries, List.flatMap_cons, List.append_assoc] at ih ⊢
      exact ih.append_left _

section Push

variable {m : UnitsByLvl} {lvl k : ℤ} {u : NodesMapDiffUnit}

theorem mem_push {p : ℤ × List NodesMapDiffUnit} (hp : p ∈ m.push lvl u) :
    p.1 = lvl ∨ ∃ q ∈ m, q.1 = p.1 := by
  induction m with
  | nil =>
    rw [List.mem_singleton.mp hp]
    exact .inl rfl
  | cons pair m ih =>
    obtain ⟨k, us⟩ := pair
    unfold UnitsByLvl.push at hp
    split_ifs at hp with hlt heq
    · rcases List.mem_cons.mp hp with rfl | hp
      · exact .inl rfl
      · exact .inr ⟨p, hp, rfl⟩
    · rcases List.mem_cons.mp hp with rfl | hp
      · exact .inl heq.symm
      · exact .inr ⟨p, List.mem_cons_of_mem _ hp, rfl⟩
    · rcases List.mem_cons.mp hp with rfl | hp
      · exact .inr ⟨_, List.mem_cons_self, rfl⟩
      · exact (ih hp).imp id fun ⟨q, hq, hpq⟩ => ⟨q, List.mem_cons_of_mem _ hq, hpq⟩

theorem ascending_push (h : m.Pairwise fun p q => p.1 < q.1) :
    (m.push lvl u).Pairwise fun p q => p.1 < q.1 := by
  induction m with
  | nil => exact List.pairwise_singleton _ _
  | cons pair m ih =>
    obtain ⟨k, us⟩ := pair
    obtain ⟨hfirst, hrest⟩ := List.pairwise_cons.mp h
    unfold UnitsByLvl.push
    split_ifs with hlt heq
    · refine List.pairwise_cons.mpr ⟨fun q hq => ?_, h⟩
      rcases List.mem_cons.mp hq with rfl | hq
      · exact hlt
      · have hq : k < q.1 := hfirst q hq
        show lvl < q.1
        omega
    · exact List.pairwise_cons.mpr ⟨hfirst, hrest⟩
    · refine List.pairwise_cons.mpr ⟨fun q hq => ?_, ih hrest⟩
      rcases mem_push hq with hq | ⟨q', hq', hqq⟩
      · show k < q.1
        omega
      · exact hqq ▸ hfirst q' hq'

theorem filter_connects_eq_nil (h : ∀ p ∈ m, p.1 ≠ k) :
    (UnitsByLvl.entries .connect m).filter (·.lvl = k) = [] := by
  refine List.filter_eq_nil_iff.mpr fun e he => ?_
  obtain ⟨p, hp, he⟩ := List.mem_flatMap.mp he
  obtain ⟨u, -, rfl⟩ := List.mem_map.mp he
  rw [decide_eq_true_eq]
  exact h p hp

/-- A unit and units of later keys, in either order. -/
theorem filter_connects_comm (h : ∀ p ∈ m, lvl < p.1) :
    ([Entry.connect lvl u] ++ UnitsByLvl.entries .connect m).filter (·.lvl = k) =
      (UnitsByLvl.entries .connect m ++ [Entry.connect lvl u]).filter (·.lvl = k) := by
  rw [List.filter_append, List.filter_append]
  by_cases hk : lvl = k
  · rw [filter_connects_eq_nil fun p hp hpk => absurd (h p hp) (by omega), List.append_nil,
      List.nil_append]
  · have hnone : [Entry.connect lvl u].filter (·.lvl = k) = [] :=
      List.filter_eq_nil_iff.mpr fun e he => by
        rw [List.mem_singleton.mp he, decide_eq_true_eq]
        exact hk
    rw [hnone, List.nil_append, List.append_nil]

/-- A new unit comes last among those of its key. -/
theorem filter_connects_push (h : m.Pairwise fun p q => p.1 < q.1) :
    (UnitsByLvl.entries .connect (m.push lvl u)).filter (·.lvl = k) =
      (UnitsByLvl.entries .connect m ++ [Entry.connect lvl u]).filter (·.lvl = k) := by
  induction m with
  | nil => rfl
  | cons pair m ih =>
    obtain ⟨k', us⟩ := pair
    obtain ⟨hfirst, hrest⟩ := List.pairwise_cons.mp h
    have hcons (us : List NodesMapDiffUnit) (m : UnitsByLvl) :
        UnitsByLvl.entries .connect ((k', us) :: m) =
          us.map (Entry.connect k') ++ UnitsByLvl.entries .connect m := List.flatMap_cons
    unfold UnitsByLvl.push
    split_ifs with hlt heq
    · have hlater : ∀ p ∈ (k', us) :: m, lvl < p.1 := by
        intro p hp
        rcases List.mem_cons.mp hp with rfl | hp
        · exact hlt
        · have hp : k' < p.1 := hfirst p hp
          omega
      exact filter_connects_comm hlater
    · subst heq
      rw [hcons, hcons, List.map_append, List.append_assoc, List.append_assoc, List.filter_append]
      conv_rhs => rw [List.filter_append]
      exact congrArg (_ ++ ·) (filter_connects_comm hfirst)
    · rw [hcons, hcons, List.append_assoc, List.filter_append, List.filter_append, ih hrest]

end Push

variable {g g' h s : NodeGraph} {lvl : ℕ} {diff d : NodesMapDiff} {u : NodesMapDiffUnit}
  {π : Path} {x : PeerId}

/-! ### What a unit adds -/

/-- The ids below a unit, down a path. -/
def idsBelow (g : NodeGraph) : Path → List PeerId
  | [] => []
  | i :: π =>
    match g.children[i]? with
    | none => []
    | some c => c.value.id :: idsBelow c π

/-- The ids from a unit up to `IamRoot`. -/
def idsTo (g : NodeGraph) (π : Path) : List PeerId := (idsBelow g π).reverse ++ [g.value.id]

/-- What the loop body adds to the connected and to the disconnected units. -/
inductive Adds (g : NodeGraph) : ℕ × NodesMapDiffUnit → List Entry → List Entry → Prop
  | own {lvl : ℕ} {u : NodesMapDiffUnit} (hown : u.id = g.value.id) : Adds g (lvl, u) [] []
  | near {lvl : ℕ} {u : NodesMapDiffUnit} {π : Path} (hown : u.id ≠ g.value.id)
      (hf : findInGraph g u.id = some π) (hlvl : lvlAt g π ≤ lvl) : Adds g (lvl, u) [] []
  | stray {lvl : ℕ} {u : NodesMapDiffUnit} {back : PeerId} (hown : u.id ≠ g.value.id)
      (hf : findInGraph g u.id = none) (hu : u.parentIds.getLast? = some back)
      (hb : findInGraph g back = none) : Adds g (lvl, u) [] []
  | attach {lvl : ℕ} {u : NodesMapDiffUnit} {back : PeerId} {f : Path} (hown : u.id ≠ g.value.id)
      (hf : findInGraph g u.id = none) (hu : u.parentIds.getLast? = some back)
      (hb : findInGraph g back = some f) (hne : f ≠ []) (hlen : f.length ≤ 2) :
      Adds g (lvl, u) [.connect f.length ⟨u.id, idsTo g f⟩] []
  | move {u : NodesMapDiffUnit} {back : PeerId} {f : Path} {a b c : ℕ} {p₀ p₁ : NodeUnit}
      (hown : u.id ≠ g.value.id) (hf : findInGraph g u.id = some [a, b, c])
      (h₀ : g.get? [a] = some p₀) (h₁ : g.get? [a, b] = some p₁) (hu : u.parentIds = [back])
      (hb : findInGraph g back = some f) :
      Adds g (1, u) [.connect 1 ⟨u.id, [back, g.value.id]⟩]
        [.disconnect 2 ⟨u.id, [u.id, p₀.id, p₁.id]⟩]

theorem connects_connect (hgr : diff.Grouped) (lvl : ℤ) (u : NodesMapDiffUnit) :
    Regrouped (diff.connect lvl u).connects (diff.connects ++ [.connect lvl u]) ∧
      (diff.connect lvl u).Grouped :=
  ⟨⟨entries_push .connect diff.connectedBylvls lvl u, fun _ => filter_connects_push hgr.ascending⟩,
    ascending_push hgr.ascending, hgr.underLast⟩

theorem lvlAt_of_levelled (hg : Levelled g) (hs : g.sub π = some s) : lvlAt g π = π.length - 1 := by
  rw [lvlAt_of_get? (get?_of_sub hs)]
  exact hg.lvl π _ (get?_of_sub hs)

theorem findInGraph_own (g : NodeGraph) : findInGraph g g.value.id = some [] :=
  findInGraph_eq_some.mpr ⟨⟨g.value, get?_nil g, rfl⟩, fun ρ _ _ _ => not_precedes_nil ρ⟩

/-- A search that starts at the unit it found stays there. -/
theorem findInGraph_at (hf : findInGraph g x = some π) (hs : g.sub π = some s) :
    findInGraph s x = some [] := by
  rw [← id_of_findInGraph hf hs]
  exact findInGraph_own s

theorem not_lvlAt_le {a b c : ℕ} (hg : Levelled g) (hf : findInGraph g x = some [a, b, c]) :
    ¬ lvlAt g [a, b, c] ≤ (1 : ℕ) := by
  obtain ⟨s, hs, -⟩ := exists_sub_of_findInGraph hf
  rw [lvlAt_of_levelled hg hs]
  simp only [List.length_cons, List.length_nil]
  omega

/-- The chain of a unit two links below a neighbour. -/
theorem fillChain_of_get? {a b c : ℕ} {v : NodeUnit} (h : g.get? [a, b, c] = some v) :
    ∃ p₀ p₁, g.get? [a] = some p₀ ∧ g.get? [a, b] = some p₁ ∧
      fillChain g [a, b, c] = some [p₁.id, p₀.id] := by
  obtain ⟨t, ht, h⟩ := get?_cons_eq_some.mp h
  obtain ⟨r, hr, h⟩ := get?_cons_eq_some.mp h
  obtain ⟨s, hs, -⟩ := get?_cons_eq_some.mp h
  refine ⟨t.value, r.value, get?_cons_eq_some.mpr ⟨t, ht, get?_nil t⟩,
    get?_cons_eq_some.mpr ⟨t, ht, get?_cons_eq_some.mpr ⟨r, hr, get?_nil r⟩⟩, ?_⟩
  unfold fillChain
  simp only [List.getLast?_cons_cons, List.getLast?_singleton, fillChain.parents, ht, hr, hs]
  rfl

theorem moveUnit_adds (hg : Levelled g) (hown : u.id ≠ g.value.id)
    (hf : findInGraph g u.id = some π) (hlvl : ¬ lvlAt g π ≤ lvl)
    (hgr : diff.Grouped) (hd : moveUnit g lvl diff u π = .ok d) :
    ∃ cs ds, Adds g (lvl, u) cs ds ∧ Regrouped d.connects (diff.connects ++ cs) ∧
      d.Grouped ∧ d.disconnects = diff.disconnects ++ ds := by
  obtain ⟨s, hs, -⟩ := exists_sub_of_findInGraph hf
  have hdepth := hg.depth π _ (get?_of_sub hs)
  have hlvlAt := lvlAt_of_levelled hg hs
  rw [hlvlAt, Int.not_le] at hlvl
  unfold maxLvl at hdepth
  unfold moveUnit at hd
  cases hback : u.parentIds.getLast? with
  | none =>
    rw [hback] at hd
    cases hd
  | some back =>
    simp only [hback] at hd
    cases hb : findInGraph g back with
    | none =>
      rw [hb] at hd
      cases hd
    | some f =>
      simp only [hb] at hd
      -- three reported parents would be too many for a level below that of the unit
      have hpids : u.parentIds.length ≠ maxLvl + 1 := by
        intro hlen
        rw [if_pos hlen, if_pos (by
          rw [List.length_append, List.length_tail, hlen, List.length_singleton]
          unfold maxLvl
          omega)] at hd
        cases hd
      rw [if_neg hpids] at hd
      split_ifs at hd with hlen
      rw [List.length_append, List.length_singleton, not_not] at hlen
      obtain ⟨ids, hids⟩ := List.getLast?_eq_some_iff.mp hback
      have hids' := congrArg List.length hids
      rw [List.length_append, List.length_singleton] at hids'
      obtain rfl : lvl = 1 := by omega
      obtain rfl : ids = [] := List.length_eq_zero_iff.mp (by omega)
      obtain ⟨a, b, c, rfl⟩ : ∃ a b c, π = [a, b, c] := List.length_eq_three.mp (by omega)
      obtain ⟨p₀, p₁, h₀, h₁, hchain⟩ := fillChain_of_get? (get?_of_sub hs)
      simp only [hchain] at hd
      obtain rfl := Except.ok.inj hd
      obtain ⟨hcs, hgr⟩ := connects_connect hgr ((1 : ℕ) : ℤ) ⟨u.id, u.parentIds ++ [g.value.id]⟩
      rw [hlvlAt]
      obtain ⟨hlast, hds⟩ := hgr.underLast.disconnect ⟨u.id, u.id :: [p₀.id, p₁.id]⟩
      refine ⟨_, _, .move hown hf h₀ h₁ hids hb, ?_, ⟨hgr.ascending, hlast⟩, hds⟩
      rw [hids] at hcs ⊢
      exact hcs

/-- The chain of a unit that is not deeper than one link below a neighbour. -/
theorem fillChain_of_length_le {f : Path} {t : NodeGraph} (ht : g.sub f = some t) (hne : f ≠ [])
    (hlen : f.length ≤ 2) :
    ∃ vv, fillChain g f = some vv ∧ vv.length = f.length ∧ vv.getLast? = some g.value.id ∧
      idsTo g f = t.value.id :: vv := by
  rcases f with _ | ⟨i, _ | ⟨j, _ | ⟨k, f⟩⟩⟩
  · exact absurd rfl hne
  · rw [sub_singleton] at ht
    refine ⟨[g.value.id], ?_, rfl, rfl, ?_⟩
    · unfold fillChain
      simp only [List.getLast?_singleton, fillChain.parents, ht]
      rfl
    · simp only [idsTo, idsBelow, ht, List.reverse_singleton, List.singleton_append]
  · obtain ⟨c, hc, ht⟩ := sub_cons_eq_some.mp ht
    rw [sub_singleton] at ht
    refine ⟨[c.value.id, g.value.id], ?_, rfl, rfl, ?_⟩
    · unfold fillChain
      simp only [List.getLast?_cons_cons, List.getLast?_singleton, fillChain.parents, hc, ht]
      rfl
    · simp only [idsTo, idsBelow, hc, ht, List.reverse_cons, List.reverse_nil, List.nil_append,
        List.cons_append]
  · simp only [List.length_cons] at hlen
    omega

theorem eq_of_unless_eq_ok {α : Type} {p : Prop} [Decidable p] {F : GraphFault} {a b : α}
    (h : (if p then .error F else .ok a) = (.ok b : Except GraphFault α)) : b = a := by
  split_ifs at h
  exact (Except.ok.inj h).symm

theorem attachUnit_adds (hg : Levelled g) (ho : Orderly g.value.id g) (hown : u.id ≠ g.value.id)
    (hf : findInGraph g u.id = none) (hgr : diff.Grouped) (hd : attachUnit g diff u = .ok d) :
    ∃ cs ds, Adds g (lvl, u) cs ds ∧ Regrouped d.connects (diff.connects ++ cs) ∧
      d.Grouped ∧ d.disconnects = diff.disconnects ++ ds := by
  unfold attachUnit at hd
  cases hback : u.parentIds.getLast? with
  | none =>
    rw [hback] at hd
    cases hd
  | some back =>
    simp only [hback] at hd
    cases hb : findInGraph g back with
    | none =>
      rw [hb] at hd
      obtain rfl := Except.ok.inj hd
      exact ⟨[], [], .stray hown hf hback hb, by rw [List.append_nil]; exact .refl _, hgr,
        (List.append_nil _).symm⟩
    | some f =>
      simp only [hb] at hd
      obtain ⟨t, ht, hid⟩ := exists_sub_of_findInGraph hb
      have hdepth := hg.depth f _ (get?_of_sub ht)
      unfold maxLvl at hdepth
      have hlvlAt := lvlAt_of_levelled hg ht
      have hne : f ≠ [] := by
        rintro rfl
        cases hd
      have hlen : f.length ≤ 2 := by
        by_contra hlen
        obtain ⟨i, j, k, rfl⟩ : ∃ i j k, f = [i, j, k] := List.length_eq_three.mp (by omega)
        obtain ⟨p₀, p₁, h₀, h₁, hchain⟩ := fillChain_of_get? (get?_of_sub ht)
        simp only [hchain, List.getLast?_cons_cons, List.getLast?_singleton] at hd
        by_cases hne : some p₀.id ≠ some g.value.id
        · rw [if_pos hne] at hd
          cases hd
        obtain ⟨c, hc, h₁⟩ := get?_cons_eq_some.mp h₁
        obtain ⟨e, he, -⟩ := get?_cons_eq_some.mp h₁
        obtain ⟨c', hc', h₀⟩ := get?_cons_eq_some.mp h₀
        obtain rfl := Option.some.inj (hc.symm.trans hc')
        rw [get?_nil] at h₀
        obtain rfl := Option.some.inj h₀
        have hown : c.value.id = g.value.id := Option.some.inj (not_not.mp hne)
        rw [(orderly_iff.mp ho).1.own c (List.mem_of_getElem? hc) hown] at he
        cases he
      obtain ⟨vv, hchain, hvv, hroot, hids⟩ := fillChain_of_length_le ht hne hlen
      have hshort : vv.length ≠ maxLvl + 1 := by
        unfold maxLvl
        omega
      simp only [hchain, hroot, ne_eq, not_true, if_false, if_neg hshort] at hd
      obtain rfl := eq_of_unless_eq_ok hd
      obtain ⟨hcs, hgr⟩ := connects_connect hgr ((f.length : ℕ) : ℤ) ⟨u.id, idsTo g f⟩
      rw [← hvv, hids, hid] at hcs hgr
      refine ⟨_, _, .attach hown hf hback hb hne hlen, ?_, hgr, (List.append_nil _).symm⟩
      rw [hids, hid, ← hvv]
      exact hcs

/-- **One unit** of an incoming map. -/
theorem diffConnected_adds (hg : Levelled g) (ho : Orderly g.value.id g)
    (hgr : diff.Grouped) (hd : diffConnected g lvl diff u = .ok d) :
    ∃ cs ds, Adds g (lvl, u) cs ds ∧ Regrouped d.connects (diff.connects ++ cs) ∧
      d.Grouped ∧ d.disconnects = diff.disconnects ++ ds := by
  unfold diffConnected at hd
  by_cases hown : u.id = g.value.id
  · rw [if_pos hown] at hd
    obtain rfl := Except.ok.inj hd
    exact ⟨[], [], .own hown, by rw [List.append_nil]; exact .refl _, hgr,
      (List.append_nil _).symm⟩
  · rw [if_neg hown] at hd
    cases hf : findInGraph g u.id with
    | none =>
      rw [hf] at hd
      exact attachUnit_adds hg ho hown hf hgr hd
    | some π =>
      simp only [hf] at hd
      split_ifs at hd with hlvl
      · obtain rfl := Except.ok.inj hd
        exact ⟨[], [], .near hown hf hlvl, by rw [List.append_nil]; exact .refl _, hgr,
          (List.append_nil _).symm⟩
      · exact moveUnit_adds hg hown hf hlvl hgr hd

/-- What the units of a map add, all together. -/
def AddsAll (g : NodeGraph) (es : List (ℕ × NodesMapDiffUnit)) (cs ds : List Entry) : Prop :=
  ∃ added : List (List Entry × List Entry),
    List.Forall₂ (fun e l => Adds g e l.1 l.2) es added ∧ Regrouped cs (added.flatMap Prod.fst) ∧
      ds = added.flatMap Prod.snd

theorem AddsAll.snoc {es : List (ℕ × NodesMapDiffUnit)} {e : ℕ × NodesMapDiffUnit}
    {cs ds cs' ds' cs₁ ds₁ : List Entry} (h : AddsAll g es cs ds) (he : Adds g e cs₁ ds₁)
    (hc : Regrouped cs' (cs ++ cs₁)) (hd : ds' = ds ++ ds₁) : AddsAll g (es ++ [e]) cs' ds' := by
  obtain ⟨added, hadds, hcs, hds⟩ := h
  refine ⟨added ++ [(cs₁, ds₁)], List.rel_append hadds (.cons he .nil), ?_, ?_⟩
  · rw [List.flatMap_append, List.flatMap_singleton]
    exact hc.trans (hcs.append_right cs₁)
  · rw [List.flatMap_append, List.flatMap_singleton, hd, hds]

/-- **A map**: its units with what each of them adds. -/
theorem createDiffConnectedBylvls_adds {RU : RoomMap} {incoming : IncomingMap}
    (hg : Levelled RU.iamRoot) (ho : Orderly RU.iamRoot.value.id RU.iamRoot)
    (hd : createDiffConnectedBylvls .empty RU incoming = .ok diff) :
    AddsAll RU.iamRoot (incomingUnits incoming) diff.connects diff.disconnects := by
  rw [createDiffConnectedBylvls_eq, Lts.foldlM_eq_ok_iff] at hd
  suffices H : diff.Grouped ∧
      AddsAll RU.iamRoot (incomingUnits incoming) diff.connects diff.disconnects from H.2
  refine hd.trace_invariant (I := fun es diff => NodesMapDiff.Grouped diff ∧
      AddsAll RU.iamRoot es diff.connects diff.disconnects)
    ⟨⟨.nil, .inl rfl⟩, [], .nil, .refl _, rfl⟩ fun es diff e d ⟨hgr, hadds⟩ he => ?_
  obtain ⟨cs, ds, hadd, hc, hgr', hdis⟩ := diffConnected_adds hg ho hgr he
  exact ⟨hgr', hadds.snoc hadd hc hdis⟩

/-- What comes of a map: nothing, or the room after the difference that is passed on. -/
theorem updateNodeMap_eq_ok {RU RU' : RoomMap} {connected disconnected : Option IncomingMap}
    {r : Option NodesMapDiff} (hu : updateNodeMap RU connected disconnected = .ok (RU', r)) :
    ∃ diff, createDiff RU connected disconnected = .ok diff ∧
      (diff = .empty ∧ RU' = RU ∧ r = none ∨
        diff ≠ .empty ∧ r = some diff ∧ RU.applyDiff diff = .ok RU') := by
  unfold updateNodeMap at hu
  cases hd : createDiff RU connected disconnected with
  | error F =>
    rw [hd] at hu
    cases hu
  | ok diff =>
    rw [hd] at hu
    refine ⟨diff, rfl, ?_⟩
    simp only [bind, Except.bind, pure, Except.pure] at hu
    by_cases hempty : diff = .empty
    · rw [if_pos hempty] at hu
      obtain ⟨rfl, rfl⟩ := Prod.mk.inj (Except.ok.inj hu)
      exact .inl ⟨hempty, rfl, rfl⟩
    · rw [if_neg hempty] at hu
      cases hRU : RU.onNodesMapDiff diff with
      | error F =>
        rw [hRU] at hu
        cases hu
      | ok RU₁ =>
        simp only [hRU] at hu
        split_ifs at hu
        obtain ⟨rfl, rfl⟩ := Prod.mk.inj (Except.ok.inj hu)
        exact .inr ⟨hempty, rfl, RoomMap.applyDiff_eq_ok.mpr ⟨RU₁, hRU, rfl⟩⟩

theorem createDiff_connected (RU : RoomMap) (incoming : IncomingMap) :
    createDiff RU (some incoming) none = createDiffConnectedBylvls .empty RU incoming := by
  simp only [createDiff, bind, Except.bind, pure, Except.pure]
  cases createDiffConnectedBylvls .empty RU incoming <;> rfl

theorem updateNodeMap_eq_none_iff {RU : RoomMap} {connected disconnected : Option IncomingMap} :
    updateNodeMap RU connected disconnected = .ok (RU, none) ↔
      createDiff RU connected disconnected = .ok .empty := by
  constructor
  · intro hu
    obtain ⟨diff, hd, ⟨rfl, -, -⟩ | ⟨-, hr, -⟩⟩ := updateNodeMap_eq_ok hu
    · exact hd
    · cases hr
  · intro hd
    unfold updateNodeMap
    rw [hd]
    rfl

theorem foldlM_entries_of_updateNodeMap {RU RU' : RoomMap} {incoming : IncomingMap}
    {r : Option NodesMapDiff} (hu : updateNodeMap RU (some incoming) none = .ok (RU', r)) :
    ∃ diff, createDiffConnectedBylvls .empty RU incoming = .ok diff ∧
      diff.entries.foldlM Entry.onGraph RU.iamRoot = .ok RU'.iamRoot := by
  obtain ⟨diff, hd, hcase⟩ := updateNodeMap_eq_ok hu
  rw [createDiff_connected] at hd
  refine ⟨diff, hd, ?_⟩
  rcases hcase with ⟨rfl, rfl, -⟩ | ⟨-, -, happly⟩
  · rfl
  · exact (run_along_iff.mp (RoomMap.run_of_applyDiff happly)).1

namespace AddsAll

variable {es : List (ℕ × NodesMapDiffUnit)} {cs ds : List Entry}

theorem exists_of_mem (h : AddsAll g es cs ds) {e : ℕ × NodesMapDiffUnit} (he : e ∈ es) :
    ∃ cs' ds', Adds g e cs' ds' ∧ cs' ⊆ cs ∧ ds' ⊆ ds := by
  obtain ⟨added, hadds, hcs, hds⟩ := h
  obtain ⟨l, hl, hadd⟩ := Lts.exists_of_forall₂_left hadds he
  exact ⟨l.1, l.2, hadd, fun c hc => hcs.perm.mem_iff.mpr (List.mem_flatMap.mpr ⟨l, hl, hc⟩),
    fun d hd => hds ▸ List.mem_flatMap.mpr ⟨l, hl, hd⟩⟩

theorem exists_of_connect (h : AddsAll g es cs ds) {c : Entry} (hc : c ∈ cs) :
    ∃ e ∈ es, ∃ cs' ds', Adds g e cs' ds' ∧ c ∈ cs' := by
  obtain ⟨added, hadds, hcs, -⟩ := h
  obtain ⟨l, hl, hc⟩ := List.mem_flatMap.mp (hcs.perm.mem_iff.mp hc)
  obtain ⟨e, he, hadd⟩ := Lts.exists_of_forall₂_right hadds hl
  exact ⟨e, he, l.1, l.2, hadd, hc⟩

theorem exists_of_disconnect (h : AddsAll g es cs ds) {d : Entry} (hd : d ∈ ds) :
    ∃ e ∈ es, ∃ cs' ds', Adds g e cs' ds' ∧ d ∈ ds' := by
  obtain ⟨added, hadds, -, hds⟩ := h
  rw [hds] at hd
  obtain ⟨l, hl, hd⟩ := List.mem_flatMap.mp hd
  obtain ⟨e, he, hadd⟩ := Lts.exists_of_forall₂_right hadds hl
  exact ⟨e, he, l.1, l.2, hadd, hd⟩

end AddsAll

end Yamb
