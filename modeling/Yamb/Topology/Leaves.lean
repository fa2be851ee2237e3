import Yamb.Topology.Update

/-!
# What an incoming map does to the graph

`OnNodesMapDiff` for the difference that `createDiffConnectedBylvls` makes: the connected units
become leaves, and a unit that is to be cut off is looked for along a chain in the wrong order.

* `followChain_push`, `findInGraphByChain_idsTo`: a chain leads where it led before there were new
  leaves;
* `Leafed`, `leafed_of_connects`: the graph with the new leaves; `get?_of_connects`: in their order;
* `Twin`, `Moved`, **`eq_of_disconnects`**: a unit that has moved is not found where it was, unless
  the two units above it have the same id.
-/

set_option autoImplicit false

namespace Yamb

open RoseTree

variable {g g' h h' t s : NodeGraph} {lvl : ℤ} {u : NodesMapDiffUnit} {π ρ : Path}
  {x myId : PeerId} {xs : List PeerId} {e : Entry} {es cs ds : List Entry}

/-! ### Chains -/

theorem map_value_modify {l : List NodeGraph} {f : NodeGraph → NodeGraph} (i : ℕ)
    (hf : ∀ c, (f c).value = c.value) : (l.modify i f).map value = l.map value := by
  apply List.ext_getElem?
  intro k
  rw [List.getElem?_map, List.getElem?_map, List.getElem?_modify]
  cases l[k]? with
  | none => rfl
  | some c =>
    show some (if i = k then f c else c).value = some c.value
    split_ifs
    · rw [hf]
    · rfl

/-- The search among children looks at their values alone. -/
theorem findIdx?_congr {l m : List NodeGraph} (hlm : l.map value = m.map value) (x : PeerId) :
    (l.findIdx? fun d => d.value.id = x) = m.findIdx? fun d => d.value.id = x := by
  have hmap (l : List NodeGraph) : (l.findIdx? fun d => d.value.id = x) =
      (l.map value).findIdx? fun v => v.id = x := by
    rw [List.findIdx?_map]
    rfl
  rw [hmap, hmap, hlm]

/-- New children come last, so a chain passes them by. -/
theorem followChain_push (hπ : followChain myId t xs = some π) (hs : t.sub ρ = some s)
    (v : NodeUnit) : followChain myId (t.push (.node v []) ρ) xs = some π := by
  induction xs generalizing t π ρ with
  | nil => exact hπ
  | cons x xs ih =>
    by_cases hx : myId = x
    · rw [followChain, if_pos hx] at hπ ⊢
      exact ih hπ hs
    · obtain ⟨i, c, σ, hi, hc, hσ, rfl⟩ := (followChain_cons_eq_some hx).mp hπ
      refine (followChain_cons_eq_some hx).mpr ?_
      cases ρ with
      | nil =>
        rw [push_nil, children_node]
        obtain ⟨hlt, -⟩ := List.getElem?_eq_some_iff.mp hc
        refine ⟨i, c, σ, ?_, ?_, hσ, rfl⟩
        · rw [List.findIdx?_append, hi, Option.some_or]
        · rw [List.getElem?_append_left hlt, hc]
      | cons k ρ =>
        obtain ⟨d, hd, hs⟩ := sub_cons_eq_some.mp hs
        rw [push_cons, children_node,
          findIdx?_congr (map_value_modify k fun c => value_push c _ ρ)]
        by_cases hk : k = i
        · subst hk
          obtain rfl := Option.some.inj (hc.symm.trans hd)
          refine ⟨k, c.push (.node v []) ρ, σ, hi, ?_, ih hσ hs, rfl⟩
          rw [List.getElem?_modify_eq, hc]
          rfl
        · refine ⟨i, c, σ, hi, ?_, hσ, rfl⟩
          rw [List.getElem?_modify, hc, Option.map_eq_map, Option.map_some, if_neg hk]

/-- The chain of the first unit with an id leads to that unit. -/
theorem followChain_idsBelow (ht : Orderly myId t) (hf : findInGraph t x = some π)
    (hx : x ≠ myId) : followChain myId t (idsBelow t π) = some π := by
  induction π generalizing t with
  | nil => rfl
  | cons i π ih =>
    obtain ⟨⟨v, hv, hid⟩, hfirst⟩ := findInGraph_eq_some.mp hf
    obtain ⟨c, hc, hv⟩ := get?_cons_eq_some.mp hv
    obtain ⟨hat, hbelow⟩ := orderly_iff.mp ht
    have hσ : findInGraph c x = some π := by
      refine findInGraph_eq_some.mpr ⟨⟨v, hv, hid⟩, fun ρ w hw hwx hlt => ?_⟩
      exact hfirst (i :: ρ) w (get?_cons_eq_some.mpr ⟨c, hc, hw⟩) hwx (.inr ⟨rfl, hlt⟩)
    -- no sibling before it has the id of the child: it would come first, or have the children
    have hchild : c.value.id ≠ myId ∧
        ∀ j < i, ∀ d, t.children[j]? = some d → d.value.id ≠ c.value.id := by
      cases π with
      | nil =>
        rw [get?_nil] at hv
        obtain rfl := Option.some.inj hv
        refine ⟨fun hown => hx (hid.symm.trans hown), fun j hj d hd hsame => ?_⟩
        exact hfirst [j] d.value (get?_cons_eq_some.mpr ⟨d, hd, get?_nil d⟩) (hsame.trans hid)
          (.inl hj)
      | cons k π =>
        have hne : c.children ≠ [] := by
          intro hnone
          obtain ⟨d, hd, -⟩ := get?_cons_eq_some.mp hv
          rw [hnone] at hd
          cases hd
        refine ⟨fun hown => hne (hat.own c (List.mem_of_getElem? hc) hown),
          fun j hj d hd hsame => hne ?_⟩
        exact pairwise_first_iff.mp hat.first j i d c hj hd hc hsame
    obtain ⟨hown, hbefore⟩ := hchild
    simp only [idsBelow, hc]
    refine (followChain_cons_eq_some (Ne.symm hown)).mpr ⟨i, c, π, ?_, hc,
      ih (hbelow c (List.mem_of_getElem? hc)) hσ, rfl⟩
    obtain ⟨hlt, rfl⟩ := List.getElem?_eq_some_iff.mp hc
    refine List.findIdx?_eq_some_iff_getElem.mpr ⟨hlt, decide_eq_true rfl, fun j hj => ?_⟩
    rw [decide_eq_true_eq]
    exact hbefore j hj _ (List.getElem?_eq_getElem (hj.trans hlt))

theorem findInGraphByChain_idsTo (hg : Orderly g.value.id g) (hf : findInGraph g x = some π)
    (hne : π ≠ []) : findInGraphByChain g (idsTo g π) = some π := by
  have hx : x ≠ g.value.id := by
    rintro rfl
    obtain ⟨-, hfirst⟩ := findInGraph_eq_some.mp hf
    cases π with
    | nil => exact hne rfl
    | cons i π => exact hfirst [] g.value (get?_nil g) rfl (nil_precedes_cons i π)
  unfold findInGraphByChain idsTo
  rw [List.reverse_append, List.reverse_reverse, List.reverse_singleton, List.singleton_append,
    followChain, if_pos rfl]
  exact followChain_idsBelow hg hf hx

/-! ### New leaves -/

/-- The connected units are leaves below the units their chains lead to, after the children that were
there. -/
structure Leafed (g h : NodeGraph) (es : List Entry) : Prop where
  value_eq : h.value = g.value
  neighbours : h.children.map value = g.children.map value
  chains : ∀ xs π, followChain g.value.id g xs = some π → followChain g.value.id h xs = some π
  old : ∀ π v, g.get? π = some v → h.get? π = some v
  new : ∀ lvl u f s, .connect lvl u ∈ es → findInGraphByChain g u.parentIds = some f →
    g.sub f = some s → ∃ i v, s.children.length ≤ i ∧ h.get? (f ++ [i]) = some v ∧ v.id = u.id
  only : ∀ π v, h.get? π = some v → g.get? π = some v ∨ ∃ lvl u f s i, .connect lvl u ∈ es ∧
    findInGraphByChain g u.parentIds = some f ∧ g.sub f = some s ∧ s.children.length ≤ i ∧
      π = f ++ [i] ∧ v.id = u.id

/-- The chain leads below `IamRoot`, or to a neighbour if it leads anywhere. -/
inductive Below (g : NodeGraph) : Entry → Prop
  | chain {lvl : ℤ} {u : NodesMapDiffUnit} {f : Path}
      (hf : findInGraphByChain g u.parentIds = some f) (hne : f ≠ []) : Below g (.connect lvl u)
  | neighbour {x back : PeerId} : Below g (.connect 1 ⟨x, [back, g.value.id]⟩)

theorem findInGraphByChain_pair {back : PeerId} (hback : back ≠ g.value.id) :
    findInGraphByChain g [back, g.value.id] = some π ↔
      ∃ i, g.children.findIdx? (fun d => d.value.id = back) = some i ∧ π = [i] := by
  unfold findInGraphByChain
  rw [List.reverse_cons, List.reverse_singleton, List.singleton_append, followChain, if_pos rfl,
    followChain_cons_eq_some (Ne.symm hback)]
  constructor
  · rintro ⟨i, c, ρ, hi, -, hρ, rfl⟩
    obtain rfl := Option.some.inj hρ
    exact ⟨i, hi, rfl⟩
  · rintro ⟨i, hi, rfl⟩
    obtain ⟨hlt, -⟩ := List.findIdx?_eq_some_iff_getElem.mp hi
    exact ⟨i, g.children[i], [], hi, List.getElem?_eq_getElem hlt, rfl, rfl⟩

theorem findInGraphByChain_own (g : NodeGraph) :
    findInGraphByChain g [g.value.id, g.value.id] = some [] := by
  unfold findInGraphByChain
  rw [List.reverse_cons, List.reverse_singleton, List.singleton_append, followChain, if_pos rfl,
    followChain, if_pos rfl, followChain]

/-- A chain that leads somewhere now did so before there were new leaves. -/
theorem Leafed.chain (hl : Leafed g h es) (hg : Levelled g) {k : ℤ} (hb : Below g (.connect k u))
    (hπ : findInGraphByChain h u.parentIds = some π) (hs : h.sub π = some s)
    (hlvl : (clampLvl k : ℤ) = s.value.lvl + 1) :
    findInGraphByChain g u.parentIds = some π ∧ π ≠ [] := by
  cases hb with
  | chain hf hne =>
    unfold findInGraphByChain at hπ
    rw [hl.value_eq] at hπ
    obtain rfl := Option.some.inj ((hl.chains _ _ hf).symm.trans hπ)
    exact ⟨hf, hne⟩
  | @neighbour x back =>
    have hπ : findInGraphByChain h [back, g.value.id] = some π := hπ
    rw [← hl.value_eq] at hπ
    by_cases hback : back = h.value.id
    · subst hback
      rw [findInGraphByChain_own] at hπ
      obtain rfl := Option.some.inj hπ
      rw [sub_nil] at hs
      obtain rfl := Option.some.inj hs
      have hroot := hg.lvl [] g.value (get?_nil g)
      have hone : clampLvl 1 = 1 := rfl
      rw [hl.value_eq, hroot, hone] at hlvl
      simp only [List.length_nil] at hlvl
      omega
    · obtain ⟨i, hi, rfl⟩ := (findInGraphByChain_pair hback).mp hπ
      rw [hl.value_eq] at hback
      rw [findIdx?_congr hl.neighbours] at hi
      exact ⟨(findInGraphByChain_pair hback).mpr ⟨i, hi, rfl⟩, List.cons_ne_nil i []⟩

theorem leafed_self (g : NodeGraph) : Leafed g g [] where
  value_eq := rfl
  neighbours := rfl
  chains := fun _ _ h => h
  old := fun _ _ h => h
  new := fun _ _ _ _ hmem => absurd hmem List.not_mem_nil
  only := fun _ _ h => .inl h

theorem Leafed.length_le (hl : Leafed g h es) {s₀ : NodeGraph} (hs₀ : g.sub π = some s₀)
    (hs : h.sub π = some s) : s₀.children.length ≤ s.children.length := by
  by_contra hlt
  rw [Nat.not_le] at hlt
  have hget : g.get? (π ++ [s.children.length]) = some (s₀.children[s.children.length]).value := by
    rw [get?_append_of_sub hs₀]
    exact get?_cons_eq_some.mpr ⟨_, List.getElem?_eq_getElem hlt, get?_nil _⟩
  have hget := hl.old _ _ hget
  rw [get?_append_of_sub hs] at hget
  obtain ⟨c, hc, -⟩ := get?_cons_eq_some.mp hget
  rw [List.getElem?_eq_none (Nat.le_refl _)] at hc
  cases hc

theorem Leafed.connectUnit_cases (hl : Leafed g h es) (hg : Levelled g) {k : ℤ}
    (hb : Below g (.connect k u)) (hh : connectUnit h (clampLvl k) u = .ok h') :
    ∃ π s, h.sub π = some s ∧ h' = h.push (.node ⟨clampLvl k, u.id⟩ []) π ∧
      findInGraphByChain g u.parentIds = some π ∧ π ≠ [] := by
  obtain ⟨π, s, hs, rfl, hlvl, -, hπ⟩ := Yamb.connectUnit_cases hh
  have hπ : findInGraphByChain h u.parentIds = some π := by
    refine hπ.resolve_left ?_
    rintro ⟨hnil, -⟩
    cases hb with
    | chain hf hne =>
      rw [hnil] at hf
      exact hne (Option.some.inj hf).symm
    | neighbour => cases hnil
  obtain ⟨hf, hne⟩ := hl.chain hg hb hπ hs hlvl
  exact ⟨π, s, hs, rfl, hf, hne⟩

theorem Leafed.connect (hl : Leafed g h es) (hg : Levelled g) {k : ℤ}
    (hb : Below g (.connect k u)) (hh : connectUnit h (clampLvl k) u = .ok h') :
    Leafed g h' (es ++ [.connect k u]) := by
  obtain ⟨π, s, hs, rfl, hf, hne⟩ := hl.connectUnit_cases hg hb hh
  obtain ⟨s₀, hs₀⟩ := exists_sub_of_followChain hf
  have hnew := get?_append_eq_none hs (Nat.le_refl _)
  have hkeep {ρ : Path} {v : NodeUnit} (hv : h.get? ρ = some v) :
      (h.push (.node ⟨clampLvl k, u.id⟩ []) π).get? ρ = some v := by
    rw [get?_push_leaf hs, if_neg, hv]
    rintro rfl
    rw [hnew] at hv
    cases hv
  constructor
  · rw [value_push, hl.value_eq]
  · obtain ⟨i, π, rfl⟩ := List.exists_cons_of_ne_nil hne
    rw [push_cons, children_node, map_value_modify i fun c => value_push c _ π,
      hl.neighbours]
  · exact fun xs σ hσ => followChain_push (hl.chains xs σ hσ) hs _
  · exact fun ρ v hv => hkeep (hl.old ρ v hv)
  · intro k' u' f s' hmem hf' hs'
    rcases List.mem_append.mp hmem with hmem | hmem
    · obtain ⟨i, v, hi, hv, hid⟩ := hl.new k' u' f s' hmem hf' hs'
      exact ⟨i, v, hi, hkeep hv, hid⟩
    · cases List.mem_singleton.mp hmem
      obtain rfl := Option.some.inj (hf.symm.trans hf')
      obtain rfl := Option.some.inj (hs₀.symm.trans hs')
      exact ⟨s.children.length, _, hl.length_le hs₀ hs, by rw [get?_push_leaf hs, if_pos rfl], rfl⟩
  · intro ρ v hv
    rw [get?_push_leaf hs] at hv
    split_ifs at hv with hρ
    · obtain rfl := Option.some.inj hv
      exact .inr ⟨k, u, π, s₀, s.children.length, List.mem_append_right _ List.mem_cons_self, hf, hs₀,
        hl.length_le hs₀ hs, hρ, rfl⟩
    · rcases hl.only ρ v hv with hold | ⟨k', u', f, s', i, hmem, hrest⟩
      · exact .inl hold
      · exact .inr ⟨k', u', f, s', i, List.mem_append_left _ hmem, hrest⟩

theorem Below.exists_connect (hb : Below g e) : ∃ k u, e = .connect k u := by
  cases hb with
  | chain => exact ⟨_, _, rfl⟩
  | neighbour => exact ⟨_, _, rfl⟩

/-- **The connected units become leaves.** -/
theorem leafed_of_connects (hg : Levelled g) (hes : ∀ e ∈ es, Below g e)
    (hh : es.foldlM Entry.onGraph g = .ok h) : Leafed g h es := by
  rw [Lts.foldlM_eq_ok_iff] at hh
  refine hh.trace_invariant (I := fun es h => (∀ e ∈ es, Below g e) → Leafed g h es)
    (fun _ => leafed_self g) ?_ hes
  intro es h e h' hl he hes
  have hb := hes e (List.mem_append_right _ List.mem_cons_self)
  obtain ⟨k, u, rfl⟩ := hb.exists_connect
  exact (hl fun e he => hes e (List.mem_append_left _ he)).connect hg hb he

/-- The ids that entries connect to the unit at a path, one after the other. -/
def joinedIds (g : NodeGraph) (es : List Entry) (f : Path) : List PeerId :=
  es.filterMap fun
    | .connect _ u => if findInGraphByChain g u.parentIds = some f then some u.id else none
    | .disconnect _ _ => none

theorem joinedIds_append (g : NodeGraph) (es es' : List Entry) (f : Path) :
    joinedIds g (es ++ es') f = joinedIds g es f ++ joinedIds g es' f := List.filterMap_append

theorem joinedIds_singleton {k : ℤ} {f : Path} : joinedIds g [.connect k u] f =
    if findInGraphByChain g u.parentIds = some f then [u.id] else [] := by
  unfold joinedIds
  rw [List.filterMap_cons]
  by_cases hf : findInGraphByChain g u.parentIds = some f
  · simp only [if_pos hf, List.filterMap_nil]
  · simp only [if_neg hf, List.filterMap_nil]

theorem map_id_get?_append (hs : h.sub π = some s) (i : ℕ) :
    (h.get? (π ++ [i])).map NodeUnit.id = (s.children.map fun c => c.value.id)[i]? := by
  rw [get?_append_of_sub hs, get?, sub_singleton, List.getElem?_map, Option.map_map]
  rfl

/-- **What is below a unit** are the children that were there, then those that were connected to it. -/
theorem get?_of_connects (hg : Levelled g) (hes : ∀ e ∈ es, Below g e)
    (hh : es.foldlM Entry.onGraph g = .ok h) (f : Path) (i : ℕ) :
    (h.get? (f ++ [i])).map NodeUnit.id = (g.sub f).bind fun s =>
      ((s.children.map fun c => c.value.id) ++ joinedIds g es f)[i]? := by
  rw [Lts.foldlM_eq_ok_iff] at hh
  refine (hh.trace_invariant (I := fun es h => (∀ e ∈ es, Below g e) → Leafed g h es ∧ ∀ f i,
    (h.get? (f ++ [i])).map NodeUnit.id = (g.sub f).bind fun s =>
      ((s.children.map fun c => c.value.id) ++ joinedIds g es f)[i]?)
    (fun _ => ⟨leafed_self g, fun f i => ?_⟩) ?_ hes).2 f i
  · cases hs : g.sub f with
    | none =>
      rw [get?, sub_append, hs]
      rfl
    | some s =>
      rw [map_id_get?_append hs, Option.bind_some]
      exact congrArg (·[i]?) (List.append_nil _).symm
  · intro es h e h' hl he hes
    have hb := hes e (List.mem_append_right _ List.mem_cons_self)
    obtain ⟨hl, hget⟩ := hl fun e he => hes e (List.mem_append_left _ he)
    obtain ⟨k, u, rfl⟩ := hb.exists_connect
    refine ⟨hl.connect hg hb he, fun f i => ?_⟩
    obtain ⟨π, s, hs, rfl, hf, -⟩ := hl.connectUnit_cases hg hb he
    obtain ⟨s₀, hs₀⟩ := exists_sub_of_followChain hf
    simp only [get?_push_leaf hs, joinedIds_append, joinedIds_singleton, hf, Option.some.injEq]
    by_cases hfπ : π = f
    · subst hfπ
      -- the new child is the last one
      have hids : (s.children.map fun c => c.value.id) =
          (s₀.children.map fun c => c.value.id) ++ joinedIds g es π := by
        refine List.ext_getElem? fun j => ?_
        rw [← map_id_get?_append hs, hget, hs₀, Option.bind_some]
      have hlen := congrArg List.length hids
      rw [List.length_map] at hlen
      rw [if_pos rfl, hs₀, Option.bind_some, ← List.append_assoc, List.getElem?_append, ← hlen]
      by_cases hi : i = s.children.length
      · rw [if_pos (by rw [hi]), if_neg (by omega), hi, Nat.sub_self]
        rfl
      · rw [if_neg (fun heq => hi (List.append_cancel_left heq |> List.cons.inj |>.1)), hget, hs₀,
          Option.bind_some]
        split_ifs with hlt
        · rfl
        · rw [List.getElem?_eq_none (by omega), List.getElem?_eq_none (by simp; omega)]
    · rw [if_neg, if_neg hfπ, List.append_nil, hget]
      exact fun heq => hfπ (List.append_inj_left' heq rfl).symm

/-- The unit that an entry is about. -/
def Entry.unit : Entry → NodeUnit
  | .connect lvl u => ⟨clampLvl lvl, u.id⟩
  | .disconnect lvl u => ⟨clampLvl lvl, u.id⟩

/-- The connected units come on top. -/
theorem values_of_connects (hes : ∀ e ∈ es, Below g e) (hh : es.foldlM Entry.onGraph h = .ok h') :
    h'.values.Perm (es.map Entry.unit ++ h.values) := by
  induction es generalizing h with
  | nil =>
    obtain rfl := Except.ok.inj hh
    exact List.Perm.refl _
  | cons e es ih =>
    obtain ⟨k, u, rfl⟩ := (hes e List.mem_cons_self).exists_connect
    rw [Lts.foldlM_eq_ok_iff] at hh
    obtain ⟨h₁, he, hh⟩ := hh.cons_inv
    obtain ⟨π, s, hs, rfl, -, -, -⟩ := connectUnit_cases he
    have ih := ih (fun e he => hes e (List.mem_cons_of_mem _ he)) (Lts.foldlM_eq_ok_iff.mpr hh)
    have hpush := values_push hs (.node ⟨clampLvl k, u.id⟩ [])
    exact (ih.trans (hpush.append_left _)).trans List.perm_middle

/-! ### Units that are to be cut off -/

/-- The two units above the first unit with an id have the same id. -/
def Twin (g : NodeGraph) (x : PeerId) : Prop :=
  ∃ a b c p₀ p₁, findInGraph g x = some [a, b, c] ∧ g.get? [a] = some p₀ ∧
    g.get? [a, b] = some p₁ ∧ p₀.id = p₁.id

/-- What `moveUnit` disconnects. -/
inductive Moved (g : NodeGraph) : Entry → Prop
  | of {x : PeerId} {a b c : ℕ} {p₀ p₁ : NodeUnit} (hf : findInGraph g x = some [a, b, c])
      (h₀ : g.get? [a] = some p₀) (h₁ : g.get? [a, b] = some p₁) :
      Moved g (.disconnect 2 ⟨x, [x, p₀.id, p₁.id]⟩)

section Moved

variable {a b c : ℕ} {p₀ p₁ : NodeUnit}

theorem ids_of_moved (ho : Orderly g.value.id g) (hf : findInGraph g x = some [a, b, c])
    (h₀ : g.get? [a] = some p₀) (h₁ : g.get? [a, b] = some p₁) :
    x ≠ p₀.id ∧ x ≠ p₁.id ∧ p₀.id ≠ g.value.id ∧ p₁.id ≠ g.value.id := by
  obtain ⟨⟨v, hv, -⟩, hfirst⟩ := findInGraph_eq_some.mp hf
  obtain ⟨s₀, hs₀, hv⟩ := get?_cons_eq_some.mp hv
  obtain ⟨s₁, hs₁, hv⟩ := get?_cons_eq_some.mp hv
  obtain ⟨s₂, hs₂, -⟩ := get?_cons_eq_some.mp hv
  have hsub : g.sub [a] = some s₀ := (sub_singleton g a).trans hs₀
  obtain rfl : s₀.value = p₀ := Option.some.inj ((get?_of_sub hsub).symm.trans h₀)
  obtain rfl : s₁.value = p₁ := by
    refine Option.some.inj ((get?_of_sub ?_).symm.trans h₁)
    exact sub_cons_eq_some.mpr ⟨s₀, hs₀, (sub_singleton s₀ b).trans hs₁⟩
  refine ⟨fun hx => ?_, fun hx => ?_, fun hown => ?_, fun hown => ?_⟩
  · exact hfirst [a] _ h₀ hx.symm (.inr ⟨rfl, nil_precedes_cons _ _⟩)
  · exact hfirst [a, b] _ h₁ hx.symm (.inr ⟨rfl, .inr ⟨rfl, nil_precedes_cons _ _⟩⟩)
  · rw [(ho [] g (sub_nil g)).own s₀ (List.mem_of_getElem? hs₀) hown] at hs₁
    cases hs₁
  · rw [(ho [a] s₀ hsub).own s₁ (List.mem_of_getElem? hs₁) hown] at hs₂
    cases hs₂

/-- The search: the unit above, then the neighbour below it, then the unit. -/
theorem findInGraphWithParents_moved {y₀ y₁ : PeerId} :
    findInGraphWithParents t [x, y₀, y₁] x = some π ↔
      ∃ ρ₁ s₁ ρ₂ s₂ ρ₃, findInGraph t y₁ = some ρ₁ ∧ t.sub ρ₁ = some s₁ ∧
        findInGraph s₁ y₀ = some ρ₂ ∧ s₁.sub ρ₂ = some s₂ ∧ findInGraph s₂ x = some ρ₃ ∧
          π = ρ₁ ++ (ρ₂ ++ ρ₃) := by
  constructor
  · intro hπ
    obtain ⟨ρ₁, s₁, σ, hρ₁, hs₁, hσ, rfl⟩ := findInTurn_cons_eq_some.mp hπ
    obtain ⟨ρ₂, s₂, τ, hρ₂, hs₂, hτ, rfl⟩ := findInTurn_cons_eq_some.mp hσ
    obtain ⟨ρ₃, s₃, υ, hρ₃, hs₃, hυ, rfl⟩ := findInTurn_cons_eq_some.mp hτ
    obtain ⟨ρ₄, s₄, ω, hρ₄, -, hω, rfl⟩ := findInTurn_cons_eq_some.mp hυ
    obtain rfl := Option.some.inj hω
    -- the last search starts where it ends
    obtain rfl := Option.some.inj ((findInGraph_at hρ₃ hs₃).symm.trans hρ₄)
    exact ⟨ρ₁, s₁, ρ₂, s₂, ρ₃, hρ₁, hs₁, hρ₂, hs₂, hρ₃, by simp only [List.append_nil]⟩
  · rintro ⟨ρ₁, s₁, ρ₂, s₂, ρ₃, hρ₁, hs₁, hρ₂, hs₂, hρ₃, rfl⟩
    obtain ⟨s₃, hs₃, -⟩ := exists_sub_of_findInGraph hρ₃
    have hlast : findInTurn s₃ [x] = some [] :=
      findInTurn_cons_eq_some.mpr ⟨[], s₃, [], findInGraph_at hρ₃ hs₃, sub_nil s₃, rfl, rfl⟩
    have hρ := findInTurn_cons_eq_some.mpr ⟨ρ₃, s₃, [], hρ₃, hs₃, hlast, rfl⟩
    rw [List.append_nil] at hρ
    have hρ := findInTurn_cons_eq_some.mpr ⟨ρ₂, s₂, ρ₃, hρ₂, hs₂, hρ, rfl⟩
    exact findInTurn_cons_eq_some.mpr ⟨ρ₁, s₁, ρ₂ ++ ρ₃, hρ₁, hs₁, hρ, rfl⟩

theorem ne_nil_of_findInGraph (hx : g.value.id ≠ x) (hf : findInGraph g x = some π) : π ≠ [] := by
  rintro rfl
  exact hx (id_of_findInGraph hf (sub_nil g))

/-- A unit with two different ids above it is not found: it would have come before. -/
theorem not_found_of_moved (hl : Leafed g h es) (hh : Levelled h) (ho : Orderly g.value.id g)
    (hf : findInGraph g x = some [a, b, c]) (h₀ : g.get? [a] = some p₀)
    (h₁ : g.get? [a, b] = some p₁) (hne : p₀.id ≠ p₁.id)
    (hes : ∀ lvl u f, .connect lvl u ∈ es → u.id = x →
      findInGraphByChain g u.parentIds = some f → f.length ≤ 1) :
    findInGraphWithParents h [x, p₀.id, p₁.id] x = none := by
  obtain ⟨hx₀, -, -, hown⟩ := ids_of_moved ho hf h₀ h₁
  rw [← hl.value_eq] at hown
  cases hπ : findInGraphWithParents h [x, p₀.id, p₁.id] x with
  | none => rfl
  | some π =>
    exfalso
    obtain ⟨ρ₁, s₁, ρ₂, s₂, ρ₃, hρ₁, hs₁, hρ₂, hs₂, hρ₃, -⟩ := findInGraphWithParents_moved.mp hπ
    obtain ⟨s₃, hs₃, hid₃⟩ := exists_sub_of_findInGraph hρ₃
    have hv₁ := id_of_findInGraph hρ₁ hs₁
    have hv₂ := id_of_findInGraph hρ₂ hs₂
    have hget : h.get? (ρ₁ ++ (ρ₂ ++ ρ₃)) = some s₃.value := by
      refine get?_of_sub ?_
      rw [sub_append_of_sub hs₁, sub_append_of_sub hs₂, hs₃]
    have hdepth := hh.depth _ _ hget
    have hlen₁ := List.length_pos_of_ne_nil (ne_nil_of_findInGraph (Ne.symm hown) hρ₁)
    have hlen₂ := List.length_pos_of_ne_nil
      (ne_nil_of_findInGraph (fun heq => hne (heq.symm.trans hv₁)) hρ₂)
    have hlen₃ := List.length_pos_of_ne_nil
      (ne_nil_of_findInGraph (fun heq => hx₀ (heq.symm.trans hv₂)) hρ₃)
    rw [List.length_append, List.length_append] at hdepth
    unfold maxLvl at hdepth
    obtain ⟨a', rfl⟩ : ∃ a', ρ₁ = [a'] := List.length_eq_one_iff.mp (by omega)
    have hold : g.get? ([a'] ++ (ρ₂ ++ ρ₃)) = some s₃.value := by
      rcases hl.only _ _ hget with hold | ⟨k, u, f, s, i, hmem, hfu, -, -, heq, hid⟩
      · exact hold
      · have hlen := congrArg List.length heq
        have hle := hes k u f hmem (hid.symm.trans hid₃) hfu
        simp only [List.length_append, List.length_singleton] at hlen
        omega
    have hfirst := (findInGraph_eq_some.mp hf).2 _ _ hold hid₃
    rw [List.singleton_append, cons_precedes_cons, not_or] at hfirst
    -- the unit above is still there, as the second one with its id or a later one
    have hfirst₁ := (findInGraph_eq_some.mp hρ₁).2 [a, b] p₁ (hl.old _ _ h₁) rfl
    rw [cons_precedes_cons, not_or] at hfirst₁
    obtain rfl : a = a' := by omega
    have heq := (get?_of_sub hs₁).symm.trans (hl.old _ _ h₀)
    rw [Option.some.inj heq] at hv₁
    exact hne hv₁

end Moved

/-- **Nothing is cut off** where no unit has two equal ids above it. -/
theorem eq_of_disconnects (hl : Leafed g h es) (hh : Levelled h) (ho : Orderly g.value.id g)
    (hes : ∀ lvl u f, .connect lvl u ∈ es → findInGraph g u.id ≠ none →
      findInGraphByChain g u.parentIds = some f → f.length ≤ 1)
    (hds : ∀ e ∈ ds, Moved g e) (htwin : ∀ lvl u, .disconnect lvl u ∈ ds → ¬ Twin g u.id)
    (hrun : ds.foldlM Entry.onGraph h = .ok h') : h' = h := by
  induction ds with
  | nil => exact (Except.ok.inj hrun).symm
  | cons d ds ih =>
    rw [Lts.foldlM_eq_ok_iff] at hrun
    obtain ⟨h₂, hd, hrun'⟩ := hrun.cons_inv
    have ih := ih (fun e he => hds e (List.mem_cons_of_mem d he))
      (fun k u hmem => htwin k u (List.mem_cons_of_mem d hmem))
    cases hds d List.mem_cons_self with
    | @of x a b c p₀ p₁ hf h₀ h₁ =>
      have hne : p₀.id ≠ p₁.id := fun heq =>
        htwin 2 _ List.mem_cons_self ⟨a, b, c, p₀, p₁, hf, h₀, h₁, heq⟩
      have hnone := not_found_of_moved hl hh ho hf h₀ h₁ hne
        fun k u f hmem hid hfu => hes k u f hmem (by rw [hid, hf]; exact Option.some_ne_none _) hfu
      rcases disconnectUnit_cases hd with ⟨-, heq⟩ | ⟨π, s, hπ, -⟩
      · rw [heq] at hrun'
        exact ih (Lts.foldlM_eq_ok_iff.mpr hrun')
      · rw [hnone] at hπ
        cases hπ

/-! ### A map -/

/-- No unit that a map reports near has two equal ids above it. -/
def TwinFree (g : NodeGraph) (es : List (ℕ × NodesMapDiffUnit)) : Prop :=
  ∀ u, (1, u) ∈ es → ¬ Twin g u.id

variable {e' : ℕ × NodesMapDiffUnit}

theorem Adds.below (ho : Orderly g.value.id g) (hadd : Adds g e' cs ds) : ∀ c ∈ cs, Below g c := by
  cases hadd with
  | own | near | stray => exact fun c hc => absurd hc List.not_mem_nil
  | attach hown hf hu hb hne hlen =>
    intro c hc
    rw [List.mem_singleton.mp hc]
    exact .chain (findInGraphByChain_idsTo ho hb hne) hne
  | move hown hf h₀ h₁ hu hb =>
    intro c hc
    rw [List.mem_singleton.mp hc]
    exact .neighbour

theorem Adds.moved (hadd : Adds g e' cs ds) : ∀ d ∈ ds, Moved g d := by
  cases hadd with
  | own | near | stray | attach => exact fun d hd => absurd hd List.not_mem_nil
  | move hown hf h₀ h₁ hu hb =>
    intro d hd
    rw [List.mem_singleton.mp hd]
    exact .of hf h₀ h₁

/-- A unit that is known is connected to a neighbour. -/
theorem Adds.shallow (hadd : Adds g e' cs ds) {u : NodesMapDiffUnit} (hmem : .connect lvl u ∈ cs)
    (hu : findInGraph g u.id ≠ none) (hf : findInGraphByChain g u.parentIds = some π) :
    π.length ≤ 1 := by
  cases hadd with
  | own | near | stray => exact absurd hmem List.not_mem_nil
  | attach hown hnone =>
    cases List.mem_singleton.mp hmem
    exact absurd hnone hu
  | @move _ back =>
    cases List.mem_singleton.mp hmem
    have hf : findInGraphByChain g [back, g.value.id] = some π := hf
    by_cases hback : back = g.value.id
    · rw [hback, findInGraphByChain_own] at hf
      obtain rfl := Option.some.inj hf
      exact Nat.zero_le _
    · obtain ⟨i, -, rfl⟩ := (findInGraphByChain_pair hback).mp hf
      exact Nat.le_refl _

theorem Adds.not_twin (hadd : Adds g e' cs ds) (htwin : ∀ u, e' = (1, u) → ¬ Twin g u.id)
    {u : NodesMapDiffUnit} (hmem : .disconnect lvl u ∈ ds) : ¬ Twin g u.id := by
  cases hadd with
  | own | near | stray | attach => exact absurd hmem List.not_mem_nil
  | @move v =>
    cases List.mem_singleton.mp hmem
    exact htwin v rfl

section Map

variable {es' : List (ℕ × NodesMapDiffUnit)}

theorem AddsAll.below (hadds : AddsAll g es' cs ds) (ho : Orderly g.value.id g) :
    ∀ c ∈ cs, Below g c := by
  intro c hc
  obtain ⟨e, -, cs', ds', hadd, hc⟩ := hadds.exists_of_connect hc
  exact hadd.below ho c hc

theorem AddsAll.moved (hadds : AddsAll g es' cs ds) : ∀ d ∈ ds, Moved g d := by
  intro d hd
  obtain ⟨e, -, cs', ds', hadd, hd⟩ := hadds.exists_of_disconnect hd
  exact hadd.moved d hd

/-- The units that are known are connected to neighbours. -/
theorem AddsAll.shallow (hadds : AddsAll g es' cs ds) {u : NodesMapDiffUnit}
    (hmem : .connect lvl u ∈ cs) (hu : findInGraph g u.id ≠ none)
    (hf : findInGraphByChain g u.parentIds = some π) : π.length ≤ 1 := by
  obtain ⟨e, -, cs', ds', hadd, hmem⟩ := hadds.exists_of_connect hmem
  exact hadd.shallow hmem hu hf

/-- The connected units of a map become leaves. -/
theorem AddsAll.leafed (hadds : AddsAll g es' cs ds) (hg : Levelled g)
    (ho : Orderly g.value.id g) (hrun : cs.foldlM Entry.onGraph g = .ok h) : Leafed g h cs :=
  leafed_of_connects hg (hadds.below ho) hrun

/-- Where no unit of a map has two equal ids above it, the map adds leaves and that is all. -/
theorem AddsAll.connects_of_twinFree (hadds : AddsAll g es' cs ds) (hg : Levelled g)
    (ho : Orderly g.value.id g) (hfree : TwinFree g es')
    (hrun : (cs ++ ds).foldlM Entry.onGraph g = .ok g') : cs.foldlM Entry.onGraph g = .ok g' := by
  rw [Lts.foldlM_eq_ok_iff] at hrun
  obtain ⟨h, hcs, hds⟩ := hrun.append_inv
  have hl := hadds.leafed hg ho (Lts.foldlM_eq_ok_iff.mpr hcs)
  have hlev : Levelled h := hcs.invariant hg fun _ _ _ hs he => hs.onGraph he
  have heq := eq_of_disconnects hl hlev ho ?_ ?_ ?_ (Lts.foldlM_eq_ok_iff.mpr hds)
  · rw [heq]
    exact Lts.foldlM_eq_ok_iff.mpr hcs
  · exact fun k u f => hadds.shallow
  · exact hadds.moved
  · intro k u hmem
    obtain ⟨e, he, cs', ds', hadd, hmem⟩ := hadds.exists_of_disconnect hmem
    exact hadd.not_twin (fun v hv => hfree v (hv ▸ he)) hmem

end Map

end Yamb
