import Yamb.Topology.Leaves

/-!
# The map of a neighbour

A neighbour sends the arrays it has, and the node makes a difference of them and applies it.

* `RoomChange`, `ChangeStep`: what changes a room, `RoomMap.data`: what it sends;
* `Grown`, `run_grown`: in what a room sends, every unit has the room's node as its last parent;
* `exists_twin_disconnect`, `twinFree_of_nodup`: where ids end up once, nothing is cut off;
* `FreshMap`, **`run_acceptMap_iff`**: the map of a neighbour is accepted, and every id is there once
  afterwards, exactly when every id is there once before, the map lists what is new to the node once,
  and it moves nothing.
-/

set_option autoImplicit false

namespace Yamb

open RoseTree

/-- A neighbour comes, a neighbour is lost, a map comes. -/
inductive RoomChange
  | neighbour (p : PeerId)
  | lost (p : PeerId)
  | update (connected disconnected : Option IncomingMap)

namespace RoomMap

def after (RU : RoomMap) : RoomChange → Except GraphFault RoomMap
  | .neighbour p => RU.applyDiff ⟨[(0, [⟨p, [RU.iamRoot.value.id]⟩])], []⟩
  | .lost p => RU.applyDiff (lostPeer RU p)
  | .update connected disconnected => (updateNodeMap RU connected disconnected).map Prod.fst

/-- `NodesMap->Data`, with the keys in their order. -/
def data (RU : RoomMap) : IncomingMap :=
  (List.range (maxLvl + 1)).filterMap fun l => (RU.nodesMap l).map fun us => ((l : ℤ), us)

/-- The difference of a map, applied to the graph. -/
def acceptMap (RU : RoomMap) (incoming : IncomingMap) : Except GraphFault RoomMap := do
  let diff ← createDiff RU (some incoming) none
  RU.onNodesMapDiff diff

end RoomMap

abbrev ChangeStep (RU : RoomMap) (e : RoomChange) (RU' : RoomMap) : Prop := RU.after e = .ok RU'

/-- The ids of all units, `IamRoot` included. -/
def peerIds (g : NodeGraph) : List PeerId := g.values.map NodeUnit.id

/-- The ids of a map that the graph does not have. -/
def newIds (g : NodeGraph) (es : List (ℕ × NodesMapDiffUnit)) : List PeerId :=
  (es.map fun e => e.2.id).filter fun x => x ∉ peerIds g

/-- The graph has every id once and the map lists every new id once, it reports no unit near that is
at level 2, and there are addresses for the new units. -/
structure FreshMap (g : NodeGraph) (es : List (ℕ × NodesMapDiffUnit)) : Prop where
  units : (peerIds g).Nodup
  news : (newIds g es).Nodup
  near : ∀ u, (1, u) ∈ es → ⟨2, u.id⟩ ∉ g.values
  room : g.values.length + (newIds g es).length < 2 ^ 64

/-- A unit whose last parent is the node, and whose one parent it is if the unit is a neighbour. -/
def Signed (myId : PeerId) (lvl : ℕ) (u : NodesMapDiffUnit) : Prop :=
  u.parentIds.getLast? = some myId ∧ (lvl = 0 → u.parentIds = [myId])

/-- What changes keep. -/
structure Grown (myId : PeerId) (s : NodeGraph × (ℕ → List NodesMapDiffUnit)) : Prop where
  levelled : Levelled s.1
  orderly : Orderly s.1.value.id s.1
  own : s.1.value.id = myId
  size : s.1.values.length < 2 ^ 64
  signed : ∀ l, ∀ u ∈ s.2 l, Signed myId l u

variable {g g' h h' : NodeGraph} {es : List (ℕ × NodesMapDiffUnit)} {cs ds : List Entry}
  {x y myId S : PeerId} {π : Path} {v : NodeUnit} {e : Entry} {diff d : NodesMapDiff}
  {incoming : IncomingMap} {RU RU' RUS : RoomMap}

/-! ### What a room sends -/

theorem Grown.onGraph_size (hs : g.values.length < 2 ^ 64) (he : e.onGraph g = .ok g') :
    g'.values.length < 2 ^ 64 := by
  cases e with
  | connect lvl u =>
    obtain ⟨π, s, hsub, rfl, -, hlen, -⟩ := connectUnit_cases he
    have hperm := (values_push hsub (.node ⟨clampLvl lvl, u.id⟩ [])).length_eq
    rw [List.length_append, values_node, List.flatMap_nil, List.length_singleton] at hperm
    omega
  | disconnect lvl u =>
    rcases disconnectUnit_cases he with ⟨-, rfl⟩ | ⟨π, s, -, hπ, hsub, -, rfl⟩
    · exact hs
    · have hperm := (values_erase hsub hπ).length_eq
      rw [List.length_append] at hperm
      omega

/-- An entry that stores a signed unit, or takes one out. -/
def SignedEntry (myId : PeerId) : Entry → Prop
  | .connect lvl u => Signed myId (clampLvl lvl) u
  | .disconnect _ _ => True

theorem mem_store {st : ℕ → List NodesMapDiffUnit} {l : ℕ} {u : NodesMapDiffUnit}
    (hu : u ∈ Entry.store st e l) :
    u ∈ st l ∨ ∃ lvl, e = .connect lvl u ∧ clampLvl lvl = l := by
  cases e with
  | connect lvl e =>
    rw [Entry.store, Function.update_apply] at hu
    split_ifs at hu with hl
    · unfold addUnit at hu
      split_ifs at hu
      · exact .inl (hl ▸ hu)
      · rcases List.mem_append.mp hu with hu | hu
        · exact .inl (hl ▸ hu)
        · rw [List.mem_singleton.mp hu]
          exact .inr ⟨lvl, rfl, hl.symm⟩
    · exact .inl hu
  | disconnect lvl e =>
    rw [Entry.store, Function.update_apply] at hu
    split_ifs at hu with hl
    · exact .inl (hl ▸ List.mem_of_mem_filter hu)
    · exact .inl hu

theorem Along.grown {s s' : NodeGraph × (ℕ → List NodesMapDiffUnit)}
    (he : Along Entry.store s e s') (hs : Grown myId s) (hsigned : SignedEntry myId e) :
    Grown myId s' := by
  obtain ⟨hg, hst⟩ := he
  obtain ⟨hv, ho⟩ := hs.orderly.onGraph hg
  refine ⟨hs.levelled.onGraph hg, ho, by rw [hv, hs.own], Grown.onGraph_size hs.size hg, ?_⟩
  rw [hst]
  intro l u hu
  rcases mem_store hu with hu | ⟨lvl, rfl, rfl⟩
  · exact hs.signed l u hu
  · exact hsigned

theorem idsTo_getLast? (g : NodeGraph) (π : Path) : (idsTo g π).getLast? = some g.value.id := by
  rw [idsTo, List.getLast?_concat]

theorem Adds.signed {e' : ℕ × NodesMapDiffUnit} (hadd : Adds g e' cs ds) :
    ∀ c ∈ cs, SignedEntry g.value.id c := by
  cases hadd with
  | own | near | stray => exact fun c hc => absurd hc List.not_mem_nil
  | attach hown hf hu hb hne hlen =>
    intro c hc
    rw [List.mem_singleton.mp hc]
    refine ⟨idsTo_getLast? g _, fun hzero => ?_⟩
    have hpos := List.length_pos_of_ne_nil hne
    unfold clampLvl maxLvl at hzero
    omega
  | move hown hf h₀ h₁ hu hb =>
    intro c hc
    rw [List.mem_singleton.mp hc]
    exact ⟨rfl, fun hzero => absurd hzero (by decide)⟩

theorem connectedBylvls_of_diffDisconnected {lvl : ℕ} {u : NodesMapDiffUnit}
    (hd : diffDisconnected g lvl diff u = .ok d) : d.connectedBylvls = diff.connectedBylvls := by
  unfold diffDisconnected at hd
  by_cases hown : u.id = g.value.id
  · rw [if_pos hown] at hd
    rw [← Except.ok.inj hd]
  · rw [if_neg hown] at hd
    cases hf : findInGraphWithParents g u.parentIds u.id with
    | some π =>
      rw [hf] at hd
      rw [← Except.ok.inj hd]
      rfl
    | none =>
      simp only [hf, bind, Except.bind, pure, Except.pure] at hd
      cases hw : findInGraphWithoutParents g u.parentIds u.id with
      | error F =>
        rw [hw] at hd
        cases hd
      | ok found =>
        simp only [hw] at hd
        cases found with
        | none => rw [← Except.ok.inj hd]
        | some π =>
          cases hv : fillChain g π with
          | none =>
            simp only [hv] at hd
            rw [← Except.ok.inj hd]
          | some vv =>
            simp only [hv] at hd
            rw [← Except.ok.inj hd]
            rfl

theorem connectedBylvls_of_createDiffDisconnectedBylvls
    (hd : createDiffDisconnectedBylvls diff RU incoming = .ok d) :
    d.connectedBylvls = diff.connectedBylvls := by
  refine (Lts.foldlM_eq_ok_iff.mp hd).invariant
    (I := fun d => d.connectedBylvls = diff.connectedBylvls) rfl fun d itr d' hd he => ?_
  refine (Lts.foldlM_eq_ok_iff.mp he).invariant
    (I := fun d => d.connectedBylvls = diff.connectedBylvls) hd fun d u d' hd he => ?_
  exact (connectedBylvls_of_diffDisconnected he).trans hd

theorem createDiff_connects {connected disconnected : Option IncomingMap}
    (hd : createDiff RU connected disconnected = .ok diff) :
    ∃ d, diff.connects = d.connects ∧ (d = .empty ∨
      ∃ incoming, createDiffConnectedBylvls .empty RU incoming = .ok d) := by
  have hlast {d : NodesMapDiff} {incoming : IncomingMap}
      (hd : createDiffDisconnectedBylvls d RU incoming = .ok diff) :
      diff.connects = d.connects := by
    unfold NodesMapDiff.connects
    rw [connectedBylvls_of_createDiffDisconnectedBylvls hd]
  simp only [createDiff, bind, Except.bind, pure, Except.pure] at hd
  cases connected with
  | none =>
    refine ⟨.empty, ?_, .inl rfl⟩
    cases disconnected with
    | none => rw [← Except.ok.inj hd]
    | some incoming => exact hlast hd
  | some incoming =>
    cases hc : createDiffConnectedBylvls .empty RU incoming with
    | error F =>
      simp only [hc] at hd
      cases hd
    | ok d =>
      simp only [hc] at hd
      refine ⟨d, ?_, .inr ⟨incoming, hc⟩⟩
      cases disconnected with
      | none => rw [Except.ok.inj hd]
      | some incoming => exact hlast hd

/-- A change stores signed units. -/
theorem ChangeStep.grown {c : RoomChange} (hstep : ChangeStep RU c RU')
    (hRU : Grown myId RU.views) : Grown myId RU'.views := by
  have happly {diff : NodesMapDiff} (hd : RU.applyDiff diff = .ok RU')
      (hsigned : ∀ e ∈ diff.entries, SignedEntry myId e) : Grown myId RU'.views := by
    have hr := RoomMap.run_of_applyDiff hd
    refine (hr.only_of_forall (P := fun _ e => SignedEntry myId e) ?_).invariant hRU
      fun s e s' hs he => Along.grown he.1 hs he.2
    intro t₁ e t₂ s₁ s₂ hes _ _
    exact hsigned e (hes ▸ List.mem_append_right _ List.mem_cons_self)
  cases c with
  | neighbour p =>
    refine happly hstep fun e he => ?_
    rw [List.mem_singleton.mp he]
    exact ⟨congrArg some hRU.own, fun _ => congrArg (fun x => [x]) hRU.own⟩
  | lost p =>
    refine happly hstep fun e he => ?_
    rw [List.mem_singleton.mp he]
    exact trivial
  | update connected disconnected =>
    obtain ⟨⟨RU₁, r⟩, hu, rfl⟩ : ∃ r, updateNodeMap RU connected disconnected = .ok r ∧
        r.1 = RU' := by
      cases hu : updateNodeMap RU connected disconnected with
      | error F =>
        simp only [ChangeStep, RoomMap.after, hu] at hstep
        cases hstep
      | ok r =>
        simp only [ChangeStep, RoomMap.after, hu] at hstep
        exact ⟨r, rfl, Except.ok.inj hstep⟩
    obtain ⟨diff, hd, ⟨-, rfl, -⟩ | ⟨-, -, hok⟩⟩ := updateNodeMap_eq_ok hu
    · exact hRU
    · refine happly hok fun e he => ?_
      rw [NodesMapDiff.entries_eq] at he
      rcases List.mem_append.mp he with he | he
      · obtain ⟨d, hcs, rfl | ⟨incoming, hd⟩⟩ := createDiff_connects hd
        · rw [hcs] at he
          exact absurd he List.not_mem_nil
        · rw [hcs] at he
          obtain ⟨e', -, cs', ds', hadd, he⟩ :=
            (createDiffConnectedBylvls_adds hRU.levelled hRU.orderly hd).exists_of_connect he
          have := hadd.signed e he
          rwa [show RU.iamRoot.value.id = myId from hRU.own] at this
      · obtain ⟨pair, -, he⟩ := List.mem_flatMap.mp he
        obtain ⟨u, -, rfl⟩ := List.mem_map.mp he
        exact trivial

theorem createRoomMap_grown (myId : PeerId) : Grown myId (createRoomMap myId).views where
  levelled := levelled_create myId
  orderly := orderly_create myId
  own := rfl
  size := Nat.one_lt_two_pow (by decide)
  signed := by
    intro l u hu
    have hu : u ∈ (createRoomMap myId).stored l := hu
    simp only [RoomMap.stored, createRoomMap] at hu
    split_ifs at hu <;> cases hu

theorem run_grown {tr : List RoomChange} (hr : Lts.Run ChangeStep (createRoomMap myId) tr RU) :
    Grown myId RU.views :=
  hr.invariant (I := fun RU => Grown myId RU.views) (createRoomMap_grown myId)
    fun _ _ _ hs he => ChangeStep.grown he hs

/-- What a room sends: its node is the last parent of every unit, and the one parent of those that
are looked for at level 1. -/
theorem Grown.incomingUnits_data (hRU : Grown myId RU.views) {e : ℕ × NodesMapDiffUnit}
    (he : e ∈ incomingUnits RU.data) : e.2.parentIds.getLast? = some myId ∧
      (e.1 = 1 ∧ e.2.parentIds = [myId] ∨ e.1 = 2) := by
  obtain ⟨⟨k, us⟩, hmem, he⟩ := List.mem_flatMap.mp he
  obtain ⟨u, hu, rfl⟩ := List.mem_map.mp he
  obtain ⟨l, hl, hmem⟩ := List.mem_filterMap.mp hmem
  obtain ⟨us', hus, heq⟩ := Option.map_eq_some_iff.mp hmem
  obtain ⟨rfl, rfl⟩ := Prod.mk.inj heq
  have hstored : u ∈ RU.stored l := by
    rw [RoomMap.stored, hus]
    exact hu
  obtain ⟨hlast, hone⟩ := hRU.signed l u hstored
  refine ⟨hlast, ?_⟩
  rw [List.mem_range] at hl
  unfold maxLvl at hl
  obtain rfl | rfl | rfl : l = 0 ∨ l = 1 ∨ l = 2 := by omega
  · exact .inl ⟨rfl, hone rfl⟩
  · exact .inr rfl
  · exact .inr rfl

/-! ### What is cut off -/

theorem mem_peerIds : x ∈ peerIds g ↔ ∃ v ∈ g.values, v.id = x := List.mem_map

theorem findInGraph_eq_none_iff_peerIds : findInGraph g x = none ↔ x ∉ peerIds g := by
  rw [findInGraph_eq_none, mem_peerIds]
  constructor
  · rintro hnone ⟨v, hv, hx⟩
    obtain ⟨π, hπ⟩ := mem_values.mp hv
    exact hnone π v hπ hx
  · rintro hnone π v hv hx
    exact hnone ⟨v, mem_values.mpr ⟨π, hv⟩, hx⟩

theorem mem_peerIds_of_findInGraph (hf : findInGraph g x = some π) : x ∈ peerIds g := by
  by_contra hx
  rw [findInGraph_eq_none_iff_peerIds.mpr hx] at hf
  cases hf

theorem eq_of_mem_values (hnd : (peerIds g).Nodup) {u v : NodeUnit} (hu : u ∈ g.values)
    (hv : v ∈ g.values) (hid : u.id = v.id) : u = v := List.inj_on_of_nodup_map hnd hu hv hid

/-- A unit that is cut off is known and not a neighbour, and it is at level 1 only if there are two
equal ids above the unit that is to be disconnected. -/
theorem Moved.onGraph_cases (hm : Moved g e) (ho : Orderly g.value.id g)
    (hvalue : h.value = g.value) (he : e.onGraph h = .ok h') :
    h' = h ∨ ∃ κ s, h' = h.erase κ ∧ h.sub κ = some s ∧ 2 ≤ κ.length ∧
      findInGraph g s.value.id ≠ none ∧
        (κ.length = 2 → ∃ p, e = .disconnect 2 ⟨s.value.id, [s.value.id, p, p]⟩) := by
  cases hm with
  | @of x a b c p₀ p₁ hf h₀ h₁ =>
    obtain ⟨hx₀, -, -, hown⟩ := ids_of_moved ho hf h₀ h₁
    rcases disconnectUnit_cases he with ⟨-, heq⟩ | ⟨κ, s, hκ, -, hs, hid, heq⟩
    · exact .inl heq
    · obtain rfl : s.value.id = x := hid
      obtain ⟨ρ₁, s₁, ρ₂, s₂, ρ₃, hρ₁, hs₁, hρ₂, hs₂, hρ₃, rfl⟩ :=
        findInGraphWithParents_moved.mp hκ
      have hv₁ := id_of_findInGraph hρ₁ hs₁
      have hv₂ := id_of_findInGraph hρ₂ hs₂
      have hlen₁ := List.length_pos_of_ne_nil
        (ne_nil_of_findInGraph (hvalue ▸ Ne.symm hown) hρ₁)
      have hlen₃ := List.length_pos_of_ne_nil
        (ne_nil_of_findInGraph (fun heq => hx₀ (heq.symm.trans hv₂)) hρ₃)
      refine .inr ⟨_, s, heq, hs, ?_, ?_, fun hlen => ⟨p₀.id, ?_⟩⟩
      · rw [List.length_append, List.length_append]
        omega
      · rw [hf]
        exact Option.some_ne_none _
      · -- the search went down one link only
        rw [List.length_append, List.length_append] at hlen
        obtain rfl : ρ₂ = [] := List.length_eq_zero_iff.mp (by omega)
        obtain rfl := Option.some.inj ((sub_nil s₁).symm.trans hs₂)
        rw [← hv₁, hv₂]

/-- A unit that goes is not a neighbour, and it is at level 1 only if it is disconnected itself, with
two equal ids above it. -/
theorem Moved.mem_of_onGraph (hm : Moved g e) (ho : Orderly g.value.id g)
    (hvalue : h.value = g.value) (hh : Levelled h) (he : e.onGraph h = .ok h')
    (hv : v ∈ h.values) : v ∈ h'.values ∨
      1 ≤ v.lvl ∧ (v.lvl = 1 → ∃ p, e = .disconnect 2 ⟨v.id, [v.id, p, p]⟩) := by
  rcases hm.onGraph_cases ho hvalue he with rfl | ⟨κ, s, rfl, hs, hκ, -, htwin⟩
  · exact .inl hv
  · have hne : κ ≠ [] := by
      rintro rfl
      simp at hκ
    rcases List.mem_append.mp ((values_erase hs hne).mem_iff.mpr hv) with hcut | hleft
    · right
      obtain ⟨σ, hσ⟩ := mem_values.mp hcut
      have hlvl := hh.lvl _ v ((get?_append_of_sub hs σ).trans hσ)
      rw [List.length_append] at hlvl
      push_cast at hlvl
      refine ⟨by omega, fun hone => ?_⟩
      -- at level 1 it is the unit itself
      obtain rfl : σ = [] := List.length_eq_zero_iff.mp (by omega)
      rw [get?_nil] at hσ
      obtain rfl := Option.some.inj hσ
      exact htwin (by omega)
    · exact .inl hleft

/-- Of two units with one id at the levels 0 and 1 the second has to be disconnected. -/
theorem exists_twin_disconnect (ho : Orderly g.value.id g) (hds : ∀ d ∈ ds, Moved g d)
    (hvalue : h.value = g.value) (hh : Levelled h) (hrun : ds.foldlM Entry.onGraph h = .ok h')
    (hnd : (peerIds h').Nodup) (h₀ : ⟨0, y⟩ ∈ h.values) (h₁ : ⟨1, y⟩ ∈ h.values) :
    ∃ p, .disconnect 2 ⟨y, [y, p, p]⟩ ∈ ds := by
  induction ds generalizing h with
  | nil =>
    obtain rfl := Except.ok.inj hrun
    cases eq_of_mem_values hnd h₀ h₁ rfl
  | cons d ds ih =>
    rw [Lts.foldlM_eq_ok_iff] at hrun
    obtain ⟨h₂, hd, hrun'⟩ := hrun.cons_inv
    have hm := hds d List.mem_cons_self
    have hvalue' : h₂.value = g.value := by
      rw [← hvalue]
      cases hm with
      | of =>
        rcases disconnectUnit_cases hd with ⟨-, heq⟩ | ⟨π, s, -, -, -, -, heq⟩
        · rw [heq]
        · rw [heq, value_erase]
    have h₀' : ⟨0, y⟩ ∈ h₂.values := by
      rcases hm.mem_of_onGraph ho hvalue hh hd h₀ with hleft | ⟨hlvl, -⟩
      · exact hleft
      · simp at hlvl
    rcases hm.mem_of_onGraph ho hvalue hh hd h₁ with hleft | ⟨-, hcut⟩
    · obtain ⟨p, hp⟩ := ih (fun d hd => hds d (List.mem_cons_of_mem _ hd)) hvalue'
        (hh.onGraph hd) (Lts.foldlM_eq_ok_iff.mpr hrun') h₀' hleft
      exact ⟨p, List.mem_cons_of_mem _ hp⟩
    · obtain ⟨p, rfl⟩ := hcut rfl
      exact ⟨p, List.mem_cons_self⟩

/-- **No unit has two equal ids above it** where ids end up once: of two such ids the lower one would
have to be disconnected, for two equal ids above it that are met before. -/
theorem not_twin_disconnect (hg : Levelled g) (ho : Orderly g.value.id g)
    (hds : ∀ d ∈ ds, Moved g d) (hvalue : h.value = g.value) (hh : Levelled h)
    (hsub : g.values ⊆ h.values) (hrun : ds.foldlM Entry.onGraph h = .ok h')
    (hnd : (peerIds h').Nodup) (n : ℕ) (x p : PeerId) (π : Path)
    (hf : findInGraph g x = some (n :: π)) : .disconnect 2 ⟨x, [x, p, p]⟩ ∉ ds := by
  induction n using Nat.strong_induction_on generalizing x p π with
  | _ n ih =>
    intro hmem
    have hm := hds _ hmem
    generalize hentry : Entry.disconnect 2 ⟨x, [x, p, p]⟩ = e at hm
    cases hm with
    | @of x' a b c p₀ p₁ hf' h₀ h₁ =>
      simp only [Entry.disconnect.injEq, NodesMapDiffUnit.mk.injEq, List.cons.injEq, and_true,
        true_and] at hentry
      obtain ⟨rfl, -, hp₀, hp₁⟩ := hentry
      obtain ⟨rfl, -⟩ := List.cons.inj (Option.some.inj (hf.symm.trans hf'))
      have hmem₀ : ⟨0, p⟩ ∈ g.values := by
        refine mem_values.mpr ⟨[n], ?_⟩
        rw [h₀, hp₀, ← show p₀.lvl = 0 from hg.lvl _ _ h₀]
      have hmem₁ : ⟨1, p⟩ ∈ g.values := by
        refine mem_values.mpr ⟨[n, b], ?_⟩
        rw [h₁, hp₁, ← show p₁.lvl = 1 from hg.lvl _ _ h₁]
      obtain ⟨q, hq⟩ := exists_twin_disconnect ho hds hvalue hh hrun hnd (hsub hmem₀)
        (hsub hmem₁)
      have hmq := hds _ hq
      generalize hentry' : Entry.disconnect 2 ⟨p, [p, q, q]⟩ = e' at hmq
      cases hmq with
      | @of y a' b' c' q₀ q₁ hfq hq₀ hq₁ =>
        simp only [Entry.disconnect.injEq, NodesMapDiffUnit.mk.injEq, List.cons.injEq, and_true,
          true_and] at hentry'
        obtain ⟨rfl, -⟩ := hentry'
        have hfirst := (findInGraph_eq_some.mp hfq).2 [n] p₀ h₀ hp₀.symm
        rw [cons_precedes_cons, not_or, not_and] at hfirst
        obtain ⟨hle, hne⟩ := hfirst
        have hlt : a' < n := by
          rcases Nat.lt_trichotomy a' n with hlt | heq | hlt
          · exact hlt
          · exact absurd (nil_precedes_cons b' [c']) (hne heq.symm)
          · exact absurd hlt hle
        exact ih a' hlt p q [b', c'] hfq hq

theorem AddsAll.twinFree_of_nodup (hadds : AddsAll g es cs ds) (hg : Levelled g)
    (ho : Orderly g.value.id g) (hrun : (cs ++ ds).foldlM Entry.onGraph g = .ok g')
    (hnd : (peerIds g').Nodup) : TwinFree g es := by
  rintro u hmem ⟨a, b, c, p₀, p₁, hf, h₀, h₁, hp⟩
  rw [Lts.foldlM_eq_ok_iff] at hrun
  obtain ⟨h, hcs, hds⟩ := hrun.append_inv
  rw [← Lts.foldlM_eq_ok_iff] at hcs hds
  have hl := hadds.leafed hg ho hcs
  have hlev : Levelled h := (Lts.foldlM_eq_ok_iff.mp hcs).invariant hg
    fun _ _ _ hs he => hs.onGraph he
  have hsub : g.values ⊆ h.values := by
    intro v hv
    obtain ⟨π, hπ⟩ := mem_values.mp hv
    exact mem_values.mpr ⟨π, hl.old π v hπ⟩
  refine not_twin_disconnect hg ho hadds.moved hl.value_eq hlev hsub hds hnd a u.id p₀.id [b, c] hf ?_
  obtain ⟨cs', ds', hadd, -, hds'⟩ := hadds.exists_of_mem hmem
  generalize he : (1, u) = e at hadd
  cases hadd with
  | own hown =>
    cases he
    rw [hown, findInGraph_own] at hf
    cases hf
  | near hown hf' hlvl =>
    cases he
    obtain rfl := Option.some.inj (hf.symm.trans hf')
    exact absurd hlvl (not_lvlAt_le hg hf)
  | stray hown hnone =>
    cases he
    rw [hnone] at hf
    cases hf
  | attach hown hnone =>
    cases he
    rw [hnone] at hf
    cases hf
  | move hown hf' h₀' h₁' =>
    cases he
    obtain ⟨rfl, rfl, rfl⟩ : _ = _ ∧ _ = _ ∧ _ = _ := by
      simpa using hf.symm.trans hf'
    obtain rfl := Option.some.inj (h₀.symm.trans h₀')
    obtain rfl := Option.some.inj (h₁.symm.trans h₁')
    have hmem := hds' List.mem_cons_self
    rwa [← hp] at hmem

/-! ### Accepted maps -/

/-- The ids that are connected are those that the graph does not have. -/
theorem AddsAll.ids_perm (hadds : AddsAll g es cs ds) (hS : S ∈ peerIds g)
    (hes : ∀ e ∈ es, e.2.parentIds.getLast? = some S)
    (hmoved : ∀ c ∈ cs, c.unit.id ∉ peerIds g) :
    (cs.map fun c => c.unit.id).Perm (newIds g es) := by
  obtain ⟨added, hadds, hcs, -⟩ := hadds
  refine (hcs.perm.map _).trans (List.Perm.of_eq ?_)
  have hmoved : ∀ l ∈ added, ∀ c ∈ l.1, c.unit.id ∉ peerIds g := fun l hl c hc =>
    hmoved c (hcs.perm.mem_iff.mpr (List.mem_flatMap.mpr ⟨l, hl, hc⟩))
  clear hcs
  unfold newIds
  induction hadds with
  | nil => rfl
  | @cons e l es added hadd _ ih =>
    have ih := ih (fun e he => hes e (List.mem_cons_of_mem _ he))
      (fun l hl => hmoved l (List.mem_cons_of_mem _ hl))
    have hlast := hes e List.mem_cons_self
    have hnew := hmoved l List.mem_cons_self
    rw [List.flatMap_cons, List.map_append, ih, List.map_cons, List.filter_cons]
    obtain ⟨cs', ds'⟩ := l
    cases hadd with
    | own hown =>
      rw [if_neg]
      · rfl
      · simp only [hown, decide_eq_true_eq, not_not]
        exact mem_peerIds_of_findInGraph (findInGraph_own g)
    | near hown hf =>
      rw [if_neg]
      · rfl
      · simp only [decide_eq_true_eq, not_not]
        exact mem_peerIds_of_findInGraph hf
    | stray hown hf hu hb =>
      obtain rfl := Option.some.inj (hu.symm.trans hlast)
      exact absurd hS (findInGraph_eq_none_iff_peerIds.mp hb)
    | attach hown hf =>
      rw [if_pos]
      · rfl
      · exact decide_eq_true (findInGraph_eq_none_iff_peerIds.mp hf)
    | move hown hf =>
      exact absurd (mem_peerIds_of_findInGraph hf) (hnew _ List.mem_cons_self)

theorem acceptMap_eq_ok : RU.acceptMap incoming = .ok RU' →
    ∃ diff, createDiffConnectedBylvls .empty RU incoming = .ok diff ∧
      RU.onNodesMapDiff diff = .ok RU' := by
  intro hok
  unfold RoomMap.acceptMap at hok
  rw [createDiff_connected] at hok
  cases hd : createDiffConnectedBylvls .empty RU incoming with
  | error F =>
    rw [hd] at hok
    cases hok
  | ok diff =>
    rw [hd] at hok
    exact ⟨diff, rfl, hok⟩

theorem peerIds_perm {us : List NodeUnit} (hp : g'.values.Perm (us ++ g.values)) :
    (peerIds g').Perm (us.map NodeUnit.id ++ peerIds g) := by
  have := hp.map NodeUnit.id
  rwa [List.map_append] at this

/-- A map that is accepted, with every id there once afterwards, is fresh. -/
theorem fresh_of_acceptMap (hg : Levelled RU.iamRoot)
    (ho : Orderly RU.iamRoot.value.id RU.iamRoot) (hsize : RU.iamRoot.values.length < 2 ^ 64)
    (hS : S ∈ peerIds RU.iamRoot)
    (hes : ∀ e ∈ incomingUnits incoming, e.2.parentIds.getLast? = some S)
    (hok : RU.acceptMap incoming = .ok RU') (hnd : (peerIds RU'.iamRoot).Nodup) :
    FreshMap RU.iamRoot (incomingUnits incoming) := by
  obtain ⟨diff, hd, happly⟩ := acceptMap_eq_ok hok
  have hrun := (RoomMap.onNodesMapDiff_eq_ok.mp happly).1
  have hadds := createDiffConnectedBylvls_adds hg ho hd
  have hfree := hadds.twinFree_of_nodup hg ho hrun hnd
  have hcs := hadds.connects_of_twinFree hg ho hfree hrun
  have hvalues := values_of_connects (hadds.below ho) hcs
  have hperm := peerIds_perm hvalues
  rw [List.map_map] at hperm
  obtain ⟨hnews, hunits, hdisj⟩ := List.nodup_append.mp (hperm.nodup_iff.mp hnd)
  have hmoved : ∀ c ∈ diff.connects, c.unit.id ∉ peerIds RU.iamRoot := fun c hc hin =>
    hdisj _ (List.mem_map_of_mem hc) _ hin rfl
  have hids := hadds.ids_perm hS hes hmoved
  refine ⟨hunits, hids.nodup_iff.mp hnews, fun u hmem htwo => ?_, ?_⟩
  · -- a unit that is reported near and is at level 2 would be moved
    obtain ⟨cs', ds', hadd, hcs', -⟩ := hadds.exists_of_mem hmem
    generalize he : (1, u) = e at hadd
    have hfound : u.id ∈ peerIds RU.iamRoot := mem_peerIds.mpr ⟨_, htwo, rfl⟩
    cases hadd with
    | own hown =>
      cases he
      have hroot : RU.iamRoot.value ∈ RU.iamRoot.values := mem_values.mpr ⟨[], get?_nil _⟩
      have heq := eq_of_mem_values hunits htwo hroot hown
      have hlvl := hg.lvl [] _ (get?_nil _)
      rw [← heq] at hlvl
      simp at hlvl
    | near hown hf hlvl =>
      cases he
      obtain ⟨s, hs, hid⟩ := exists_sub_of_findInGraph hf
      rw [lvlAt_of_get? (get?_of_sub hs)] at hlvl
      have heq := eq_of_mem_values hunits htwo (mem_values.mpr ⟨_, get?_of_sub hs⟩) hid.symm
      rw [← heq] at hlvl
      simp at hlvl
    | stray hown hnone =>
      cases he
      exact findInGraph_eq_none_iff_peerIds.mp hnone hfound
    | attach hown hnone =>
      cases he
      exact findInGraph_eq_none_iff_peerIds.mp hnone hfound
    | move hown hf =>
      cases he
      exact hmoved _ (hcs' List.mem_cons_self) hfound
  · have hlen := hvalues.length_eq
    have hlen' := hids.length_eq
    rw [List.length_append, List.length_map] at hlen
    rw [List.length_map] at hlen'
    have hsize' : RU'.iamRoot.values.length < 2 ^ 64 :=
      (Lts.foldlM_eq_ok_iff.mp hrun).invariant (I := fun g => g.values.length < 2 ^ 64) hsize
        fun _ _ _ hs he => Grown.onGraph_size hs he
    omega

theorem exists_foldlM_eq_ok {σ ε F : Type} {f : σ → ε → Except F σ} {l : List ε} {s : σ}
    (hf : ∀ e ∈ l, ∀ s, ∃ s', f s e = .ok s') : ∃ s', l.foldlM f s = .ok s' := by
  induction l generalizing s with
  | nil => exact ⟨s, rfl⟩
  | cons e l ih =>
    obtain ⟨s₁, hs₁⟩ := hf e List.mem_cons_self s
    obtain ⟨s', hs'⟩ := ih (s := s₁) fun e he => hf e (List.mem_cons_of_mem _ he)
    rw [List.foldlM_cons, hs₁]
    exact ⟨s', hs'⟩

section Sufficient

variable {c : NodeGraph}

/-- The unit of a neighbour, where every id is there once. -/
theorem findInGraph_neighbour_of_nodup (hg : Levelled g) (hnd : (peerIds g).Nodup)
    (hc : c ∈ g.children) : ∃ j, findInGraph g c.value.id = some [j] := by
  obtain ⟨i, hi⟩ := List.mem_iff_getElem?.mp hc
  have hget : g.get? [i] = some c.value := get?_cons_eq_some.mpr ⟨c, hi, get?_nil c⟩
  obtain ⟨π, hπ⟩ := exists_find? (p := fun u => u.id = c.value.id) hget (decide_eq_true rfl)
  have hπ : findInGraph g c.value.id = some π := hπ
  obtain ⟨s, hs, hid⟩ := exists_sub_of_findInGraph hπ
  have heq := eq_of_mem_values hnd (mem_values.mpr ⟨π, get?_of_sub hs⟩)
    (mem_values.mpr ⟨[i], hget⟩) hid
  have hlvl := hg.lvl π _ (get?_of_sub hs)
  rw [heq, hg.lvl [i] _ hget, List.length_singleton] at hlvl
  obtain ⟨j, rfl⟩ := List.length_eq_one_iff.mp (show π.length = 1 by omega)
  exact ⟨j, hπ⟩

theorem id_ne_own (hg : Levelled g) (hnd : (peerIds g).Nodup) (hc : c ∈ g.children) :
    c.value.id ≠ g.value.id := by
  intro hid
  obtain ⟨i, hi⟩ := List.mem_iff_getElem?.mp hc
  have hget : g.get? [i] = some c.value := get?_cons_eq_some.mpr ⟨c, hi, get?_nil c⟩
  have heq := eq_of_mem_values hnd (mem_values.mpr ⟨[i], hget⟩)
    (mem_values.mpr ⟨[], get?_nil g⟩) hid
  have hlvl := hg.lvl [i] _ hget
  rw [heq, hg.lvl [] _ (get?_nil g)] at hlvl
  simp at hlvl

theorem idsTo_singleton {j : ℕ} (hc : g.sub [j] = some c) :
    idsTo g [j] = [c.value.id, g.value.id] := by
  rw [sub_singleton] at hc
  simp only [idsTo, idsBelow, hc, List.reverse_singleton, List.singleton_append]

/-- A unit that is not known is connected to the neighbour. -/
theorem exists_attachUnit {j : ℕ} (hg : Levelled g) (hj : findInGraph g S = some [j])
    {u : NodesMapDiffUnit} (hu : u.parentIds.getLast? = some S) (diff : NodesMapDiff) :
    ∃ d, attachUnit g diff u = .ok d := by
  obtain ⟨t, ht, -⟩ := exists_sub_of_findInGraph hj
  obtain ⟨vv, hchain, hlen, hlast, -⟩ := fillChain_of_length_le ht (List.cons_ne_nil j []) (by simp)
  have hlvl : lvlAt g [j] = 0 := lvlAt_of_levelled hg ht
  obtain ⟨w, rfl⟩ := List.length_eq_one_iff.mp (hlen.trans List.length_singleton)
  refine ⟨diff.connect 1 ⟨u.id, [S, w]⟩, ?_⟩
  unfold attachUnit
  simp only [hu, hj, hchain, hlast, hlvl, ne_eq, not_true, if_false]
  rfl

/-- A unit that is reported near is not at level 2. -/
theorem FreshMap.length_ne (hfresh : FreshMap g es) (hg : Levelled g) {u : NodesMapDiffUnit}
    (he : (1, u) ∈ es) (hf : findInGraph g u.id = some π) : π.length ≠ 3 := by
  intro hlen
  obtain ⟨s, hs, hid⟩ := exists_sub_of_findInGraph hf
  have hlvl : s.value.lvl = 2 := by
    rw [hg.lvl π _ (get?_of_sub hs), hlen]
    rfl
  refine hfresh.near u he (mem_values.mpr ⟨π, ?_⟩)
  rw [get?_of_sub hs, ← hid, ← hlvl]

/-- A fresh map makes a difference without a failed assert. -/
theorem FreshMap.exists_diff (hfresh : FreshMap g es) (hg : Levelled g) {j : ℕ}
    (hj : findInGraph g S = some [j])
    (hes : ∀ e ∈ es, e.2.parentIds.getLast? = some S ∧ (e.1 = 1 ∨ e.1 = 2)) :
    ∃ d, es.foldlM (fun diff e => diffConnected g e.1 diff e.2) .empty = .ok d := by
  refine exists_foldlM_eq_ok fun e he diff => ?_
  obtain ⟨hlast, hlvl⟩ := hes e he
  unfold diffConnected
  by_cases hown : e.2.id = g.value.id
  · rw [if_pos hown]
    exact ⟨diff, rfl⟩
  · rw [if_neg hown]
    cases hf : findInGraph g e.2.id with
    | none => exact exists_attachUnit hg hj hlast diff
    | some π =>
      obtain ⟨s, hs, -⟩ := exists_sub_of_findInGraph hf
      have hdepth := hg.depth π _ (get?_of_sub hs)
      unfold maxLvl at hdepth
      refine ⟨diff, if_pos ?_⟩
      rw [lvlAt_of_levelled hg hs]
      rcases hlvl with hone | htwo
      · have hne := hfresh.length_ne (u := e.2) hg (hone ▸ he) hf
        omega
      · omega

/-- Units are connected below a neighbour as long as there are addresses. -/
theorem exists_foldlM_connects {k : ℕ}
    (hk : g.children.findIdx? (fun d => d.value.id = S) = some k) (hS : S ≠ g.value.id)
    (hcs : ∀ c ∈ cs, ∃ x, c = .connect 1 ⟨x, [S, g.value.id]⟩) (hh : Levelled h)
    (hvalue : h.value = g.value) (hnear : h.children.map value = g.children.map value)
    (hroom : h.values.length + cs.length < 2 ^ 64) :
    ∃ h', cs.foldlM Entry.onGraph h = .ok h' := by
  induction cs generalizing h with
  | nil => exact ⟨h, rfl⟩
  | cons c cs ih =>
    obtain ⟨x, rfl⟩ := hcs c List.mem_cons_self
    have hk' : h.children.findIdx? (fun d => d.value.id = S) = some k := by
      rw [findIdx?_congr hnear, hk]
    have hchain : findInGraphByChain h [S, g.value.id] = some [k] := by
      rw [← hvalue] at hS ⊢
      exact (findInGraphByChain_pair hS).mpr ⟨k, hk', rfl⟩
    obtain ⟨hlt, -⟩ := List.findIdx?_eq_some_iff_getElem.mp hk'
    have hsub : h.sub [k] = some h.children[k] := by
      rw [sub_singleton, List.getElem?_eq_getElem hlt]
    have hlvl : lvlAt h [k] = 0 := lvlAt_of_levelled hh hsub
    rw [List.length_cons] at hroom
    have hstep : Entry.onGraph h (.connect 1 ⟨x, [S, g.value.id]⟩) =
        .ok (h.push (.node ⟨1, x⟩ []) [k]) := by
      have hone : clampLvl 1 = 1 := rfl
      show connectUnit h (clampLvl 1) ⟨x, [S, g.value.id]⟩ = _
      unfold connectUnit
      rw [if_neg (List.cons_ne_nil S _), hone]
      simp only [hchain, hlvl, newNodeUnit]
      rw [if_neg (by simp), if_pos (by omega)]
      rfl
    have hlen := (values_push hsub (.node ⟨1, x⟩ [])).length_eq
    rw [List.length_append, values_node, List.flatMap_nil, List.length_singleton] at hlen
    obtain ⟨h', hh'⟩ := ih (h := h.push (.node ⟨1, x⟩ []) [k])
      (fun c hc => hcs c (List.mem_cons_of_mem _ hc)) (hh.onGraph hstep)
      ((value_push _ _ _).trans hvalue)
      (by rw [push_cons, children_node, map_value_modify k fun c => value_push c _ [], hnear])
      (by omega)
    refine ⟨h', ?_⟩
    rw [List.foldlM_cons, hstep]
    exact hh'

/-- A fresh map is accepted, with every id there once afterwards. -/
theorem FreshMap.exists_acceptMap (hg : Levelled RU.iamRoot)
    (ho : Orderly RU.iamRoot.value.id RU.iamRoot)
    (hfresh : FreshMap RU.iamRoot (incomingUnits incoming)) (hc : c ∈ RU.iamRoot.children)
    (hes : ∀ e ∈ incomingUnits incoming,
      e.2.parentIds.getLast? = some c.value.id ∧ (e.1 = 1 ∨ e.1 = 2)) :
    ∃ RU', RU.acceptMap incoming = .ok RU' ∧ (peerIds RU'.iamRoot).Nodup := by
  obtain ⟨j, hj⟩ := findInGraph_neighbour_of_nodup hg hfresh.units hc
  have hown := id_ne_own hg hfresh.units hc
  obtain ⟨diff, hd⟩ := hfresh.exists_diff hg hj hes
  rw [← createDiffConnectedBylvls_eq] at hd
  have hadds := createDiffConnectedBylvls_adds hg ho hd
  -- nothing moves, and what is new goes below the neighbour
  have hnew : ∀ c' ∈ diff.connects, c'.unit.id ∉ peerIds RU.iamRoot ∧
      ∃ x, c' = .connect 1 ⟨x, [c.value.id, RU.iamRoot.value.id]⟩ := by
    intro c' hc'
    obtain ⟨e, he, cs', ds', hadd, hmem⟩ := hadds.exists_of_connect hc'
    cases hadd with
    | own | near | stray => exact absurd hmem List.not_mem_nil
    | attach _ hf hu hb =>
      rw [List.mem_singleton.mp hmem]
      obtain rfl := Option.some.inj (hu.symm.trans (hes _ he).1)
      obtain rfl := Option.some.inj (hj.symm.trans hb)
      obtain ⟨t, ht, hid⟩ := exists_sub_of_findInGraph hj
      refine ⟨findInGraph_eq_none_iff_peerIds.mp hf, ?_⟩
      rw [idsTo_singleton ht, hid]
      exact ⟨_, rfl⟩
    | move _ hf =>
      exact absurd rfl (hfresh.length_ne hg he hf)
  have hnone : diff.disconnects = [] := by
    refine List.eq_nil_iff_forall_not_mem.mpr fun d hd => ?_
    obtain ⟨e, he, cs', ds', hadd, hmem⟩ := hadds.exists_of_disconnect hd
    cases hadd with
    | own | near | stray | attach => exact absurd hmem List.not_mem_nil
    | move _ hf =>
      exact absurd rfl (hfresh.length_ne hg he hf)
  have hids := hadds.ids_perm (S := c.value.id)
    (mem_peerIds_of_findInGraph hj) (fun e he => (hes e he).1) fun c' hc' => (hnew c' hc').1
  have hlen := hids.length_eq
  rw [List.length_map] at hlen
  obtain ⟨k, hk⟩ : ∃ k, RU.iamRoot.children.findIdx? (fun d => d.value.id = c.value.id) =
      some k := by
    rw [← Option.isSome_iff_exists, List.findIdx?_isSome, List.any_eq_true]
    exact ⟨c, hc, decide_eq_true rfl⟩
  obtain ⟨g', hrun⟩ := exists_foldlM_connects hk hown (fun c' hc' => (hnew c' hc').2) hg rfl rfl
    (by have := hfresh.room; omega)
  have hentries : diff.entries.foldlM Entry.onGraph RU.iamRoot = .ok g' := by
    rw [NodesMapDiff.entries_eq, hnone, List.append_nil, hrun]
  refine ⟨{ RU with nPeersInRoom := RoomMap.countPeers RU.nPeersInRoom diff, iamRoot := g' }, ?_, ?_⟩
  · unfold RoomMap.acceptMap
    rw [createDiff_connected, hd]
    exact RoomMap.onNodesMapDiff_eq_ok.mpr ⟨hentries, rfl, rfl⟩
  · have hperm := peerIds_perm (values_of_connects (hadds.below ho) hrun)
    rw [List.map_map] at hperm
    refine hperm.nodup_iff.mpr (List.nodup_append.mpr
      ⟨hids.nodup_iff.mpr hfresh.news, hfresh.units, ?_⟩)
    rintro x hx y hy rfl
    obtain ⟨c', hc', rfl⟩ := List.mem_map.mp hx
    exact (hnew c' hc').1 hy

end Sufficient

/-- **The map of a neighbour is accepted, and every id is there once afterwards, exactly when it is
fresh.** -/
theorem run_acceptMap_iff {tr trS : List RoomChange}
    (h : Lts.Run ChangeStep (createRoomMap myId) tr RU)
    (hS : Lts.Run ChangeStep (createRoomMap S) trS RUS)
    (hnear : ∃ c ∈ RU.iamRoot.children, c.value.id = S) :
    (∃ RU', RU.acceptMap RUS.data = .ok RU' ∧ (peerIds RU'.iamRoot).Nodup) ↔
      FreshMap RU.iamRoot (incomingUnits RUS.data) := by
  have hRU := run_grown h
  have hdata {e : ℕ × NodesMapDiffUnit} := (run_grown hS).incomingUnits_data (e := e)
  obtain ⟨c, hc, rfl⟩ := hnear
  constructor
  · rintro ⟨RU', hok, hnd⟩
    obtain ⟨i, hi⟩ := List.mem_iff_getElem?.mp hc
    refine fresh_of_acceptMap hRU.levelled hRU.orderly hRU.size ?_ (fun e he => (hdata he).1) hok hnd
    exact mem_peerIds.mpr ⟨_, mem_values.mpr ⟨[i], get?_cons_eq_some.mpr ⟨c, hi, get?_nil c⟩⟩, rfl⟩
  · intro hfresh
    refine hfresh.exists_acceptMap hRU.levelled hRU.orderly hc fun e he => ?_
    obtain ⟨hlast, hlvl⟩ := hdata he
    exact ⟨hlast, hlvl.imp_left And.left⟩

/-- A neighbour with a neighbour of its own. -/
theorem run_acceptMap_neighbour : ∃ RU RUS,
    Lts.Run ChangeStep (createRoomMap "me") [.neighbour "s"] RU ∧
    Lts.Run ChangeStep (createRoomMap "s") [.neighbour "me", .neighbour "t"] RUS ∧
    ∃ RU', RU.acceptMap RUS.data = .ok RU' ∧ (peerIds RU'.iamRoot).Nodup := by
  obtain ⟨RU, hr, hvalues, hnear⟩ := Lts.exists_run_of_any RoomMap.after (createRoomMap "me")
    [.neighbour "s"]
    (fun RU => RU.iamRoot.values = [⟨-1, "me"⟩, ⟨0, "s"⟩] ∧
      ∃ c ∈ RU.iamRoot.children, c.value.id = "s") (by decide +kernel)
  obtain ⟨RUS, hrS, hdata⟩ := Lts.exists_run_of_any RoomMap.after (createRoomMap "s")
    [.neighbour "me", .neighbour "t"]
    (fun RU => RU.data = [(0, [⟨"me", ["s"]⟩, ⟨"t", ["s"]⟩]), (1, [])]) (by decide +kernel)
  refine ⟨RU, RUS, hr, hrS, (run_acceptMap_iff hr hrS hnear).mpr ?_⟩
  have hunits : incomingUnits RUS.data = [(1, ⟨"me", ["s"]⟩), (1, ⟨"t", ["s"]⟩)] := by
    rw [hdata]
    rfl
  have hids : peerIds RU.iamRoot = ["me", "s"] := by
    rw [peerIds, hvalues]
    rfl
  have hnews : newIds RU.iamRoot (incomingUnits RUS.data) = ["t"] := by
    rw [newIds, hunits, hids]
    decide
  refine ⟨by rw [hids]; decide, by rw [hnews]; decide, ?_, by rw [hnews, hvalues]; decide⟩
  rw [hunits, hvalues]
  intro u hu
  simp

/-- A unit two links below a neighbour that another neighbour reports as its own neighbour: it is
there twice afterwards. -/
theorem not_nodup_of_moved : ¬ ∀ myId S tr trS RU RUS,
    Lts.Run ChangeStep (createRoomMap myId) tr RU → Lts.Run ChangeStep (createRoomMap S) trS RUS →
    (∃ c ∈ RU.iamRoot.children, c.value.id = S) →
      ∃ RU', RU.acceptMap RUS.data = .ok RU' ∧ (peerIds RU'.iamRoot).Nodup := by
  intro h
  obtain ⟨RU, hr, hnear, hdup⟩ := Lts.exists_run_of_any RoomMap.after (createRoomMap "me")
    [.neighbour "a", .update (some [(0, [⟨"b", ["a"]⟩])]) none,
      .update (some [(0, [⟨"x", ["b"]⟩])]) none, .neighbour "s"]
    (fun RU => (∃ c ∈ RU.iamRoot.children, c.value.id = "s") ∧
      ∀ RU' ∈ (RU.acceptMap [(0, [⟨"x", ["s"]⟩]), (1, [])]).toOption,
        ¬ (peerIds RU'.iamRoot).Nodup) (by decide +kernel)
  obtain ⟨RUS, hrS, hdata⟩ := Lts.exists_run_of_any RoomMap.after (createRoomMap "s")
    [.neighbour "x"]
    (fun RU => RU.data = [(0, [⟨"x", ["s"]⟩]), (1, [])]) (by decide +kernel)
  obtain ⟨RU', hok, hnd⟩ := h _ _ _ _ RU RUS hr hrS hnear
  rw [hdata] at hok
  refine hdup RU' ?_ hnd
  rw [hok]
  rfl

end Yamb
