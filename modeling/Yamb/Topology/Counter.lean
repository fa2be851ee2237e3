import Yamb.Topology.Agreement

/-!
# The number of peers

`nPeersInRoom` moves by the number of units in a difference, the graph by what the searches find.

* `Counts`: the number of peers is that of the units and the node itself;
* `CutsLeaf`: a disconnected unit is found, and nothing is below it;
* `Along.counts_iff`: an entry keeps the count right exactly when it is one of these;
* **`run_counts`**: in a run of differences and failures of peers all of whose disconnected units are
  leaves when their turn comes, the number of peers is right and never wraps.
-/

set_option autoImplicit false

namespace Yamb

open RoseTree

/-- The number of peers if it could not wrap. -/
def Entry.count (n : ℤ) : Entry → ℤ
  | .connect _ _ => n + 1
  | .disconnect _ _ => n - 1

def Counts (s : NodeGraph × ℤ) : Prop := s.2 = 1 + (units s.1).length

/-- A disconnected unit is found, other than `IamRoot`, and has no children. -/
def CutsLeaf (s : NodeGraph × ℤ) : Entry → Prop
  | .connect _ _ => True
  | .disconnect _ e => ∃ π u, findInGraphWithParents s.1 e.parentIds e.id = some π ∧ π ≠ [] ∧
      s.1.sub π = some (.node u [])

variable {g g' t : NodeGraph} {n : ℕ} {s s' : NodeGraph × ℤ} {e : Entry} {es : List Entry}

theorem values_length_eq_one_iff : t.values.length = 1 ↔ ∃ u, t = .node u [] := by
  cases t with
  | node u cs =>
    rw [values_node, List.length_cons, Nat.add_eq_right, List.length_eq_zero_iff,
      List.flatMap_eq_nil_iff]
    constructor
    · intro h
      cases cs with
      | nil => exact ⟨u, rfl⟩
      | cons c cs =>
        have hc := h c List.mem_cons_self
        rw [values_eq_units] at hc
        cases hc
    · rintro ⟨v, hv⟩
      injection hv with _ hcs
      subst hcs
      exact fun c hc => absurd hc List.not_mem_nil

/-- **One entry** keeps the count right exactly when it cuts off one unit. -/
theorem Along.counts_iff (h : Along Entry.count s e s') (hs : Counts s) :
    Counts s' ↔ CutsLeaf s e := by
  obtain ⟨g, n⟩ := s
  obtain ⟨g', n'⟩ := s'
  obtain ⟨hg, rfl⟩ : e.onGraph g = .ok g' ∧ n' = Entry.count n e := h
  have hs : n = 1 + ((units g).length : ℤ) := hs
  show Entry.count n e = 1 + ((units g').length : ℤ) ↔ _
  cases e with
  | connect lvl e =>
    obtain ⟨π, t, ht, rfl, -⟩ := connectUnit_cases hg
    refine iff_of_true ?_ trivial
    rw [(units_push ht _).length_eq, List.length_cons, Entry.count, hs]
    push_cast
    omega
  | disconnect lvl e =>
    rcases disconnectUnit_cases hg with ⟨hnone, rfl⟩ | ⟨π, t, hfound, hπ, ht, -, rfl⟩
    · refine iff_of_false ?_ ?_
      · rw [Entry.count, hs]
        omega
      · rintro ⟨π, u, hfound, -⟩
        rw [hnone] at hfound
        cases hfound
    · have hlen := (units_erase ht hπ).length_eq
      rw [List.length_append] at hlen
      have hone : t.values.length = 1 ↔ CutsLeaf (g, n) (.disconnect lvl e) := by
        rw [values_length_eq_one_iff]
        constructor
        · rintro ⟨u, rfl⟩
          exact ⟨π, u, hfound, hπ, ht⟩
        · rintro ⟨π', u, hfound', -, ht'⟩
          obtain rfl := Option.some.inj (hfound.symm.trans hfound')
          exact ⟨u, Option.some.inj (ht.symm.trans ht')⟩
      rw [← hone, Entry.count, hs]
      omega

/-! ### Without wrapping -/

/-- The count is right, and fits a `size_t` as there are fewer units than addresses. -/
structure Fits (s : NodeGraph × ℤ) : Prop where
  counts : Counts s
  lt : s.1.values.length < 2 ^ 64

theorem Fits.pos (hs : Fits s) : 1 ≤ s.2 := by
  have := hs.counts
  rw [Counts] at this
  omega

theorem Fits.lt_size (hs : Fits s) : s.2 < 2 ^ 64 := by
  have hc := hs.counts
  have hlt := hs.lt
  rw [Counts] at hc
  rw [values_eq_units, List.length_cons] at hlt
  omega

theorem Along.fits (h : Along Entry.count s e s') (hs : Fits s) (hq : CutsLeaf s e) : Fits s' := by
  refine ⟨(h.counts_iff hs.counts).mpr hq, ?_⟩
  have hlt := hs.lt
  cases e with
  | connect lvl e =>
    obtain ⟨π, t, ht, hg', -, hlen, -⟩ := connectUnit_cases h.1
    rw [hg', (values_push ht _).length_eq, List.length_append, values_node]
    simp only [List.flatMap_nil, List.length_singleton]
    omega
  | disconnect lvl e =>
    rcases disconnectUnit_cases h.1 with ⟨-, hg'⟩ | ⟨π, t, -, hπ, ht, -, hg'⟩
    · rwa [hg']
    · have hlen := (values_erase ht hπ).length_eq
      rw [List.length_append] at hlen
      rw [hg']
      omega

/-- The entries of a run, each a leaf when it is disconnected. -/
abbrev LeafRun (s : NodeGraph × ℤ) (es : List Entry) (s' : NodeGraph × ℤ) : Prop :=
  Lts.Run (Lts.Only (Along Entry.count) CutsLeaf) s es s'

theorem LeafRun.fits (h : LeafRun s es s') (hs : Fits s) : Fits s' :=
  h.invariant hs fun _ _ _ hs he => he.1.fits hs he.2

theorem LeafRun.count_eq (h : LeafRun s es s') : s'.2 = es.foldl Entry.count s.2 :=
  (run_along_iff.mp h.of_only).2

theorem foldl_count_connect (lvl : ℤ) (us : List NodesMapDiffUnit) (n : ℤ) :
    (us.map (Entry.connect lvl)).foldl Entry.count n = n + us.length := by
  induction us generalizing n with
  | nil => simp
  | cons u us ih =>
    rw [List.map_cons, List.foldl_cons, ih, Entry.count, List.length_cons]
    push_cast
    omega

theorem foldl_count_disconnect (lvl : ℤ) (us : List NodesMapDiffUnit) (n : ℤ) :
    (us.map (Entry.disconnect lvl)).foldl Entry.count n = n - us.length := by
  induction us generalizing n with
  | nil => simp
  | cons u us ih =>
    rw [List.map_cons, List.foldl_cons, ih, Entry.count, List.length_cons]
    push_cast
    omega

/-- The count of the connected units, key by key. -/
def addPeers (n : ℕ) (m : UnitsByLvl) : ℕ :=
  m.foldl (fun n pair => (n + pair.2.length) % 2 ^ 64) n

/-- The count of the disconnected units, key by key. -/
def subPeers (n : ℕ) (m : UnitsByLvl) : ℕ :=
  m.foldl (fun n pair => ((n - pair.2.length : ℤ) % 2 ^ 64).toNat) n

/-- A run goes through the units key by key, and `f` counts the units under one key. -/
theorem LeafRun.foldl_eq {entry : ℤ → NodesMapDiffUnit → Entry}
    {f : ℕ → ℤ × List NodesMapDiffUnit → ℕ} {m : UnitsByLvl}
    (hf : ∀ {g : NodeGraph} {n : ℕ} {pair : ℤ × List NodesMapDiffUnit} {s' : NodeGraph × ℤ},
      LeafRun (g, (n : ℤ)) (pair.2.map (entry pair.1)) s' → Fits (g, (n : ℤ)) → s'.2 = f n pair)
    (h : LeafRun (g, (n : ℤ)) (UnitsByLvl.entries entry m) s') (hs : Fits (g, (n : ℤ))) :
    s'.2 = m.foldl f n := by
  induction m generalizing g n with
  | nil => rw [h.nil_inv]; rfl
  | cons pair m ih =>
    obtain ⟨⟨g₁, n₁⟩, h₁, h₂⟩ := Lts.Run.append_inv (h : LeafRun _ (_ ++ _) _)
    obtain rfl : n₁ = f n pair := hf h₁ hs
    exact ih h₂ (LeafRun.fits h₁ hs)

theorem LeafRun.addPeers_eq {m : UnitsByLvl}
    (h : LeafRun (g, (n : ℤ)) (UnitsByLvl.entries .connect m) s') (hs : Fits (g, (n : ℤ))) :
    s'.2 = addPeers n m := by
  refine LeafRun.foldl_eq (fun {g n pair s'} h hs => ?_) h hs
  have hlt : s'.2 < 2 ^ 64 := (LeafRun.fits h hs).lt_size
  have hcount : s'.2 = n + pair.2.length := by
    rw [← foldl_count_connect pair.1]
    exact LeafRun.count_eq h
  omega

theorem LeafRun.subPeers_eq {m : UnitsByLvl}
    (h : LeafRun (g, (n : ℤ)) (UnitsByLvl.entries .disconnect m) s') (hs : Fits (g, (n : ℤ))) :
    s'.2 = subPeers n m := by
  refine LeafRun.foldl_eq (fun {g n pair s'} h hs => ?_) h hs
  have hlt : s'.2 < 2 ^ 64 := (LeafRun.fits h hs).lt_size
  have hpos : 1 ≤ s'.2 := (LeafRun.fits h hs).pos
  have hcount : s'.2 = n - pair.2.length := by
    rw [← foldl_count_disconnect pair.1]
    exact LeafRun.count_eq h
  omega

theorem UnitsByLvl.entries_append (entry : ℤ → NodesMapDiffUnit → Entry) (m m' : UnitsByLvl) :
    UnitsByLvl.entries entry (m ++ m') = UnitsByLvl.entries entry m ++ UnitsByLvl.entries entry m' :=
  List.flatMap_append

/-- Before some key of the disconnected units there are fewer peers than units under it. -/
def Wraps (n : ℕ) (diff : NodesMapDiff) : Prop :=
  ∃ m pair m', diff.disconnectedBylvls = m ++ pair :: m' ∧
    subPeers (addPeers n diff.connectedBylvls) m < pair.2.length

theorem LeafRun.not_wraps {diff : NodesMapDiff} (h : LeafRun (g, (n : ℤ)) diff.entries s')
    (hs : Fits (g, (n : ℤ))) : ¬ Wraps n diff := by
  rintro ⟨m, pair, m', hdis, hlt⟩
  obtain ⟨⟨g₁, n₁⟩, h₁, h₂⟩ := Lts.Run.append_inv h
  obtain rfl := LeafRun.addPeers_eq h₁ hs
  have hfits₁ := LeafRun.fits h₁ hs
  rw [hdis, UnitsByLvl.entries_append] at h₂
  obtain ⟨⟨g₂, n₂⟩, h₂, h₃⟩ := h₂.append_inv
  obtain rfl := LeafRun.subPeers_eq h₂ hfits₁
  have hfits₂ := LeafRun.fits h₂ hfits₁
  obtain ⟨⟨g₃, n₃⟩, h₃, -⟩ := Lts.Run.append_inv (h₃ : LeafRun _ (_ ++ _) _)
  have hpos := (LeafRun.fits h₃ hfits₂).pos
  have hn₃ : n₃ = _ := LeafRun.count_eq h₃
  rw [foldl_count_disconnect] at hn₃
  simp only at hpos hn₃
  omega

theorem LeafRun.countPeers_eq {diff : NodesMapDiff} (h : LeafRun (g, (n : ℤ)) diff.entries s')
    (hs : Fits (g, (n : ℤ))) : s'.2 = RoomMap.countPeers n diff := by
  obtain ⟨⟨g₁, n₁⟩, h₁, h₂⟩ := Lts.Run.append_inv h
  obtain rfl := LeafRun.addPeers_eq h₁ hs
  exact LeafRun.subPeers_eq h₂ (LeafRun.fits h₁ hs)

/-! ### Differences and failures -/

/-- A room, with the keys of `PeersInRoom`. -/
structure PeersAndMap where
  peersInRoom : List PeerId
  map : RoomMap

inductive PeerEvent
  | addNode (peerId : PeerId)
  | diff (d : NodesMapDiff)
  | onFailure (peerid : PeerId)

/-- The difference that an event applies to the graph. -/
def PeerEvent.applied (RU : RoomMap) : PeerEvent → NodesMapDiff
  | .addNode _ => .empty
  | .diff d => d
  | .onFailure peerid => lostPeer RU peerid

/-- A peer that fails stays in `PeersInRoom`. -/
inductive PeerStep (R : PeersAndMap) : PeerEvent → PeersAndMap → Prop
  | addNode (peerId : PeerId) : PeerStep R (.addNode peerId)
      { R with peersInRoom := R.peersInRoom.insert peerId }
  | diff {RU : RoomMap} (d : NodesMapDiff) (h : R.map.onNodesMapDiff d = .ok RU) :
      PeerStep R (.diff d) { R with map := RU }
  | onFailure {RU : RoomMap} (peerid : PeerId) (hp : peerid ∈ R.peersInRoom)
      (h : R.map.applyDiff (lostPeer R.map peerid) = .ok RU) :
      PeerStep R (.onFailure peerid) { R with map := RU }

/-- The graph with the number of peers. -/
def RoomMap.counted (RU : RoomMap) : NodeGraph × ℤ := (RU.iamRoot, RU.nPeersInRoom)

/-- Every disconnected unit of the event is a leaf when its turn comes. -/
def PeersAndMap.Leaves (R : PeersAndMap) (e : PeerEvent) : Prop :=
  InTurn Entry.count CutsLeaf R.map.counted (e.applied R.map).entries

/-- The subtraction does not wrap. -/
def PeersAndMap.InRange (R : PeersAndMap) (e : PeerEvent) : Prop :=
  ¬ Wraps R.map.nPeersInRoom (e.applied R.map)

variable {R R' : PeersAndMap} {e : PeerEvent} {tr : List PeerEvent} {myId : PeerId}

theorem PeerStep.applied (h : PeerStep R e R') :
    (e.applied R.map).entries.foldlM Entry.onGraph R.map.iamRoot = .ok R'.map.iamRoot ∧
      R'.map.nPeersInRoom = RoomMap.countPeers R.map.nPeersInRoom (e.applied R.map) := by
  cases h with
  | addNode => exact ⟨rfl, rfl⟩
  | diff d h =>
    obtain ⟨hg, hn, -⟩ := RoomMap.onNodesMapDiff_eq_ok.mp h
    exact ⟨hg, hn⟩
  | onFailure p hp h =>
    obtain ⟨RU₁, h₁, rfl⟩ := RoomMap.applyDiff_eq_ok.mp h
    obtain ⟨hg, hn, -⟩ := RoomMap.onNodesMapDiff_eq_ok.mp h₁
    exact ⟨hg, hn⟩

theorem PeerStep.fits (h : PeerStep R e R') (hs : Fits R.map.counted) (hl : R.Leaves e) :
    Fits R'.map.counted ∧ R.InRange e := by
  obtain ⟨hg, hn⟩ := h.applied
  have hr : Lts.Run (Along Entry.count) R.map.counted (e.applied R.map).entries
      (R'.map.iamRoot, (e.applied R.map).entries.foldl Entry.count R.map.nPeersInRoom) :=
    run_along_iff.mpr ⟨hg, rfl⟩
  have hr := run_along_of_inTurn hr hl
  have hcount : (e.applied R.map).entries.foldl Entry.count R.map.nPeersInRoom =
      (R'.map.nPeersInRoom : ℤ) := by
    rw [hn]
    exact LeafRun.countPeers_eq hr hs
  rw [hcount] at hr
  exact ⟨LeafRun.fits hr hs, LeafRun.not_wraps hr hs⟩

theorem createRoomMap_fits (myId : PeerId) : Fits (createRoomMap myId).counted :=
  ⟨rfl, Nat.one_lt_two_pow (by decide)⟩

/-- **The number of peers is right, and no subtraction wraps**, in a run in which every disconnected
unit is a leaf when its turn comes. -/
theorem run_counts
    (h : Lts.Run (Lts.Only PeerStep PeersAndMap.Leaves) ⟨[], createRoomMap myId⟩ tr R) :
    Lts.Run (Lts.Only PeerStep PeersAndMap.InRange) ⟨[], createRoomMap myId⟩ tr R ∧
      R.map.nPeersInRoom = 1 + (units R.map.iamRoot).length := by
  suffices H : Lts.Run (Lts.Only PeerStep PeersAndMap.InRange) ⟨[], createRoomMap myId⟩ tr R ∧
      Fits R.map.counted by
    have hc : (R.map.nPeersInRoom : ℤ) = 1 + ((units R.map.iamRoot).length : ℤ) := H.2.counts
    exact ⟨H.1, by omega⟩
  induction h with
  | nil => exact ⟨.nil, createRoomMap_fits myId⟩
  | snoc _ he ih =>
    obtain ⟨hr, hs⟩ := ih
    obtain ⟨hfits, hin⟩ := he.1.fits hs he.2
    exact ⟨hr.snoc ⟨he.1, hin⟩, hfits⟩

/-- A neighbour is connected by a difference and fails. -/
theorem run_counts_neighbour : ∃ R,
    Lts.Run (Lts.Only PeerStep PeersAndMap.InRange) ⟨[], createRoomMap "me"⟩
      [.diff ⟨[(0, [⟨"v", ["me"]⟩])], []⟩, .addNode "v", .onFailure "v"] R ∧
    R.map.nPeersInRoom = 1 + (units R.map.iamRoot).length := by
  let RU₁ : RoomMap := { createRoomMap "me" with
    nPeersInRoom := 2
    iamRoot := .node ⟨-1, "me"⟩ [.node ⟨0, "v"⟩ []] }
  have hdiff : (createRoomMap "me").onNodesMapDiff ⟨[(0, [⟨"v", ["me"]⟩])], []⟩ = .ok RU₁ :=
    RoomMap.onNodesMapDiff_eq_ok.mpr ⟨rfl, rfl, rfl⟩
  have hfound : findInGraphWithParents RU₁.iamRoot ["me"] "v" = some [0] := by decide
  obtain ⟨RU₂, hlost⟩ : ∃ RU₂, RU₁.applyDiff (lostPeer RU₁ "v") = .ok RU₂ := ⟨_, rfl⟩
  have h₁ : PeersAndMap.Leaves ⟨[], createRoomMap "me"⟩ (.diff ⟨[(0, [⟨"v", ["me"]⟩])], []⟩) :=
    inTurn_singleton.mpr trivial
  have h₂ : PeersAndMap.Leaves ⟨[], RU₁⟩ (.addNode "v") := fun t₁ e t₂ s hes => by
    simp [PeerEvent.applied, NodesMapDiff.entries, NodesMapDiff.empty, UnitsByLvl.entries] at hes
  have h₃ : PeersAndMap.Leaves ⟨["v"], RU₁⟩ (.onFailure "v") :=
    inTurn_singleton.mpr ⟨[0], ⟨0, "v"⟩, hfound, List.cons_ne_nil 0 [], rfl⟩
  have hrun : Lts.Run (Lts.Only PeerStep PeersAndMap.Leaves) ⟨[], createRoomMap "me"⟩
      [.diff ⟨[(0, [⟨"v", ["me"]⟩])], []⟩, .addNode "v", .onFailure "v"] ⟨["v"], RU₂⟩ :=
    ((Lts.Run.single ⟨.diff _ hdiff, h₁⟩).snoc ⟨.addNode "v", h₂⟩).snoc
      ⟨.onFailure "v" List.mem_cons_self hlost, h₃⟩
  exact ⟨_, run_counts hrun⟩

/-- The failure of a peer that no difference has connected: the count is `0`, with `IamRoot` alone
in the graph. -/
theorem not_counts_unknown_peer : ¬ ∀ myId tr R,
    Lts.Run PeerStep ⟨[], createRoomMap myId⟩ tr R →
      Lts.Run (Lts.Only PeerStep PeersAndMap.InRange) ⟨[], createRoomMap myId⟩ tr R ∧
        R.map.nPeersInRoom = 1 + (units R.map.iamRoot).length := by
  intro h
  obtain ⟨RU, hr, hn⟩ := exists_diff_run (createRoomMap "me") [lostPeer (createRoomMap "me") "v"]
    (fun RU => RU.nPeersInRoom = 0) (by decide +kernel)
  obtain ⟨RU', hdiff, hnil⟩ := hr.cons_inv
  obtain rfl := hnil.nil_inv
  have hrun := (Lts.Run.single (PeerStep.addNode (R := ⟨[], createRoomMap "me"⟩) "v")).snoc
    (.onFailure "v" (by decide) hdiff)
  have hcount := (h _ _ _ hrun).2
  simp only at hcount
  omega

end Yamb
