import Yamb.Registry
import Yamb.Topology.Built

/-!
# The neighbours in the topology

A node with the topology of its rooms: the peers of a room, the graph and the arrays are three views
of its neighbours.

* `MapNode`, `MapStep`: the calls of a node and the maps it receives, with what they do to the
  topology;
* `Shown`: the three views agree, and `getNodeIds` lists every peer;
* `Bare`: `createPC` puts a peer into `PeersInRoom` alone, so no room has a unit below `IamRoot`;
* **`run_shown_iff`**: the views agree in every state of a run exactly when no peer enters a joined
  room.
-/

set_option autoImplicit false

namespace Yamb

open RoseTree

/-- `dump` of a JSON array. -/
def jsonArray (items : List String) : String := "[" ++ ",".intercalate items ++ "]"

def NodesMapDiffUnit.dump (u : NodesMapDiffUnit) : String :=
  "\x7b\"Id\":" ++ jsonString u.id ++ ",\"ParentIds\":" ++ jsonArray (u.parentIds.map jsonString)
    ++ "\x7d"

/-- The members of a JSON object are in the order of their names. -/
def UnitsByLvl.dump (m : UnitsByLvl) : String :=
  let members := (m.map fun pair => (toString pair.1, pair.2)).mergeSort fun a b => a.1 ≤ b.1
  "\x7b" ++ ",".intercalate (members.map fun e =>
    jsonString e.1 ++ ":" ++ jsonArray (e.2.map NodesMapDiffUnit.dump)) ++ "\x7d"

def NodesMapDiff.dump (diff : NodesMapDiff) : String :=
  "\x7b\"connectedBylvls\":" ++ UnitsByLvl.dump diff.connectedBylvls ++ ",\"disconnectedBylvls\":"
    ++ UnitsByLvl.dump diff.disconnectedBylvls ++ "\x7d"

/-- The ids below `IamRoot`. -/
def RoomMap.getNodeIds (RU : RoomMap) : List PeerId := collectAllNodeIds [] RU.iamRoot

/-- A node with the topology of each room of its `RoomManager`. -/
structure MapNode where
  node : Node
  maps : PointerCollection RoomMap

namespace MapNode

def new (user : String) (hasher : String → Hash) : MapNode := ⟨.new user hasher, ∅⟩

/-- `onClosed` or `onFailure`, up to `sendNodeMap`: what happens to the room that lists the peer. -/
def onLost (N : MapNode) (conn : Ptr)
    (apply : RoomMap → NodesMapDiff → Except GraphFault RoomMap) :
    Except GraphFault (PointerCollection RoomMap) :=
  match N.node.heap conn with
  | none => .ok N.maps
  | some peer =>
    let roomId := N.node.roomOf peer.peerid
    if roomId = "" ∨ roomId ∉ N.node.peersInLvlMutexes then .ok N.maps
    else
      match N.maps[roomId]? with
      | none => .ok N.maps
      | some RU => (apply RU (lostPeer RU peer.peerid)).map fun RU => N.maps.insert roomId RU

/-- What a call does to the topology. The lines of `createPC` that told the graph and the arrays of
the new peer are comments; `onClosed` tells the arrays alone. -/
def mapsAfter (N : MapNode) : Call → Except GraphFault (PointerCollection RoomMap)
  | .joinRoomWS roomId _ =>
    .ok (if roomId ∈ N.node.rooms then N.maps
      else N.maps.insertIfNew roomId (createRoomMap (N.node.myIdInRoom roomId)))
  | .createPC _ _ _ | .createPCOf _ _ => .ok N.maps
  | .onClosed conn _ => N.onLost conn fun RU diff => .ok (RU.onNodesMapDiffJson diff)
  | .onFailure conn _ => N.onLost conn RoomMap.applyDiff
  | .leaveRoomWS roomId =>
    .ok (if roomId ∈ N.node.rooms then N.maps.erase roomId else N.maps)

/-- `updateNodeMap` with `sendNodeMap`. -/
def updateNodeMap (N : MapNode) (roomId : RoomId) (fromWhomUpdate : PeerId)
    (connected disconnected : Option IncomingMap) (now : ℕ) : Except GraphFault MapNode :=
  match N.maps[roomId]? with
  | none => .ok N
  | some RU =>
    if roomId ∉ N.node.peersInLvlMutexes then .ok N
    else (Yamb.updateNodeMap RU connected disconnected).map fun
      | (_, none) => N
      | (RU, some diff) =>
        { node := (N.node.broadcast2Room roomId diff.dump .updateMap fromWhomUpdate now).1
          maps := N.maps.insert roomId RU }

/-- `handleWebrtcNodeMessageSystem` for a message that carries a map. -/
def handleMap (N : MapNode) (roomId : RoomId) (hash : Hash) (fromWhomUpdate : PeerId)
    (connected disconnected : Option IncomingMap) (now : ℕ) : Except GraphFault MapNode :=
  match N.node.roomManager[roomId]? with
  | none => .ok N
  | some RU =>
    if RU.systemMsgHashesBuffer.isExists hash then .ok N
    else updateNodeMap { N with node := N.node.setRoom roomId (RU.putHash .updateMap hash) } roomId
      fromWhomUpdate connected disconnected now

end MapNode

inductive MapEvent
  | call (c : Call)
  | handleMap (roomId : RoomId) (hash : Hash) (fromWhomUpdate : PeerId)
      (connected disconnected : Option IncomingMap) (now : ℕ)

/-- The steps with a defined outcome; a failed assert ends the process. -/
inductive MapStep (N : MapNode) : MapEvent → MapNode → Prop
  | call {c : Call} {maps : PointerCollection RoomMap}
      (h : (N.node.call c).2 ≠ .error .useAfterFree) (hm : N.mapsAfter c = .ok maps) :
      MapStep N (.call c) ⟨(N.node.call c).1, maps⟩
  | handleMap {roomId : RoomId} {hash : Hash} {fromWhomUpdate : PeerId}
      {connected disconnected : Option IncomingMap} {now : ℕ} {N' : MapNode}
      (h : N.handleMap roomId hash fromWhomUpdate connected disconnected now = .ok N') :
      MapStep N (.handleMap roomId hash fromWhomUpdate connected disconnected now) N'

/-- **The neighbours of a joined room** are the same in the three views, and `getNodeIds` has them. -/
def MapNode.Shown (N : MapNode) : Prop :=
  ∀ roomId ∈ N.node.rooms, ∃ RU M, N.node.roomManager[roomId]? = some RU ∧
    N.maps[roomId]? = some M ∧
    (∀ k, (∃ c ∈ M.iamRoot.children, c.value.id = k) ↔ k ∈ RU.peersInRoom) ∧
    (∀ k, (∃ e ∈ M.stored 0, e.id = k) ↔ k ∈ RU.peersInRoom) ∧
    ∀ k ∈ RU.peersInRoom, k ∈ M.getNodeIds

/-- A peer with this id and mode would be entered in a room. -/
def Node.Admits (n : Node) (peerid : PeerId) (sdptype : Mode) : Prop :=
  ∀ conn peer, n.peerManager[peerid]? = some conn → n.heap conn = some peer → peer.mode = sdptype

/-- The event enters no peer in a joined room. -/
def MapNode.EntersNone (N : MapNode) : MapEvent → Prop
  | .call (.createPC peerid sdptype roomId) =>
    roomId ∈ N.node.rooms → ¬ N.node.Admits peerid sdptype
  | .call (.createPCOf peer roomId) =>
    N.node.user < peer.user ++ roomId → roomId ∈ N.node.rooms →
      ¬ N.node.Admits (peer.user ++ roomId) .offer
  | _ => True

/-! ### A map that meets an empty topology -/

/-- No unit below `IamRoot`, none in the arrays of the neighbours. -/
structure RoomMap.Bare (M : RoomMap) : Prop where
  children : M.iamRoot.children = []
  stored : M.stored 0 = []

variable {g : NodeGraph} {x : PeerId} {π : Path}

theorem sub_of_childless (hg : g.children = []) {s : NodeGraph} (h : g.sub π = some s) :
    π = [] ∧ s = g := by
  cases π with
  | nil =>
    rw [sub_nil] at h
    exact ⟨rfl, (Option.some.inj h).symm⟩
  | cons i π =>
    obtain ⟨c, hc, -⟩ := sub_cons_eq_some.mp h
    rw [hg] at hc
    cases hc

theorem findInGraph_of_childless (hg : g.children = []) (h : findInGraph g x = some π) :
    π = [] ∧ g.value.id = x := by
  obtain ⟨s, hs, hx⟩ := exists_sub_of_findInGraph h
  obtain ⟨rfl, rfl⟩ := sub_of_childless hg hs
  exact ⟨rfl, hx⟩

theorem diffConnected_of_childless (hg : g.children = []) {lvl : ℕ} {diff d : NodesMapDiff}
    {unit : NodesMapDiffUnit} (h : diffConnected g lvl diff unit = .ok d) : d = diff := by
  unfold diffConnected at h
  split_ifs at h with hid
  · exact (Except.ok.inj h).symm
  · cases hf : findInGraph g unit.id with
    | some π => exact absurd (findInGraph_of_childless hg hf).2.symm hid
    | none =>
      simp only [hf, attachUnit] at h
      cases hl : unit.parentIds.getLast? with
      | none =>
        rw [hl] at h
        cases h
      | some back =>
        simp only [hl] at h
        cases hb : findInGraph g back with
        | none =>
          rw [hb] at h
          exact (Except.ok.inj h).symm
        | some ρ =>
          obtain ⟨rfl, -⟩ := findInGraph_of_childless hg hb
          rw [hb] at h
          cases h

theorem findInGraphWithoutParents_of_childless (hg : g.children = []) (hx : x ≠ g.value.id)
    (ids : List PeerId) : findInGraphWithoutParents g ids x = .ok none := by
  unfold findInGraphWithoutParents
  split_ifs with hids
  · rw [← node_value_children g, hg, findInGraphWithoutParentsInternal, if_neg (Ne.symm hx),
      findInChilds]
  · cases hf : findInGraph g x with
    | none => rfl
    | some π => exact absurd (findInGraph_of_childless hg hf).2.symm hx

theorem diffDisconnected_of_childless (hg : g.children = []) {lvl : ℕ} {diff d : NodesMapDiff}
    {unit : NodesMapDiffUnit} (h : diffDisconnected g lvl diff unit = .ok d) : d = diff := by
  unfold diffDisconnected at h
  split_ifs at h with hid
  · exact (Except.ok.inj h).symm
  · cases hf : findInGraphWithParents g unit.parentIds unit.id with
    | some π =>
      obtain ⟨s, hs, hx⟩ := findInTurn_append_singleton hf
      obtain ⟨-, rfl⟩ := sub_of_childless hg hs
      exact absurd hx.symm hid
    | none =>
      rw [hf, findInGraphWithoutParents_of_childless hg hid] at h
      exact (Except.ok.inj h).symm

/-- A loop over an incoming map whose body leaves the difference alone. -/
theorem foldlM_incoming (body : ℕ → NodesMapDiff → NodesMapDiffUnit → Except GraphFault NodesMapDiff)
    (hbody : ∀ lvl diff unit d, body lvl diff unit = .ok d → d = diff) {incoming : IncomingMap}
    {diff d : NodesMapDiff}
    (h : incoming.foldlM (fun diff itr => itr.2.foldlM (body (clampLvl (itr.1 + 1))) diff) diff =
      .ok d) : d = diff := by
  refine (Lts.foldlM_eq_ok_iff.mp h).invariant (I := fun d => d = diff) rfl fun d itr d' hd he => ?_
  refine (Lts.foldlM_eq_ok_iff.mp he).invariant (I := fun d => d = diff) hd fun d u d' hd he => ?_
  rw [hbody _ _ _ _ he, hd]

/-- **A map changes nothing** in a room without units below `IamRoot`. -/
theorem updateNodeMap_of_childless {RU : RoomMap} (hg : RU.iamRoot.children = [])
    {connected disconnected : Option IncomingMap} {r : RoomMap × Option NodesMapDiff}
    (h : updateNodeMap RU connected disconnected = .ok r) : r = (RU, none) := by
  have hconnected {d : NodesMapDiff} {incoming : IncomingMap}
      (h : createDiffConnectedBylvls .empty RU incoming = .ok d) : d = .empty :=
    foldlM_incoming (diffConnected RU.iamRoot) (fun _ _ _ _ => diffConnected_of_childless hg) h
  have hdisconnected {d : NodesMapDiff} {incoming : IncomingMap}
      (h : createDiffDisconnectedBylvls .empty RU incoming = .ok d) : d = .empty :=
    foldlM_incoming (diffDisconnected RU.iamRoot) (fun _ _ _ _ => diffDisconnected_of_childless hg) h
  have hdiff {d : NodesMapDiff} (h : createDiff RU connected disconnected = .ok d) :
      d = .empty := by
    unfold createDiff at h
    cases connected with
    | none =>
      cases disconnected with
      | none => exact (Except.ok.inj h).symm
      | some incoming => exact hdisconnected h
    | some incoming =>
      cases hc : createDiffConnectedBylvls .empty RU incoming with
      | error F =>
        simp only [hc] at h
        cases h
      | ok d₁ =>
        obtain rfl := hconnected hc
        simp only [hc] at h
        cases disconnected with
        | none => exact (Except.ok.inj h).symm
        | some incoming => exact hdisconnected h
  unfold updateNodeMap at h
  cases hd : createDiff RU connected disconnected with
  | error F =>
    rw [hd] at h
    cases h
  | ok d =>
    obtain rfl := hdiff hd
    rw [hd] at h
    exact (Except.ok.inj h).symm

/-! ### A node without peers in its rooms -/

namespace Node

variable {n : Node} {roomId : RoomId} {peerid : PeerId} {conn : Ptr}

/-- The peer that has entered a joined room is listed. -/
theorem unlisted_enterRoom_iff (h : n.Unlisted) (hs : n.Shape) :
    (n.enterRoom peerid conn roomId).1.Unlisted ↔ roomId ∉ n.rooms := by
  by_cases hr : roomId ∈ n.rooms
  · obtain ⟨RU, hRU, he⟩ := enterRoom_joined hs hr peerid conn
    rw [he]
    refine iff_of_false (fun hno => hno roomId peerid conn ?_) (not_not.mpr hr)
    exact (listed_setRoom_addNode hRU _ _ _ _ _).mpr (.inr ⟨rfl, rfl, rfl, h roomId peerid⟩)
  · rw [enterRoom_not_joined hs hr]
    exact iff_of_true h hr

/-- What both `createPC` share: a peer of another mode is refused, else one enters the room. -/
inductive Opens (n : Node) (peerid : PeerId) (sdptype : Mode) (roomId : RoomId) :
    Node × Except Fault Bool → Prop
  | refuse (hno : ¬ n.Admits peerid sdptype) : Opens n peerid sdptype roomId (n, .ok false)
  | enter (h : n.Admits peerid sdptype) {m : Node} (hs : m.Shape) (hrooms : m.rooms = n.rooms)
      (hRM : m.roomManager = n.roomManager) (conn : Ptr) :
      Opens n peerid sdptype roomId (m.enterRoom peerid conn roomId)

theorem opens (hs : n.Shape) {peer : Peer} (touch : Ptr → Peer → Node)
    (htouch : ∀ conn p, n.heap conn = some p → (touch conn p).Shape ∧
      (touch conn p).rooms = n.rooms ∧ (touch conn p).roomManager = n.roomManager)
    {r : Node × Except Fault Bool} (hr : r = match n.peerManager[peer.peerid]? with
      | none => (n.withPeer peer).enterRoom peer.peerid n.nextPtr roomId
      | some conn =>
        match n.heap conn with
        | none => (n, .error .useAfterFree)
        | some p =>
          if p.mode ≠ peer.mode then (n, .ok false)
          else (touch conn p).enterRoom peer.peerid conn roomId) :
    n.Opens peer.peerid peer.mode roomId r := by
  subst hr
  by_cases hnew : peer.peerid ∈ n.peerManager
  · obtain ⟨conn, hreg⟩ := PointerCollection.exists_of_mem hnew
    obtain ⟨p, hp, -⟩ := hs.live _ _ hreg
    have hadmits : n.Admits peer.peerid peer.mode ↔ p.mode = peer.mode := by
      constructor
      · exact fun h => h conn p hreg hp
      · intro h conn' p' hreg' hp'
        obtain rfl := Option.some.inj (hreg.symm.trans hreg')
        obtain rfl := Option.some.inj (hp.symm.trans hp')
        exact h
    obtain ⟨hs', hrooms, hRM⟩ := htouch conn p hp
    simp only [hreg, hp]
    split_ifs with hmode
    · exact .refuse fun ha => hmode (hadmits.mp ha)
    · exact .enter (hadmits.mpr (not_not.mp hmode)) hs' hrooms hRM conn
  · rw [PointerCollection.getElem?_of_not_mem hnew]
    have hadmits : n.Admits peer.peerid peer.mode := fun conn _ hreg =>
      absurd (PointerCollection.mem_of_getElem? hreg) hnew
    exact .enter hadmits (hs.withPeer hnew) rfl rfl n.nextPtr

theorem opens_createPC (hs : n.Shape) (peerid : PeerId) (sdptype : Mode) (roomId : RoomId) :
    n.Opens peerid sdptype roomId (n.createPC peerid sdptype roomId) :=
  @opens n roomId hs (.new peerid sdptype roomId) (fun _ _ => n) (fun _ _ _ => ⟨hs, rfl, rfl⟩) _ rfl

theorem opens_createPCOf (hs : n.Shape) {peer : Address} (ho : n.user < peer.user ++ roomId) :
    n.Opens (peer.user ++ roomId) .offer roomId (n.createPCOf peer roomId) := by
  have hnew := alloc_createOffer_register n (.new (peer.user ++ roomId) .offer roomId)
  refine @opens n roomId hs (Peer.new (peer.user ++ roomId) .offer roomId).createOffer
    n.createOffer (fun conn p hp => ⟨hs.setPeer hp rfl, rfl, rfl⟩) _ ?_
  rw [← hnew, createPCOf, if_pos ho]
  rfl

theorem enterRoom_rooms (n : Node) (peerid : PeerId) (conn : Ptr) (roomId : RoomId) :
    (n.enterRoom peerid conn roomId).1.rooms = n.rooms := by
  unfold enterRoom
  split
  · rfl
  · split <;> rfl

variable {sdptype : Mode} {r : Node × Except Fault Bool}

theorem Opens.shape (ho : n.Opens peerid sdptype roomId r) (hs : n.Shape) : r.1.Shape := by
  cases ho with
  | refuse => exact hs
  | enter _ hm => exact hm.enterRoom _ _ _

theorem Opens.rooms_eq (ho : n.Opens peerid sdptype roomId r) : r.1.rooms = n.rooms := by
  cases ho with
  | refuse => rfl
  | enter _ _ hrooms => rw [enterRoom_rooms, hrooms]

theorem Opens.unlisted_iff (ho : n.Opens peerid sdptype roomId r) (h : n.Unlisted) :
    r.1.Unlisted ↔ (roomId ∈ n.rooms → ¬ n.Admits peerid sdptype) := by
  cases ho with
  | refuse hno => exact iff_of_true h fun _ => hno
  | enter ha hm hrooms hRM conn =>
    rw [unlisted_enterRoom_iff (h.congr hRM) hm, hrooms]
    exact ⟨fun hno hr => absurd hr hno, fun hno hr => hno hr ha⟩

end Node

/-! ### One step and many -/

/-- What every step from such a node keeps, as long as no peer enters a room. -/
structure MapNode.Bare (N : MapNode) : Prop where
  shape : N.node.Shape
  mem_maps : ∀ roomId : RoomId, roomId ∈ N.maps ↔ roomId ∈ N.node.rooms
  bare : ∀ (roomId : RoomId) (M : RoomMap), N.maps[roomId]? = some M → M.Bare

variable {N N' : MapNode} {e : MapEvent} {tr : List MapEvent}

theorem MapNode.Bare.shown_iff (h : N.Bare) : N.Shown ↔ N.node.Unlisted := by
  constructor
  · intro hshown roomId k p hl
    obtain ⟨RU, hRU, hk⟩ := hl
    have hr := (h.shape.mem_rooms roomId).mpr (PointerCollection.mem_of_getElem? hRU)
    obtain ⟨RU', M, hRU', hM, hgraph, -⟩ := hshown roomId hr
    obtain rfl := Option.some.inj (hRU.symm.trans hRU')
    obtain ⟨c, hc, -⟩ := (hgraph k).mpr (PointerCollection.mem_of_getElem? hk)
    rw [(h.bare roomId M hM).children] at hc
    cases hc
  · intro hno roomId hr
    obtain ⟨RU, hRU⟩ := PointerCollection.exists_of_mem ((h.shape.mem_rooms roomId).mp hr)
    obtain ⟨M, hM⟩ := PointerCollection.exists_of_mem ((h.mem_maps roomId).mpr hr)
    have hempty (k : PeerId) : k ∉ RU.peersInRoom := by
      intro hk
      obtain ⟨p, hp⟩ := PointerCollection.exists_of_mem hk
      exact hno roomId k p ⟨RU, hRU, hp⟩
    have hbare := h.bare roomId M hM
    refine ⟨RU, M, hRU, hM, fun k => ?_, fun k => ?_, fun k hk => absurd hk (hempty k)⟩
    · simp [hbare.children, hempty k]
    · simp [hbare.stored, hempty k]

theorem createRoomMap_bare (myId : PeerId) : (createRoomMap myId).Bare := ⟨rfl, rfl⟩

theorem MapNode.new_bare (user : String) (hasher : String → Hash) : (new user hasher).Bare where
  shape := Node.new_shape user hasher
  mem_maps := fun roomId => by simp [new, Node.new]
  bare := fun roomId M hM => by simp [new] at hM

theorem MapNode.new_unlisted (user : String) (hasher : String → Hash) :
    (new user hasher).node.Unlisted := by
  rintro roomId k p ⟨RU, hRU, -⟩
  simp [new, Node.new] at hRU

theorem MapNode.onLost_of_unlisted (h : N.node.Unlisted) (conn : Ptr)
    (apply : RoomMap → NodesMapDiff → Except GraphFault RoomMap) :
    N.onLost conn apply = .ok N.maps := by
  unfold onLost
  cases N.node.heap conn with
  | none => rfl
  | some peer => simp only [h.roomOf, true_or, if_true]

/-- A call leaves the node of before, or its rooms, registry and live peers in shape. -/
theorem MapNode.Bare.joinRoomWS (h : N.Bare) (roomId : RoomId) (junk : ℕ → Hash) :
    Bare ⟨N.node.joinRoomWS roomId junk, if roomId ∈ N.node.rooms then N.maps
      else N.maps.insertIfNew roomId (createRoomMap (N.node.myIdInRoom roomId))⟩ := by
  refine ⟨h.shape.joinRoomWS roomId junk, fun r => ?_, fun r M hM => ?_⟩
  · simp only [Node.joinRoomWS]
    split_ifs with hr
    · exact h.mem_maps r
    · rw [Std.ExtTreeMap.mem_insertIfNew, List.mem_append, List.mem_singleton, h.mem_maps,
        Std.LawfulEqCmp.compare_eq_iff_eq, or_comm, eq_comm]
  · simp only at hM
    split_ifs at hM with hr
    · exact h.bare r M hM
    · rw [PointerCollection.getElem?_insertIfNew] at hM
      split_ifs at hM
      · rw [← Option.some.inj hM]
        exact createRoomMap_bare _
      · exact h.bare r M hM

theorem MapNode.Bare.leaveRoomWS (h : N.Bare) (roomId : RoomId)
    (hd : (N.node.leaveRoomWS roomId).2 ≠ .error .useAfterFree) :
    Bare ⟨(N.node.leaveRoomWS roomId).1,
      if roomId ∈ N.node.rooms then N.maps.erase roomId else N.maps⟩ := by
  refine ⟨h.shape.leaveRoomWS roomId hd, fun r => ?_, fun r M hM => ?_⟩
  · rw [Node.leaveRoomWS_rooms, h.shape.rooms_nodup.mem_erase_iff]
    split_ifs with hr
    · rw [Std.ExtTreeMap.mem_erase, h.mem_maps, ne_eq, Std.LawfulEqCmp.compare_eq_iff_eq, ← ne_eq,
        ne_comm]
    · rw [h.mem_maps]
      exact ⟨fun hm => ⟨fun heq => hr (heq ▸ hm), hm⟩, And.right⟩
  · simp only at hM
    split_ifs at hM
    · rw [PointerCollection.getElem?_erase] at hM
      split_ifs at hM
      exact h.bare r M hM
    · exact h.bare r M hM

theorem MapNode.Bare.call (h : N.Bare) (hu : N.node.Unlisted) {c : Call}
    {maps : PointerCollection RoomMap} (hd : (N.node.call c).2 ≠ .error .useAfterFree)
    (hm : N.mapsAfter c = .ok maps) : Bare ⟨(N.node.call c).1, maps⟩ ∧
      ((N.node.call c).1.Unlisted ↔ N.EntersNone (.call c)) := by
  have hopen {peerid : PeerId} {sdptype : Mode} {roomId : RoomId} {r : Node × Except Fault Bool}
      (ho : N.node.Opens peerid sdptype roomId r) : Bare ⟨r.1, N.maps⟩ :=
    ⟨ho.shape h.shape, by rw [ho.rooms_eq]; exact h.mem_maps, h.bare⟩
  have hlost (conn : Ptr) (now : ℕ) (hd : (N.node.onClosed conn now).2 ≠ .error .useAfterFree) :
      N.node.onClosed conn now = (N.node, .ok ()) := by
    cases hp : N.node.heap conn with
    | none => exact absurd (by rw [Node.onClosed, hp]) hd
    | some peer => exact Node.onClosed_of_mayClose ⟨peer, hp, hu.roomOf peer.peerid⟩ now
  cases c with
  | joinRoomWS roomId junk =>
    obtain rfl := Except.ok.inj hm
    refine ⟨h.joinRoomWS roomId junk, iff_of_true (fun r k p hl => ?_) trivial⟩
    exact hu r k p ((Node.listed_joinRoomWS h.shape roomId junk r k p).mp hl)
  | createPC peerid sdptype roomId =>
    obtain rfl := Except.ok.inj hm
    have ho := Node.opens_createPC h.shape peerid sdptype roomId
    exact ⟨hopen ho, ho.unlisted_iff hu⟩
  | createPCOf peer roomId =>
    obtain rfl := Except.ok.inj hm
    by_cases hlt : N.node.user < peer.user ++ roomId
    · have ho := Node.opens_createPCOf h.shape hlt
      exact ⟨hopen ho, (ho.unlisted_iff hu).trans (by simp only [EntersNone, hlt, true_imp_iff])⟩
    · have hsame : (N.node.call (.createPCOf peer roomId)).1 =
          { N.node with sigConn := N.node.sigConn ++ [.sendPresence peer roomId] } := by
        simp only [Node.call, Node.createPCOf, hlt, if_false]
      rw [hsame]
      have hs := h.shape
      exact ⟨⟨⟨hs.rooms_nodup, hs.mem_rooms, hs.mutexes, hs.heap_lt, hs.live, hs.registered⟩,
        h.mem_maps, h.bare⟩, iff_of_true (hu.congr rfl) fun hc => absurd hc hlt⟩
  | onClosed conn now =>
    rw [mapsAfter, onLost_of_unlisted hu] at hm
    obtain rfl := Except.ok.inj hm
    rw [show N.node.call (.onClosed conn now) = (N.node, .ok ()) from hlost conn now hd]
    exact ⟨h, iff_of_true hu trivial⟩
  | onFailure conn now =>
    rw [mapsAfter, onLost_of_unlisted hu] at hm
    obtain rfl := Except.ok.inj hm
    rw [show N.node.call (.onFailure conn now) = (N.node, .ok ()) from hlost conn now hd]
    exact ⟨h, iff_of_true hu trivial⟩
  | leaveRoomWS roomId =>
    obtain rfl := Except.ok.inj hm
    exact ⟨h.leaveRoomWS roomId hd, iff_of_true (hu.leaveRoomWS roomId) trivial⟩

theorem MapNode.updateNodeMap_of_bare (h : N.Bare) {roomId : RoomId} {fromWhomUpdate : PeerId}
    {connected disconnected : Option IncomingMap} {now : ℕ}
    (hN : N.updateNodeMap roomId fromWhomUpdate connected disconnected now = .ok N') : N' = N := by
  unfold updateNodeMap at hN
  cases hM : N.maps[roomId]? with
  | none =>
    rw [hM] at hN
    exact (Except.ok.inj hN).symm
  | some M =>
    simp only [hM] at hN
    by_cases hm : roomId ∈ N.node.peersInLvlMutexes
    · rw [if_neg (not_not.mpr hm)] at hN
      cases hr : Yamb.updateNodeMap M connected disconnected with
      | error F =>
        rw [hr] at hN
        cases hN
      | ok r =>
        obtain rfl := updateNodeMap_of_childless (h.bare roomId M hM).children hr
        rw [hr] at hN
        exact (Except.ok.inj hN).symm
    · rw [if_pos hm] at hN
      exact (Except.ok.inj hN).symm

theorem MapNode.Bare.handleMap (h : N.Bare) (hu : N.node.Unlisted) {roomId : RoomId} {hash : Hash}
    {fromWhomUpdate : PeerId} {connected disconnected : Option IncomingMap} {now : ℕ}
    (hN : N.handleMap roomId hash fromWhomUpdate connected disconnected now = .ok N') :
    N'.Bare ∧ N'.node.Unlisted := by
  unfold MapNode.handleMap at hN
  cases hRU : N.node.roomManager[roomId]? with
  | none =>
    rw [hRU] at hN
    obtain rfl := Except.ok.inj hN
    exact ⟨h, hu⟩
  | some RU =>
    simp only [hRU] at hN
    split_ifs at hN
    · obtain rfl := Except.ok.inj hN
      exact ⟨h, hu⟩
    · have hr := (h.shape.mem_rooms roomId).mpr (PointerCollection.mem_of_getElem? hRU)
      have hput : Bare { N with node := N.node.setRoom roomId (RU.putHash .updateMap hash) } :=
        ⟨h.shape.setRoom hr _, h.mem_maps, h.bare⟩
      obtain rfl := updateNodeMap_of_bare hput hN
      refine ⟨hput, ?_⟩
      rintro r k p ⟨RU', hRU', hk⟩
      simp only [Node.setRoom_roomManager, PointerCollection.getElem?_insert] at hRU'
      split_ifs at hRU' with heq
      · obtain rfl := Option.some.inj hRU'
        rw [RoomUnit.putHash_peersInRoom] at hk
        exact hu roomId k p ⟨RU, hRU, hk⟩
      · exact hu r k p ⟨RU', hRU', hk⟩

theorem MapStep.bare (he : MapStep N e N') (h : N.Bare) (hu : N.node.Unlisted) :
    N'.Bare ∧ (N'.node.Unlisted ↔ N.EntersNone e) := by
  cases he with
  | call hd hm => exact h.call hu hd hm
  | handleMap hN =>
    obtain ⟨hb, hno⟩ := h.handleMap hu hN
    exact ⟨hb, iff_of_true hno trivial⟩

/-- **A node shows its neighbours** in every state of a run exactly when none of its calls enters a
peer in a joined room. -/
theorem run_shown_iff {user : String} {hasher : String → Hash} :
    Lts.Run (Lts.Into MapStep MapNode.Shown) (.new user hasher) tr N ↔
      Lts.Run (Lts.Only MapStep MapNode.EntersNone) (.new user hasher) tr N := by
  refine Lts.run_into_iff (C := fun _ => True) (I := fun N => N.Bare ∧ N.node.Unlisted) trivial
    (fun _ _ _ _ _ => trivial) ⟨MapNode.new_bare user hasher, MapNode.new_unlisted user hasher⟩
    (fun N e N' _ hN he => ?_) fun N e N' _ hN he hq => ?_
  · obtain ⟨hb, hiff⟩ := he.bare hN.1 hN.2
    rw [hb.shown_iff, hiff]
  · obtain ⟨hb, hiff⟩ := he.bare hN.1 hN.2
    exact ⟨hb, hiff.mpr hq⟩

/-- A neighbour in a joined room. -/
theorem not_shown_neighbour : ¬ ∀ user hasher tr N,
    Lts.Run MapStep (.new user hasher) tr N → N.Shown := by
  intro h
  let N₀ : MapNode := .new "u" String.length
  let N₁ : MapNode := ⟨N₀.node.joinRoomWS "r" fun _ => 0,
    N₀.maps.insertIfNew "r" (createRoomMap "ur")⟩
  let N₂ : MapNode := ⟨(N₁.node.createPC "vr" .answer "r").1, N₁.maps⟩
  have h₁ : MapStep N₀ (.call (.joinRoomWS "r" fun _ => 0)) N₁ := .call (by intro hc; cases hc) rfl
  have h₂ : MapStep N₁ (.call (.createPC "vr" .answer "r")) N₂ := .call (by intro hc; cases hc) rfl
  obtain ⟨RU, M, hRU, hM, hgraph, -⟩ :=
    h "u" String.length _ N₂ ((Lts.Run.single h₁).snoc h₂) "r" (by decide)
  obtain ⟨RU', hRU', hk⟩ : N₂.node.Listed "r" "vr" 0 := ⟨_, rfl, by decide⟩
  obtain rfl := Option.some.inj (hRU.symm.trans hRU')
  obtain rfl : createRoomMap "ur" = M := Option.some.inj hM
  obtain ⟨c, hc, -⟩ := (hgraph "vr").mpr (PointerCollection.mem_of_getElem? hk)
  cases hc

end Yamb
