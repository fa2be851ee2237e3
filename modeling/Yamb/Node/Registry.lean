import Yamb.Node.Messaging

/-!
# Joining and leaving rooms, opening and closing peers

* `Node.new`, `joinRoomWS`, `leaveRoomWS`, `addCallback`, `removeCallback`;
* `createPC`, `createPCOf`: the two overloads, for an answer and for an offer;
* `onClosed`, `onFailure`: the callbacks of a peer connection that is gone.

A function that can throw returns the node as the exception leaves it, with the error.
-/

set_option autoImplicit false

namespace Yamb

/-- `createRoomUnit`; the hash windows start out uninitialised. -/
def createRoomUnit (junk : ℕ → Hash) : RoomUnit where
  peersInRoom := ∅
  logicMsgHashesBuffer := .new junk 500 (by decide) (by decide)
  systemMsgHashesBuffer := .new junk 500 (by decide) (by decide)

/-- `addNode`: a peer that is already listed stays. -/
def RoomUnit.addNode (RU : RoomUnit) (peerId : PeerId) (peer : Ptr) : RoomUnit :=
  { RU with peersInRoom := RU.peersInRoom.insertIfNew peerId peer }

/-- `dump` of a JSON string. -/
def jsonString (s : String) : String :=
  "\"" ++ String.join (s.toList.map escape) ++ "\""
where
  escape (c : Char) : String :=
    if c = '"' then "\\\"" else if c = '\\' then "\\\\"
    else if c = '\x08' then "\\b" else if c = '\x0c' then "\\f"
    else if c = '\n' then "\\n" else if c = '\r' then "\\r" else if c = '\t' then "\\t"
    else if c.toNat < 0x20 then
      "\\u00" ++ String.ofList [Nat.digitChar (c.toNat / 16), Nat.digitChar (c.toNat % 16)]
    else c.toString

/-- `dump` of the difference map that reports a closed neighbour. -/
def closedDiff (id parentId : PeerId) : String :=
  "\x7b\"connectedBylvls\":\x7b\x7d,\"disconnectedBylvls\":\x7b\"0\":[\x7b\"Id\":" ++ jsonString id
    ++ ",\"ParentIds\":[" ++ jsonString parentId ++ "]\x7d]\x7d\x7d"

/-- `Peer::createOffer`: a closed local channel, and an offer asked of WebRTC. -/
def Peer.createOffer (p : Peer) : Peer :=
  { p with
    localChannel := some false
    creating := p.creating ++ [.offer] }

namespace Node

/-- `WebrtcNode::WebrtcNode`. -/
def new (user : String) (hasher : String → Hash) : Node where
  user := user
  hasher := hasher
  rooms := []
  roomManager := ∅
  peerManager := ∅
  heap := fun _ => none
  nextPtr := 0
  callbacks := ∅
  callbacksMutexes := ∅
  peersInLvlMutexes := ∅
  sMq := []
  sender := .running
  stopping := false
  sigConn := []

/-- `joinRoomWS`, once the connection is online. -/
def joinRoomWS (n : Node) (roomId : RoomId) (junk : ℕ → Hash) : Node :=
  if roomId ∈ n.rooms then n
  else { n with
    rooms := n.rooms ++ [roomId]
    callbacksMutexes := n.callbacksMutexes.insertIfNew roomId ()
    peersInLvlMutexes := n.peersInLvlMutexes.insertIfNew roomId ()
    roomManager := n.roomManager.insertIfNew roomId (createRoomUnit junk)
    sigConn := n.sigConn ++ [.joinRoom roomId] }

def addCallback (n : Node) (roomId : RoomId) (callback : Callback) : Node × Except Fault Unit :=
  match n.callbacksMutexes.get roomId with
  | .error f => (n, .error f)
  | .ok _ =>
    ({ n with callbacks := n.callbacks.insert roomId (n.callbacks.getD roomId [] ++ [callback]) },
      .ok ())

/-- Both overloads: the list compares addresses. -/
def removeCallback (n : Node) (roomId : RoomId) (callback : Callback) : Node × Bool :=
  if roomId ∉ n.callbacksMutexes then (n, false)
  else
    match n.callbacks[roomId]? with
    | none => (n, true)
    | some call_vec =>
      ({ n with callbacks := n.callbacks.insert roomId (call_vec.filter fun x => x ≠ callback) },
        true)

/-! ### Opening a peer -/

/-- `new wrtc::Peer`. -/
def alloc (n : Node) (peer : Peer) : Node :=
  { n with heap := Function.update n.heap n.nextPtr (some peer), nextPtr := n.nextPtr + 1 }

/-- `PeerManager::add` of a key that is not there. -/
def register (n : Node) (peerid : PeerId) (conn : Ptr) : Node :=
  { n with peerManager := n.peerManager.insert peerid conn }

/-- `conn->createOffer()`. -/
def createOffer (n : Node) (conn : Ptr) (peer : Peer) : Node := n.setPeer conn peer.createOffer

/-- The common end of both `createPC`: the Peer enters the room, if there is one. -/
def enterRoom (n : Node) (peerid : PeerId) (conn : Ptr) (roomId : RoomId) :
    Node × Except Fault Bool :=
  match n.peersInLvlMutexes.get roomId with
  | .error f => (n, .error f)
  | .ok _ =>
    match n.roomManager.get roomId with
    | .error f => (n, .error f)
    | .ok RU => (n.setRoom roomId (RU.addNode peerid conn), .ok true)

/-- The answer side. `conn->lastRoom() = roomId` assigns to a temporary and has no effect. -/
def createPC (n : Node) (peerid : PeerId) (sdptype : Mode) (roomId : RoomId) :
    Node × Except Fault Bool :=
  match n.peerManager[peerid]? with
  | none =>
    ((n.alloc (.new peerid sdptype roomId)).register peerid n.nextPtr).enterRoom peerid n.nextPtr
      roomId
  | some conn =>
    match n.heap conn with
    | none => (n, .error .useAfterFree)
    | some peer => if peer.mode ≠ sdptype then (n, .ok false) else n.enterRoom peerid conn roomId

/-- The offer side, or a presence sent back: the other's id with the room appended decides, against
the own user without it. -/
def createPCOf (n : Node) (peer : Address) (roomId : RoomId) : Node × Except Fault Bool :=
  let peerid := peer.user ++ roomId
  if n.user < peerid then
    match n.peerManager[peerid]? with
    | none =>
      (((n.alloc (.new peerid .offer roomId)).createOffer n.nextPtr
        (.new peerid .offer roomId)).register peerid n.nextPtr).enterRoom peerid n.nextPtr roomId
    | some conn =>
      match n.heap conn with
      | none => (n, .error .useAfterFree)
      | some p =>
        if p.mode ≠ .offer then (n, .ok false)
        else (n.createOffer conn p).enterRoom peerid conn roomId
  else ({ n with sigConn := n.sigConn ++ [.sendPresence peer roomId] }, .ok false)

/-! ### Closing a peer -/

/-- The first room whose `PeersInRoom` lists the id, or the empty text. -/
def roomOf (n : Node) (peerid : PeerId) : RoomId :=
  ((n.roomManager.toList.find? fun e => decide (peerid ∈ e.2.peersInRoom)).map Prod.fst).getD ""

/-- `PeerManager::remove(conn)`, and `delete conn` if it was there. -/
def removePeer (n : Node) (conn : Ptr) : Node :=
  match n.peerManager.keyOf conn with
  | none => n
  | some key =>
    { n with
      peerManager := n.peerManager.erase key
      heap := Function.update n.heap conn none }

/-- The peer is unregistered and deleted; the room that lists it keeps its entry. -/
def onClosed (n : Node) (conn : Ptr) (now : ℕ) : Node × Except Fault Unit :=
  match n.heap conn with
  | none => (n, .error .useAfterFree)
  | some peer =>
    let roomId := n.roomOf peer.peerid
    if roomId = "" then (n, .ok ())
    else
      match n.peersInLvlMutexes.get roomId with
      | .error f => (n, .error f)
      | .ok _ =>
        (((n.broadcast2Room roomId (closedDiff peer.peerid (n.myIdInRoom roomId)) .updateMap
          peer.peerid now).1).removePeer conn, .ok ())

/-- As `onClosed`; the further update concerns the graph of the room only. -/
def onFailure (n : Node) (conn : Ptr) (now : ℕ) : Node × Except Fault Unit := n.onClosed conn now

/-- `leaveRoomWS`, once the connection is online. A peer is listed under its own id, so the first
turn of the loop erases the entry the loop stands on: the behaviour of a call for a room with peers
is undefined. Neither the mutexes nor the callbacks of the room are removed. -/
def leaveRoomWS (n : Node) (roomId : RoomId) : Node × Except Fault Unit :=
  if roomId ∈ n.rooms then
    let n' := { n with rooms := n.rooms.erase roomId }
    match n.roomManager[roomId]? with
    | none => (n', .ok ())
    | some RU =>
      if RU.peersInRoom.isEmpty then
        let n'' := { n' with roomManager := n.roomManager.erase roomId }
        match n.callbacksMutexes.get roomId with
        | .error f => (n'', .error f)
        | .ok _ => ({ n'' with sigConn := n.sigConn ++ [.leaveRoom roomId] }, .ok ())
      else (n', .error .useAfterFree)
  else (n, .ok ())

def joinRoom (n : Node) (roomId : RoomId) (junk : ℕ → Hash) : Node := n.joinRoomWS roomId junk

def leaveRoom (n : Node) (roomId : RoomId) : Node × Except Fault Unit := n.leaveRoomWS roomId

end Node

end Yamb
