import Yamb.Lib.Json.Basic
import Yamb.Node.Signalling
import Yamb.Sender.Thread
import Yamb.Topology.Neighbours

/-!
# Messages as they come out of a data channel

A neighbour may send any JSON value. `processWebRTCMessage` reads its members one after the other
with the typed accessors of rapidjson, which assert that the member is there and has the type.

* `getString`, `getInt`, `getUint64`, `getObject`, `getArray`, `hasMember`, `member`: the accessors;
* `readMessage`, `handleWebrtcNodeMessageLogic`, `onAnnounceWebRTC`,
  `onIncomingNodeMapDifference`, `updateNodeMap`, `handleWebrtcNodeMessageSystem`,
  `processWebRTCMessage`: `WebrtcNode.cpp`;
* `createDiffConnectedBylvls`, `createDiffDisconnectedBylvls`: the loops of `RoomManager.cpp` over
  the JSON of a map;
* `IncomingEvent`, `IncomingStep`: what a node does and what it receives.

The text of the member `data` is parsed again; how it is parsed is left open.
-/

set_option autoImplicit false

namespace Yamb

/-- A number as rapidjson keeps it: a `double` is no integer, or none of 64 bits. -/
inductive JsonNumber
  | int (i : ℤ)
  | double (literal : String)

/-- `rapidjson::Value`. -/
abbrev JsonValue : Type := Json String JsonNumber

/-- An accessor on a missing or differently typed member; what goes wrong in the topology. -/
inductive MessageFault
  | badAccess
  | graph (f : GraphFault)
  deriving DecidableEq

namespace Incoming

/-! ### The accessors -/

def getString : JsonValue → Except MessageFault String
  | .str s => .ok (cstr s)
  | _ => .error .badAccess

def getInt : JsonValue → Except MessageFault ℤ
  | .num (.int i) => if -2 ^ 31 ≤ i ∧ i < 2 ^ 31 then .ok i else .error .badAccess
  | _ => .error .badAccess

def getUint64 : JsonValue → Except MessageFault Hash
  | .num (.int i) => if 0 ≤ i ∧ i < 2 ^ 64 then .ok i.toNat else .error .badAccess
  | _ => .error .badAccess

def getObject : JsonValue → Except MessageFault (List (String × JsonValue))
  | .obj members => .ok members
  | _ => .error .badAccess

def getArray : JsonValue → Except MessageFault (List JsonValue)
  | .arr items => .ok items
  | _ => .error .badAccess

/-- `HasMember`, which may be asked of an object only. -/
def hasMember (v : JsonValue) (name : String) : Except MessageFault Bool :=
  (getObject v).map fun _ => (v.find name).isSome

/-- `operator[]`. -/
def member (v : JsonValue) (name : String) : Except MessageFault JsonValue :=
  match v.find name with
  | some w => .ok w
  | none => .error .badAccess

/-- A failed assert of the topology. -/
def assert (b : Bool) : Except MessageFault Unit :=
  if b then .ok () else .error (.graph .assertFailed)

def liftGraph {α : Type} : Except GraphFault α → Except MessageFault α
  | .ok a => .ok a
  | .error f => .error (.graph f)

/-! ### The header -/

/-- `struct Message` of `peer.h`, with the JSON as it came. -/
structure Message where
  roomId : RoomId
  json : JsonValue
  hash : Hash
  type : MessageType

/-- `MessageType(i)`; what is no enumerator is handled as `Unknown` is. -/
def messageType (i : ℤ) : MessageType :=
  if i = 0 then .announceWebrtc else if i = 1 then .logic else if i = 2 then .updateMap
  else if i = 3 then .data else if i = 4 then .system else if i = 5 then .stat
  else if i = 7 then .ping else if i = 8 then .pong else .unknown

/-- The first half of `processWebRTCMessage`. -/
def readMessage (json : JsonValue) : Except MessageFault Message := do
  let hasRoomId ← hasMember json "roomId"
  let hasHash ← hasMember json "hash"
  let hasType ← hasMember json "type"
  if hasRoomId && hasHash && hasType then
    let roomId ← member json "roomId" >>= getString
    let hash ← member json "hash" >>= getUint64
    let type ← member json "type" >>= getInt
    return ⟨roomId, json, hash, messageType type⟩
  else return ⟨"system", json, 0, .unknown⟩

/-- The node afterwards, and the callbacks that are called or the exception thrown. -/
abbrev Outcome : Type := MapNode × Except Fault (Option (List Callback))

/-! ### Messages of users -/

/-- The message that a relay sends on, with the received hash. -/
def relayMessage (n : Node) (pMsg : Message) (to' : Option PeerId) (now : ℕ) :
    Except MessageFault Msg := do
  let data ← member pMsg.json "data" >>= getString
  let type ← member pMsg.json "type" >>= getInt
  let hash ← member pMsg.json "hash" >>= getUint64
  match to' with
  | some to' =>
    return { n.formMessageTo data (messageType type) pMsg.roomId to' now with hash := hash }
  | none => return { n.formMessage data (messageType type) pMsg.roomId now with hash := hash }

def handleWebrtcNodeMessageLogic (N : MapNode) (pMsg : Message) (now : ℕ) :
    Except MessageFault Outcome :=
  match N.node.roomManager[pMsg.roomId]? with
  | none => .ok (N, .ok none)
  | some RU =>
    if RU.logicMsgHashesBuffer.isExists pMsg.hash then .ok (N, .ok none)
    else do
      let n := N.node.setRoom pMsg.roomId (RU.putHash .logic pMsg.hash)
      let hasTo ← hasMember pMsg.json "to"
      if hasTo then
        let to' ← member pMsg.json "to" >>= getString
        if to' ≠ n.myIdInRoom pMsg.roomId then
          let msg ← relayMessage n pMsg (some to') now
          return ({ N with node := n.push ⟨.direct, "", msg⟩ }, .ok none)
        else return ({ N with node := n }, (n.dispatch pMsg.roomId).map some)
      else
        let msg ← relayMessage n pMsg none now
        return ({ N with node := n.push ⟨.broadcast, "", msg⟩ }, (n.dispatch pMsg.roomId).map some)

/-! ### Maps -/

/-- `std::atoi`; a number that no `int` holds has no defined value. -/
def atoi (s : String) : ℤ :=
  let cs := (cstr s).toList.dropWhile fun c => c.toNat = 32 ∨ 9 ≤ c.toNat ∧ c.toNat ≤ 13
  let digits (cs : List Char) : ℤ :=
    (cs.takeWhile Char.isDigit).foldl (fun n c => 10 * n + (c.toNat - '0'.toNat)) 0
  match cs with
  | '-' :: cs => -digits cs
  | '+' :: cs => digits cs
  | cs => digits cs

/-- `MapDiffUnit["ParentIds"]`. -/
def parentIds (MapDiffUnit : JsonValue) : Except MessageFault (List PeerId) := do
  let arr ← member MapDiffUnit "ParentIds" >>= getArray
  arr.mapM getString

/-- The loop body of both functions: of the own unit nothing but the id is read. -/
def readUnit (root : NodeGraph)
    (body : NodesMapDiff → NodesMapDiffUnit → Except GraphFault NodesMapDiff)
    (nm_diff : NodesMapDiff) (val : JsonValue) : Except MessageFault NodesMapDiff := do
  let _ ← getObject val
  let id ← member val "Id" >>= getString
  if id = root.value.id then return nm_diff
  else
    let inc_pids ← parentIds val
    liftGraph (body nm_diff ⟨id, inc_pids⟩)

/-- The two loops around it. -/
def readLvls (root : NodeGraph)
    (body : ℕ → NodesMapDiff → NodesMapDiffUnit → Except GraphFault NodesMapDiff)
    (nm_diff : NodesMapDiff) (incoming : JsonValue) : Except MessageFault NodesMapDiff := do
  let iterable ← getObject incoming
  iterable.foldlM (fun nm_diff itr => do
    let arr ← getArray itr.2
    arr.foldlM (readUnit root (body (clampLvl (atoi itr.1 + 1)))) nm_diff) nm_diff

def createDiffConnectedBylvls (nm_diff : NodesMapDiff) (RU : RoomMap) (incoming : JsonValue) :
    Except MessageFault NodesMapDiff :=
  readLvls RU.iamRoot (diffConnected RU.iamRoot) nm_diff incoming

def createDiffDisconnectedBylvls (nm_diff : NodesMapDiff) (RU : RoomMap) (incoming : JsonValue) :
    Except MessageFault NodesMapDiff :=
  readLvls RU.iamRoot (diffDisconnected RU.iamRoot) nm_diff incoming

/-- A member that is there and not null is read into the difference. -/
def readGiven (read : NodesMapDiff → JsonValue → Except MessageFault NodesMapDiff)
    (diffMap : NodesMapDiff) (diff : JsonValue) (name : String) :
    Except MessageFault NodesMapDiff := do
  let _ ← getObject diff
  match diff.find name with
  | none | some .null => return diffMap
  | some incoming => read diffMap incoming

/-- `updateNodeMap` with `sendNodeMap`. -/
def updateNodeMap (N : MapNode) (roomId : RoomId) (fromWhomUpdate : PeerId) (diff : JsonValue)
    (now : ℕ) : Except MessageFault Outcome :=
  match N.node.peersInLvlMutexes.get roomId, N.maps[roomId]? with
  | .error f, _ => .ok (N, .error f)
  | .ok _, none => .ok (N, .error .notFound)
  | .ok _, some RU => do
    let diffMap ← readGiven (createDiffConnectedBylvls · RU) .empty diff "connectedBylvls"
    let diffMap ← readGiven (createDiffDisconnectedBylvls · RU) diffMap diff "disconnectedBylvls"
    if diffMap = .empty then return (N, .ok none)
    else
      let RU ← liftGraph (RU.onNodesMapDiff diffMap)
      assert (∀ pair ∈ diffMap.connectedBylvls, ∀ u ∈ pair.2, u.parentIds ≠ [])
      return ({
        node := (N.node.broadcast2Room roomId diffMap.dump .updateMap fromWhomUpdate now).1
        maps := N.maps.insert roomId (RU.onNodesMapDiffJson diffMap) }, .ok none)

section

variable (parse : String → Option JsonValue) (N : MapNode)

def onAnnounceWebRTC (WebRTCMsg : Message) (now : ℕ) : Except MessageFault Outcome := do
  let hasRoomId ← hasMember WebRTCMsg.json "roomId"
  assert hasRoomId
  let from' ← member WebRTCMsg.json "from" >>= getString
  let text ← member WebRTCMsg.json "data" >>= getString
  match parse text with
  | none => return (N, .ok none)
  | some data =>
    let hasMap ← hasMember data "connectionsMap"
    assert hasMap
    let incomingNodesMap ← member data "connectionsMap"
    updateNodeMap N WebRTCMsg.roomId from' incomingNodesMap now

def onIncomingNodeMapDifference (WebRTCMsg : Message) (now : ℕ) : Except MessageFault Outcome := do
  let from' ← member WebRTCMsg.json "from" >>= getString
  let hasRoomId ← hasMember WebRTCMsg.json "roomId"
  assert hasRoomId
  let text ← member WebRTCMsg.json "data" >>= getString
  match parse text with
  | none => return (N, .ok none)
  | some data => updateNodeMap N WebRTCMsg.roomId from' data now

def handleWebrtcNodeMessageSystem (msgObj : Message) (now : ℕ) : Except MessageFault Outcome :=
  match N.node.roomManager[msgObj.roomId]? with
  | none => .ok (N, .ok none)
  | some RU =>
    if RU.systemMsgHashesBuffer.isExists msgObj.hash then .ok (N, .ok none)
    else
      let N := { N with node := N.node.setRoom msgObj.roomId (RU.putHash msgObj.type msgObj.hash) }
      match msgObj.type with
      | .announceWebrtc => onAnnounceWebRTC parse N msgObj now
      | .updateMap => onIncomingNodeMapDifference parse N msgObj now
      | _ => .ok (N, .ok none)

/-- `processWebRTCMessage`, once the text has been parsed. The arguments of `LDebug` are evaluated at
every level of the log. -/
def processWebRTCMessage (json : JsonValue) (now : ℕ) : Except MessageFault Outcome := do
  let pMsg ← readMessage json
  let _ ← member json "data" >>= getString
  if pMsg.type ≠ .logic then handleWebrtcNodeMessageSystem parse N pMsg now
  else handleWebrtcNodeMessageLogic N pMsg now

end

/-! ### Runs -/

inductive IncomingEvent
  | call (c : Call)
  | thread (e : ThreadEvent)
  | addCallback (roomId : RoomId) (callback : Callback)
  | removeCallback (roomId : RoomId) (callback : Callback)
  | signal (m : SigEvent)
  | onSuccess (conn : Ptr) (sdp : String)
  | receive (json : JsonValue) (now : ℕ)

/-- The steps with a defined outcome, received messages among them. -/
inductive IncomingStep (parse : String → Option JsonValue) (N : MapNode) :
    IncomingEvent → MapNode → Prop
  | call {c : Call} {maps : PointerCollection RoomMap}
      (h : (N.node.call c).2 ≠ .error .useAfterFree) (hm : N.mapsAfter c = .ok maps) :
      IncomingStep parse N (.call c) ⟨(N.node.call c).1, maps⟩
  | thread {e : ThreadEvent} {n : Node} (h : ThreadStep N.node e n) :
      IncomingStep parse N (.thread e) { N with node := n }
  | addCallback (roomId : RoomId) (callback : Callback) :
      IncomingStep parse N (.addCallback roomId callback)
        { N with node := (N.node.addCallback roomId callback).1 }
  | removeCallback (roomId : RoomId) (callback : Callback) :
      IncomingStep parse N (.removeCallback roomId callback)
        { N with node := (N.node.removeCallback roomId callback).1 }
  | signal {m : SigEvent} (h : (N.node.signal m).2 ≠ .error .useAfterFree) :
      IncomingStep parse N (.signal m) { N with node := (N.node.signal m).1 }
  | onSuccess (conn : Ptr) (sdp : String) :
      IncomingStep parse N (.onSuccess conn sdp) { N with node := N.node.onSuccess conn sdp }
  | receive {json : JsonValue} {now : ℕ} {r : Outcome}
      (h : processWebRTCMessage parse N json now = .ok r) :
      IncomingStep parse N (.receive json now) r.1

end Incoming

end Yamb
