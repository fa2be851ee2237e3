import Yamb.Node.Types

/-!
# Building, sending and receiving user messages

`formMessage`, `broadcast2Room`, `send2client` and the handling of an incoming message of type
`Logic`. The clock is an argument `now`, in milliseconds.

* `formMessage`, `formMessageTo`: the JSON object without and with the member `to`;
* `broadcast2Room`, `send2client`: record the own hash, queue a task, notify the sender thread;
* `Message.parse`: what `processWebRTCMessage` reads out of a message object;
* `handleWebrtcNodeMessageLogic`: drop a known hash, else record it, relay, call back.

The messages of the other types are the business of the room graph and are not handled here.
-/

set_option autoImplicit false

namespace Yamb

namespace RoomUnit

/-- `LogicMsgHashesBuffer.put` or `SystemMsgHashesBuffer.put`, by the type of the message. -/
def putHash (RU : RoomUnit) (t : MessageType) (hash : Hash) : RoomUnit :=
  if t = .logic then { RU with logicMsgHashesBuffer := RU.logicMsgHashesBuffer.put hash }
  else { RU with systemMsgHashesBuffer := RU.systemMsgHashesBuffer.put hash }

@[simp] theorem putHash_peersInRoom (RU : RoomUnit) (t : MessageType) (h : Hash) :
    (RU.putHash t h).peersInRoom = RU.peersInRoom := by
  unfold putHash
  split_ifs <;> rfl

@[simp] theorem putHash_logic (RU : RoomUnit) (h : Hash) :
    (RU.putHash .logic h).logicMsgHashesBuffer = RU.logicMsgHashesBuffer.put h := rfl

end RoomUnit

namespace Node

/-- `formMessage` without `peerId`; the hash it returns is the member `hash`. -/
def formMessage (n : Node) (data : String) (t : MessageType) (roomId : RoomId) (now : ℕ) :
    Msg where
  roomId := roomId
  from' := n.myIdInRoom roomId
  to' := none
  type := t
  msgId := now
  data := data
  hash := n.hasher (data ++ toString now ++ n.myIdInRoom roomId)

/-- `formMessage` with `peerId`. -/
def formMessageTo (n : Node) (data : String) (t : MessageType) (roomId : RoomId)
    (peerId : PeerId) (now : ℕ) : Msg :=
  { n.formMessage data t roomId now with to' := some peerId }

/-- The common end of `broadcast2Room` and `send2client`. -/
def queueOwn (n : Node) (RU : RoomUnit) (roomId : RoomId) (task : SendMsgT) : Node :=
  ((n.setRoom roomId (RU.putHash task.msg.type task.msg.hash)).push task).notifyAll

def broadcast2Room (n : Node) (roomId : RoomId) (j : String) (t : MessageType) (except : PeerId)
    (now : ℕ) : Node × Bool :=
  match n.roomManager[roomId]? with
  | none => (n, false)
  | some RU => (n.queueOwn RU roomId
      { type := .broadcast, except := except, msg := n.formMessage j t roomId now }, true)

/-- A peer that is registered gets a direct task, whatever room it is in. -/
def send2client (n : Node) (peerId : PeerId) (roomId : RoomId) (j : String) (t : MessageType)
    (now : ℕ) : Node × Bool :=
  match n.roomManager[roomId]? with
  | none => (n, false)
  | some RU => (n.queueOwn RU roomId
      { type := if peerId ∈ n.peerManager then .direct else .broadcast
        except := ""
        msg := n.formMessageTo j t roomId peerId now }, true)

end Node

/-- The first half of `processWebRTCMessage`, on an object that has all the members. -/
def Message.parse (m : Msg) : Message where
  roomId := cstr m.roomId
  json := m
  hash := m.hash
  type := m.type

namespace Node

/-- The message a relay sends on: built anew, with the received hash put back. -/
def relayMessage (n : Node) (pMsg : Message) (now : ℕ) : Msg :=
  match pMsg.json.to' with
  | some to' =>
    { n.formMessageTo (cstr pMsg.json.data) pMsg.json.type pMsg.roomId (cstr to') now with
      hash := pMsg.json.hash }
  | none =>
    { n.formMessage (cstr pMsg.json.data) pMsg.json.type pMsg.roomId now with
      hash := pMsg.json.hash }

/-- The dispatch to the callbacks of a room: the vector whose elements are called in order. -/
def dispatch (n : Node) (roomId : RoomId) : Except Fault (List Callback) :=
  match n.callbacksMutexes.get roomId with
  | .error f => .error f
  | .ok _ => n.callbacks.get roomId

/-- The node afterwards, and the callbacks called with the received text: `none` when the function
returned before the dispatch. A relayed task is pushed without `notify_all`. -/
def handleWebrtcNodeMessageLogic (n : Node) (pMsg : Message) (now : ℕ) :
    Node × Except Fault (Option (List Callback)) :=
  match n.roomManager[pMsg.roomId]? with
  | none => (n, .ok none)
  | some RU =>
    if RU.logicMsgHashesBuffer.isExists pMsg.hash then (n, .ok none)
    else
      let n' := n.setRoom pMsg.roomId (RU.putHash .logic pMsg.hash)
      match pMsg.json.to' with
      | some to' =>
        if cstr to' ≠ n.myIdInRoom pMsg.roomId then
          (n'.push { type := .direct, except := "", msg := n.relayMessage pMsg now }, .ok none)
        else (n', (n.dispatch pMsg.roomId).map some)
      | none =>
        (n'.push { type := .broadcast, except := "", msg := n.relayMessage pMsg now },
          (n.dispatch pMsg.roomId).map some)

theorem broadcast2Room_of_joined {n : Node} {roomId : RoomId} {RU : RoomUnit}
    (h : n.roomManager[roomId]? = some RU) (j : String) (t : MessageType) (except : PeerId)
    (now : ℕ) :
    n.broadcast2Room roomId j t except now = (n.queueOwn RU roomId
      { type := .broadcast, except := except, msg := n.formMessage j t roomId now }, true) := by
  simp only [broadcast2Room, h]

theorem send2client_of_joined {n : Node} {roomId : RoomId} {RU : RoomUnit}
    (h : n.roomManager[roomId]? = some RU) (peerId : PeerId) (j : String) (t : MessageType)
    (now : ℕ) :
    n.send2client peerId roomId j t now = (n.queueOwn RU roomId
      { type := if peerId ∈ n.peerManager then .direct else .broadcast
        except := ""
        msg := n.formMessageTo j t roomId peerId now }, true) := by
  simp only [send2client, h]

theorem relayMessage_eq (n : Node) (p : Message) (now : ℕ) :
    n.relayMessage p now =
      { roomId := p.roomId
        from' := n.myIdInRoom p.roomId
        to' := p.json.to'.map cstr
        type := p.json.type
        msgId := now
        data := cstr p.json.data
        hash := p.json.hash } := by
  unfold relayMessage
  cases p.json.to' <;> rfl

/-- An incoming user message queues nothing, or the rebuilt message. -/
theorem handleWebrtcNodeMessageLogic_sMq (n : Node) (p : Message) (now : ℕ) :
    (n.handleWebrtcNodeMessageLogic p now).1.sMq = n.sMq ∨
      ∃ type, (n.handleWebrtcNodeMessageLogic p now).1.sMq = n.sMq ++
        [{ type := type, except := "", msg := n.relayMessage p now }] := by
  unfold handleWebrtcNodeMessageLogic
  split
  · exact .inl rfl
  · split_ifs
    · exact .inl rfl
    · split
      · split_ifs
        · exact .inr ⟨.direct, rfl⟩
        · exact .inl rfl
      · exact .inr ⟨.broadcast, rfl⟩

end Node

end Yamb
