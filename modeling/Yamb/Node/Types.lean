import Yamb.CircularBuffer.Model
import Mathlib.Data.List.TakeWhile
import Std.Data.ExtTreeMap

/-!
# The state of a `WebrtcNode`

* `Msg`: the JSON object that `formMessage` builds and a data channel carries; `Message`: the same
  object as `processWebRTCMessage` hands it on, with the members it has read out;
* `SendMsgT`: a task of the sender thread;
* `PointerCollection`: `std::map` behind the methods of `collection.h`;
* `Peer`: what this development reads of a `wrtc::Peer`; `Peer.getDataChannel`;
* `RoomUnit`, `Node`: a room and a node.

The peers are allocated objects and the maps hold pointers to them: `Node.heap` says which pointers
are live. The graph of a room (`IamRoot`, `NodesMap`, `nPeersInRoom`) is read by none of the
functions modelled on `Node` and is left out of `RoomUnit`.
-/

set_option autoImplicit false

namespace Yamb

abbrev RoomId : Type := String
/-- A user id followed by a room id. -/
abbrev PeerId : Type := String
/-- `std::size_t`. -/
abbrev Hash : Type := ℕ
/-- The address of an allocated object; addresses are not reused. -/
abbrev Ptr : Type := ℕ
/-- The address of a `messageHandler`. -/
abbrev Callback : Type := ℕ

/-- The `std::string` made of `GetString()`: a C string ends at the first NUL. -/
def cstr (s : String) : String := String.ofList (s.toList.takeWhile (· ≠ '\x00'))

theorem cstr_cstr (s : String) : cstr (cstr s) = cstr s := by
  simp only [cstr, String.toList_ofList, List.takeWhile_idem]

inductive MessageType
  | announceWebrtc | logic | updateMap | data | system | stat | unknown | ping | pong
  deriving DecidableEq

/-- The JSON object of a message; `to'` is the one member that may be missing. -/
structure Msg where
  roomId : RoomId
  from' : PeerId
  to' : Option PeerId
  type : MessageType
  msgId : ℕ
  data : String
  hash : Hash
  deriving DecidableEq

/-- `struct Message` of `peer.h`. -/
structure Message where
  roomId : RoomId
  json : Msg
  hash : Hash
  type : MessageType
  deriving DecidableEq

inductive SendType
  | direct | broadcast
  deriving DecidableEq

/-- `struct sendMsgT`; an unset `except` is the empty string. -/
structure SendMsgT where
  type : SendType
  except : PeerId
  msg : Msg
  deriving DecidableEq

/-- What ends a thread or a run: a `std::runtime_error` that nobody catches, the error of
nlohmann's `get` on a member of another type, the use of freed memory. -/
inductive Fault
  | notFound | itemExists | typeError | useAfterFree
  deriving DecidableEq

/-! ### Collections -/

/-- `PointerCollection<std::string, V>`: a map iterated in the order of its keys. -/
abbrev PointerCollection (V : Type) : Type := Std.ExtTreeMap String V

namespace PointerCollection

variable {V : Type}

/-- `add`: nothing is replaced; `whiny` makes a second `add` throw. -/
def add (m : PointerCollection V) (key : String) (item : V) (whiny : Bool) :
    Except Fault (PointerCollection V) :=
  if key ∈ m then (if whiny then .error .itemExists else .ok m) else .ok (m.insert key item)

/-- `get`, with `whiny` as it is by default. -/
def get (m : PointerCollection V) (key : String) : Except Fault V :=
  match m[key]? with
  | some item => .ok item
  | none => .error .notFound

/-- The first key that `remove(const TValue *)` meets with this value. -/
def keyOf [DecidableEq V] (m : PointerCollection V) (item : V) : Option String :=
  (m.toList.find? fun e => e.2 = item).map Prod.fst

theorem getElem?_insert (m : PointerCollection V) (k a : String) (v : V) :
    (m.insert k v)[a]? = if k = a then some v else m[a]? := by
  rw [Std.ExtTreeMap.getElem?_insert]
  simp only [Std.LawfulEqCmp.compare_eq_iff_eq]

theorem getElem?_insertIfNew (m : PointerCollection V) (k a : String) (v : V) :
    (m.insertIfNew k v)[a]? = if k = a ∧ k ∉ m then some v else m[a]? := by
  rw [Std.ExtTreeMap.getElem?_insertIfNew]
  simp only [Std.LawfulEqCmp.compare_eq_iff_eq]

theorem getElem?_erase (m : PointerCollection V) (k a : String) :
    (m.erase k)[a]? = if k = a then none else m[a]? := by
  rw [Std.ExtTreeMap.getElem?_erase]
  simp only [Std.LawfulEqCmp.compare_eq_iff_eq]

theorem mem_of_getElem? {m : PointerCollection V} {k : String} {v : V} (h : m[k]? = some v) :
    k ∈ m :=
  Std.ExtTreeMap.mem_iff_isSome_getElem?.mpr (by rw [h]; rfl)

theorem exists_of_mem {m : PointerCollection V} {k : String} (h : k ∈ m) : ∃ v, m[k]? = some v :=
  Option.isSome_iff_exists.mp (Std.ExtTreeMap.mem_iff_isSome_getElem?.mp h)

theorem getElem?_of_not_mem {m : PointerCollection V} {k : String} (h : k ∉ m) : m[k]? = none := by
  cases hk : m[k]? with
  | none => rfl
  | some v => exact absurd (mem_of_getElem? hk) h

theorem get_of_mem {m : PointerCollection V} {k : String} {v : V} (h : m[k]? = some v) :
    m.get k = .ok v := by
  simp only [get, h]

theorem get_of_not_mem {m : PointerCollection V} {k : String} (h : k ∉ m) :
    m.get k = .error .notFound := by
  simp only [get, getElem?_of_not_mem h]

theorem get_ne_useAfterFree (m : PointerCollection V) (k : String) :
    m.get k ≠ .error .useAfterFree := by
  unfold get
  split <;> simp

theorem keyOf_of_mem [DecidableEq V] {m : PointerCollection V} {k : String} {v : V}
    (h : m[k]? = some v) : ∃ k', m.keyOf v = some k' ∧ m[k']? = some v := by
  unfold keyOf
  cases hf : m.toList.find? fun e => decide (e.2 = v) with
  | none =>
    have := List.find?_eq_none.mp hf (k, v) (Std.ExtTreeMap.mem_toList_iff_getElem?_eq_some.mpr h)
    simp at this
  | some e =>
    have hv : e.2 = v := by simpa using List.find?_some hf
    refine ⟨e.1, rfl, ?_⟩
    rw [← hv]
    exact Std.ExtTreeMap.mem_toList_iff_getElem?_eq_some.mp (List.mem_of_find?_eq_some hf)

end PointerCollection

/-! ### Peers -/

inductive Mode
  | offer | answer
  deriving DecidableEq

structure Candidate where
  sdpMid : String
  sdpMLineIndex : Int
  sdp : String
  deriving DecidableEq

inductive SdpType
  | offer | answer
  deriving DecidableEq

/-- A data channel as `getDataChannel` returns it. -/
inductive Channel
  | remoteChannel | localChannel
  deriving DecidableEq

/-- `wrtc::Peer`. A channel is `none` while its pointer is null, else its `isOpened`;
`creating` lists the descriptions asked of WebRTC that have not been created yet. -/
structure Peer where
  peerid : PeerId
  mode : Mode
  lastRoom : RoomId
  remoteChannel : Option Bool
  localChannel : Option Bool
  destroying : Bool
  closing : Bool
  remoteCandidates : List Candidate
  sentSDP : Bool
  creating : List SdpType
  deriving DecidableEq

def Peer.getDataChannel (p : Peer) : Option Channel :=
  if p.destroying || p.closing then none
  else if p.remoteChannel = some true then some .remoteChannel
  else if p.localChannel = some true then some .localChannel
  else none

/-- `Peer::Peer`. -/
def Peer.new (peerid : PeerId) (mode : Mode) (lastRoom : RoomId) : Peer where
  peerid := peerid
  mode := mode
  lastRoom := lastRoom
  remoteChannel := none
  localChannel := none
  destroying := false
  closing := false
  remoteCandidates := []
  sentSDP := false
  creating := []

/-! ### The signalling connection -/

/-- `smpl::Peer`: a user and the id of its socket. -/
structure Address where
  user : String
  id : String
  deriving DecidableEq

/-- The payload of a message posted to the signaller. -/
inductive SigBody
  | sdp (type : SdpType) (sdp : String) (candidates : List Candidate)
  | candidate (candidate : Candidate) (sdptype : Mode)
  deriving DecidableEq

/-- What a node asks of its `SignalingConn`. -/
inductive SigAction
  | joinRoom (roomId : RoomId)
  | leaveRoom (roomId : RoomId)
  | postMessage (to' : PeerId) (roomId : RoomId) (body : SigBody)
  | sendPresence (to' : Address) (roomId : RoomId)
  deriving DecidableEq

/-! ### Rooms and nodes -/

/-- `struct RoomUnit`. -/
structure RoomUnit where
  peersInRoom : PointerCollection Ptr
  logicMsgHashesBuffer : CircularBuffer Hash 500
  systemMsgHashesBuffer : CircularBuffer Hash 500

/-- The sender thread: at work, blocked in `_cvsMq.wait`, woken and about to look at the queue
again, returned, or ended by an error. -/
inductive SenderState
  | running | waiting | woken | exited | crashed (f : Fault)
  deriving DecidableEq

/-- `WebrtcNode`. `user` and `hasher` come from the configuration and never change; `sigConn` lists
what has been handed to the signalling connection, oldest first. -/
structure Node where
  user : String
  hasher : String → Hash
  rooms : List RoomId
  roomManager : PointerCollection RoomUnit
  peerManager : PointerCollection Ptr
  heap : Ptr → Option Peer
  nextPtr : Ptr
  callbacks : PointerCollection (List Callback)
  callbacksMutexes : PointerCollection Unit
  peersInLvlMutexes : PointerCollection Unit
  sMq : List SendMsgT
  sender : SenderState
  stopping : Bool
  sigConn : List SigAction

namespace Node

def myIdInRoom (n : Node) (roomId : RoomId) : PeerId := n.user ++ roomId

/-- Write back a changed `RoomUnit`. -/
def setRoom (n : Node) (roomId : RoomId) (RU : RoomUnit) : Node :=
  { n with roomManager := n.roomManager.insert roomId RU }

/-- Write to a Peer. -/
def setPeer (n : Node) (conn : Ptr) (peer : Peer) : Node :=
  { n with heap := Function.update n.heap conn (some peer) }

/-- `_sMq.push`. -/
def push (n : Node) (task : SendMsgT) : Node := { n with sMq := n.sMq ++ [task] }

/-- `_cvsMq.notify_all`: without effect unless the sender thread is waiting. -/
def notifyAll (n : Node) : Node :=
  { n with sender := if n.sender = .waiting then .woken else n.sender }

@[simp] theorem setRoom_roomManager (n : Node) (r : RoomId) (RU : RoomUnit) :
    (n.setRoom r RU).roomManager = n.roomManager.insert r RU := rfl
@[simp] theorem setRoom_sMq (n : Node) (r : RoomId) (RU : RoomUnit) :
    (n.setRoom r RU).sMq = n.sMq := rfl
@[simp] theorem setRoom_sender (n : Node) (r : RoomId) (RU : RoomUnit) :
    (n.setRoom r RU).sender = n.sender := rfl

@[simp] theorem push_roomManager (n : Node) (t : SendMsgT) :
    (n.push t).roomManager = n.roomManager := rfl
@[simp] theorem push_sMq (n : Node) (t : SendMsgT) : (n.push t).sMq = n.sMq ++ [t] := rfl
@[simp] theorem push_sender (n : Node) (t : SendMsgT) : (n.push t).sender = n.sender := rfl

@[simp] theorem notifyAll_roomManager (n : Node) : n.notifyAll.roomManager = n.roomManager := rfl
@[simp] theorem notifyAll_sMq (n : Node) : n.notifyAll.sMq = n.sMq := rfl

end Node

end Yamb
