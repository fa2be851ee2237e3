import Yamb.CircularBuffer.History
import Yamb.Lib.Flood.Model
import Yamb.Node.Registry
import Yamb.Node.Sender
import Mathlib.Logic.Relation

/-!
# The nodes of an overlay

Nodes that have all joined one room, linked by open data channels that stay open.

* `Overlay`: the room, the nodes and the links; `Overlay.Member`: a node at its place in the overlay,
  with what its window has recorded; `Node.linked`, `Member.of_new`: a node that has just joined;
* `Msg.toFlood`, `SendMsgT.toFlood`: what matters of messages and tasks for their delivery;
* `Member.broadcast2Room`, `Member.send2client`, `Member.handle_known`, `Member.handle_fresh`,
  `Member.iterate`: what the operations of a member do, in those terms.
-/

set_option autoImplicit false

namespace Yamb

/-- A finite connected undirected overlay. The nodes are named by their ids in the room; neighbours
are listed in the order of `PeersInRoom`. Ids and room are C strings. -/
structure Overlay where
  room : RoomId
  ids : Finset PeerId
  peers : PeerId → List PeerId
  callbacks : PeerId → List Callback
  nodup : ∀ v, (peers v).Nodup
  irrefl : ∀ v, v ∉ peers v
  symm : ∀ v w, w ∈ peers v → v ∈ peers w
  mem_ids : ∀ v w, w ∈ peers v → w ∈ ids
  connected : ∀ v ∈ ids, ∀ w ∈ ids, Relation.ReflTransGen (fun a b => b ∈ peers a) v w
  room_cstr : cstr room = room
  ids_cstr : ∀ v ∈ ids, cstr v = v

/-- The unit of the room at a node: its neighbours are live and their channels open, and its window
has recorded the hashes `L`. -/
structure RoomUnit.Linked (RU : RoomUnit) (heap : Ptr → Option Peer) (peers : List PeerId)
    (L : List Hash) : Prop where
  keys : RU.peersInRoom.keys = peers
  live : Node.LivePeers heap RU
  opened : ∀ e ∈ RU.peersInRoom.toList, Node.closedAt heap e = false
  slots : RU.logicMsgHashesBuffer.maxSize = 500
  holds : RU.logicMsgHashesBuffer.Holds L

/-- `n` is the node `v` of the overlay; of its Peers in other rooms nothing is said. -/
structure Overlay.Member (O : Overlay) (v : PeerId) (n : Node) (L : List Hash) : Prop where
  id : n.myIdInRoom O.room = v
  joined : ∃ RU, n.roomManager[O.room]? = some RU ∧ RU.Linked n.heap (O.peers v) L
  registered : ∀ k ∈ O.ids, k ∈ n.peerManager ↔ k ∈ O.peers v
  mutex : n.callbacksMutexes[O.room]? = some ()
  callbacks : n.callbacks[O.room]? = some (O.callbacks v)
  going : n.stopping = false

/-- What the node `v` calls for a message that is new to it. -/
def Overlay.calls (O : Overlay) (v : PeerId) (m : Msg) : Except Fault (Option (List Callback)) :=
  .ok (if m.to' = none ∨ m.to' = some v then some (O.callbacks v) else none)

/-- A node that has joined the room and opened a channel to each of `peers`. -/
def Node.linked (user : String) (room : RoomId) (callback : Callback) (peers : List PeerId) : Node :=
  peers.foldl (fun n peerid => (n.createPC peerid .answer room).1.setPeer n.nextPtr
      { Peer.new peerid .answer room with remoteChannel := some true })
    (((Node.new user String.length).joinRoomWS room fun _ => 0).addCallback room callback).1

/-! ### Messages and tasks -/

def Msg.toFlood (m : Msg) : Flood.Msg PeerId Hash := ⟨m.hash, m.to'⟩

def SendMsgT.toFlood (t : SendMsgT) : Flood.Task PeerId Hash :=
  ⟨decide (t.type = .direct), t.msg.toFlood⟩

@[simp] theorem Msg.toFlood_key (m : Msg) : m.toFlood.key = m.hash := rfl
@[simp] theorem Msg.toFlood_dest (m : Msg) : m.toFlood.dest = m.to' := rfl

/-- A user message of the room. -/
structure Overlay.Sound (O : Overlay) (m : Msg) : Prop where
  room : m.roomId = O.room
  type : m.type = .logic
  to' : m.to'.map cstr = m.to'

/-- A task with a user message of the room; a direct one has a target. -/
structure Overlay.SoundTask (O : Overlay) (t : SendMsgT) : Prop where
  msg : O.Sound t.msg
  except : t.except = ""
  target : t.type = .direct → t.msg.to' ≠ none

variable {O : Overlay} {v : PeerId} {n : Node} {L : List Hash}

theorem Overlay.Sound.parse_roomId {m : Msg} (hm : O.Sound m) :
    (Message.parse m).roomId = O.room := by
  show cstr m.roomId = O.room
  rw [hm.room, O.room_cstr]

theorem Overlay.Sound.relay {m : Msg} (hm : O.Sound m) (n : Node) (now : ℕ) :
    O.Sound (n.relayMessage (Message.parse m) now) ∧
      (n.relayMessage (Message.parse m) now).toFlood = m.toFlood := by
  rw [Node.relayMessage_eq]
  refine ⟨⟨hm.parse_roomId, hm.type, ?_⟩, ?_⟩
  · simp [Message.parse, Function.comp_def, cstr_cstr]
  · simp only [Msg.toFlood, Message.parse, hm.to']

namespace RoomUnit.Linked

variable {RU : RoomUnit} {heap : Ptr → Option Peer} {peers : List PeerId}

theorem putHash (h : RU.Linked heap peers L) (hash : Hash) :
    (RU.putHash .logic hash).Linked heap peers (L ++ [hash]) where
  keys := by rw [putHash_peersInRoom, h.keys]
  live := by
    unfold Node.LivePeers
    rw [putHash_peersInRoom]
    exact h.live
  opened := by
    rw [putHash_peersInRoom]
    exact h.opened
  slots := by rw [putHash_logic, CircularBuffer.put_maxSize, h.slots]
  holds := h.holds.put hash

theorem isExists_iff (h : RU.Linked heap peers L) (hash : Hash) :
    RU.logicMsgHashesBuffer.isExists hash = true ↔ BlindWindow.Visible 500 L hash := by
  rw [h.holds.isExists_iff, h.slots]

/-- With open channels a broadcast goes to every neighbour. -/
theorem processTask_broadcast (h : RU.Linked n.heap peers L) {t : SendMsgT}
    (ht : t.type = .broadcast) (hex : t.except = "") :
    n.processTask RU t = .ok ([], peers.map fun w => (w, t.msg)) := by
  have hlive := @Node.visitAll_live n t RU.peersInRoom.toList
    fun e he => h.live e.1 e.2 (Std.ExtTreeMap.mem_toList_iff_getElem?_eq_some.mp he)
  have hall : Node.addressed t RU.peersInRoom.toList = RU.peersInRoom.toList :=
    List.filter_eq_self.mpr fun e _ => by simp [hex]
  have hclosed : RU.peersInRoom.toList.filter (Node.closedAt n.heap) = [] :=
    List.filter_eq_nil_iff.mpr fun e he => by simp [h.opened e he]
  have hopen : RU.peersInRoom.toList.filter (fun e => !Node.closedAt n.heap e) =
      RU.peersInRoom.toList := List.filter_eq_self.mpr fun e he => by simp [h.opened e he]
  simp only [Node.processTask, ht]
  rw [hlive, hall, hclosed, hopen, List.map_nil, ← h.keys, ← Std.ExtTreeMap.map_fst_toList_eq_keys,
    List.map_map]
  rfl

/-- A direct task goes to its target, if that is a neighbour. -/
theorem processTask_direct (h : RU.Linked n.heap peers L) {t : SendMsgT} {to' : PeerId}
    (ht : t.type = .direct) (hto : t.msg.to' = some to') :
    n.processTask RU t = .ok ([], if to' ∈ peers then [(to', t.msg)] else []) := by
  have hmem : to' ∈ peers ↔ to' ∈ RU.peersInRoom := by rw [← h.keys, Std.ExtTreeMap.mem_keys]
  simp only [Node.processTask, ht, hto]
  by_cases hp : to' ∈ RU.peersInRoom
  · obtain ⟨p, hget⟩ := PointerCollection.exists_of_mem hp
    obtain ⟨peer, hpeer, hid⟩ := h.live to' p hget
    have hopen := h.opened (to', p) (Std.ExtTreeMap.mem_toList_iff_getElem?_eq_some.mpr hget)
    simp only [Node.closedAt, hpeer, Option.bind_some, Option.isNone_eq_false_iff] at hopen
    obtain ⟨ch, hch⟩ := Option.isSome_iff_exists.mp hopen
    simp only [hget, hpeer, hch, hid, if_pos (hmem.mpr hp)]
  · rw [PointerCollection.getElem?_of_not_mem hp, if_neg fun hc => hp (hmem.mp hc)]

end RoomUnit.Linked

namespace Overlay.Member

/-- A node that has just joined, by conditions that can be evaluated. -/
theorem of_new {RU : RoomUnit} {junk : ℕ → Hash} (hid : n.myIdInRoom O.room = v)
    (hget : n.roomManager[O.room]? = some RU) (hkeys : RU.peersInRoom.keys = O.peers v)
    (hlive : ∀ e ∈ RU.peersInRoom.toList, (n.heap e.2).map Peer.peerid = some e.1)
    (hopen : ∀ e ∈ RU.peersInRoom.toList, Node.closedAt n.heap e = false)
    (hwindow : RU.logicMsgHashesBuffer = (createRoomUnit junk).logicMsgHashesBuffer)
    (hreg : n.peerManager.keys = O.peers v) (hmutex : n.callbacksMutexes[O.room]? = some ())
    (hcb : n.callbacks[O.room]? = some (O.callbacks v)) (hgo : n.stopping = false) :
    O.Member v n [] where
  id := hid
  joined := by
    refine ⟨RU, hget, hkeys, fun k p hp => ?_, hopen, by rw [hwindow]; rfl, ?_⟩
    · exact Option.map_eq_some_iff.mp
        (hlive (k, p) (Std.ExtTreeMap.mem_toList_iff_getElem?_eq_some.mpr hp))
    · rw [hwindow]
      exact .new junk 500 (by decide) (by decide)
  registered := fun k _ => by rw [← hreg, Std.ExtTreeMap.mem_keys]
  mutex := hmutex
  callbacks := hcb
  going := hgo

/-- A changed unit of the room, whatever happens to queue and sender thread. -/
theorem setRoom (h : O.Member v n L) {n' : Node} {RU : RoomUnit} {L' : List Hash}
    (hRU : RU.Linked n.heap (O.peers v) L') (huser : n'.user = n.user) (hheap : n'.heap = n.heap)
    (hrooms : n'.roomManager = n.roomManager.insert O.room RU)
    (hpeers : n'.peerManager = n.peerManager) (hmutex : n'.callbacksMutexes = n.callbacksMutexes)
    (hcb : n'.callbacks = n.callbacks) (hgo : n'.stopping = n.stopping) : O.Member v n' L' where
  id := by
    unfold Node.myIdInRoom
    rw [huser]
    exact h.id
  joined := by
    refine ⟨RU, ?_, by rwa [hheap]⟩
    rw [hrooms, PointerCollection.getElem?_insert, if_pos rfl]
  registered := by rw [hpeers]; exact h.registered
  mutex := by rw [hmutex]; exact h.mutex
  callbacks := by rw [hcb]; exact h.callbacks
  going := by rw [hgo]; exact h.going

/-- A change of queue and sender thread. -/
theorem setQueue (h : O.Member v n L) (q : List SendMsgT) (s : SenderState) :
    O.Member v { n with sMq := q, sender := s } L :=
  ⟨h.id, h.joined, h.registered, h.mutex, h.callbacks, h.going⟩

theorem push (h : O.Member v n L) (t : SendMsgT) : O.Member v (n.push t) L := h.setQueue _ n.sender

theorem broadcast2Room (h : O.Member v n L) (j : String) (now : ℕ) :
    O.Member v (n.broadcast2Room O.room j .logic "" now).1
        (L ++ [(n.formMessage j .logic O.room now).hash]) ∧
      (n.broadcast2Room O.room j .logic "" now).1.sMq = n.sMq ++
        [{ type := .broadcast, except := "", msg := n.formMessage j .logic O.room now }] := by
  obtain ⟨RU, hget, hRU⟩ := h.joined
  rw [Node.broadcast2Room_of_joined hget]
  exact ⟨h.setRoom (hRU.putHash _) rfl rfl rfl rfl rfl rfl rfl, rfl⟩

theorem send2client (h : O.Member v n L) {peerId : PeerId} (hp : peerId ∈ O.ids) (j : String)
    (now : ℕ) :
    O.Member v (n.send2client peerId O.room j .logic now).1
        (L ++ [(n.formMessageTo j .logic O.room peerId now).hash]) ∧
      (n.send2client peerId O.room j .logic now).1.sMq = n.sMq ++
        [{ type := if peerId ∈ O.peers v then .direct else .broadcast
           except := ""
           msg := n.formMessageTo j .logic O.room peerId now }] := by
  obtain ⟨RU, hget, hRU⟩ := h.joined
  rw [Node.send2client_of_joined hget]
  simp only [h.registered peerId hp]
  exact ⟨h.setRoom (hRU.putHash _) rfl rfl rfl rfl rfl rfl rfl, rfl⟩

theorem dispatch_eq (h : O.Member v n L) : n.dispatch O.room = .ok (O.callbacks v) := by
  simp only [Node.dispatch, PointerCollection.get_of_mem h.mutex,
    PointerCollection.get_of_mem h.callbacks]

theorem handle_known (h : O.Member v n L) {m : Msg} (hm : O.Sound m)
    (hk : BlindWindow.Visible 500 L m.hash) (now : ℕ) :
    n.handleWebrtcNodeMessageLogic (Message.parse m) now = (n, .ok none) := by
  obtain ⟨RU, hget, hRU⟩ := h.joined
  have hex : RU.logicMsgHashesBuffer.isExists (Message.parse m).hash = true :=
    (hRU.isExists_iff _).mpr hk
  simp only [Node.handleWebrtcNodeMessageLogic, hm.parse_roomId, hget, hex, if_true]

theorem handle_fresh (h : O.Member v n L) {m : Msg} (hm : O.Sound m)
    (hk : ¬ BlindWindow.Visible 500 L m.hash) (now : ℕ) :
    ∃ n' tasks, n.handleWebrtcNodeMessageLogic (Message.parse m) now = (n', O.calls v m) ∧
      O.Member v n' (L ++ [m.hash]) ∧ n'.sMq = n.sMq ++ tasks ∧ (∀ t ∈ tasks, O.SoundTask t) ∧
      tasks.map SendMsgT.toFlood = Flood.relay v m.toFlood := by
  obtain ⟨RU, hget, hRU⟩ := h.joined
  obtain ⟨hsound, hflood⟩ := hm.relay n now
  have hex : RU.logicMsgHashesBuffer.isExists (Message.parse m).hash = false := by
    rw [← Bool.not_eq_true]
    exact fun hc => hk ((hRU.isExists_iff _).mp hc)
  have hmem : O.Member v (n.setRoom O.room (RU.putHash .logic m.hash)) (L ++ [m.hash]) :=
    h.setRoom (hRU.putHash m.hash) rfl rfl rfl rfl rfl rfl rfl
  simp only [Node.handleWebrtcNodeMessageLogic, hm.parse_roomId, hget, hex, Bool.false_eq_true, if_false,
    h.dispatch_eq, h.id]
  cases hto : m.to' with
  | none =>
    refine ⟨_, [⟨.broadcast, "", n.relayMessage (Message.parse m) now⟩], ?_, hmem.push _, rfl,
      ?_, ?_⟩
    · simp [Message.parse, hto, Overlay.calls, Except.map]
    · intro t ht
      obtain rfl := List.mem_singleton.mp ht
      exact ⟨hsound, rfl, SendType.noConfusion⟩
    · simp [Flood.relay, SendMsgT.toFlood, hflood, hto]
  | some to' =>
    have hcstr : cstr to' = to' := by simpa [hto] using hm.to'
    by_cases hv : to' = v
    · subst hv
      refine ⟨_, [], ?_, hmem, (List.append_nil _).symm, by simp, ?_⟩
      · simp [Message.parse, hto, Overlay.calls, Except.map, hcstr]
      · simp [Flood.relay, hto]
    · refine ⟨_, [⟨.direct, "", n.relayMessage (Message.parse m) now⟩], ?_, hmem.push _, rfl,
        ?_, ?_⟩
      · simp [Message.parse, hto, Overlay.calls, hcstr, hv]
      · intro t ht
        obtain rfl := List.mem_singleton.mp ht
        refine ⟨hsound, rfl, fun _ => ?_⟩
        have hdest := congrArg Flood.Msg.dest hflood
        rw [Msg.toFlood_dest, Msg.toFlood_dest, hto] at hdest
        simp [hdest]
      · simp [Flood.relay, SendMsgT.toFlood, hflood, hto, hv]

theorem iterate (h : O.Member v n L) {t : SendMsgT} {rest : List SendMsgT}
    (hq : n.sMq = t :: rest) (ht : O.SoundTask t) :
    O.Member v n.senderIteration.1 L ∧ n.senderIteration.1.sMq = rest ∧
      (∀ s ∈ n.senderIteration.2, s.2 = t.msg) ∧
      (n.senderIteration.2.map fun s => (⟨v, s.1, s.2.toFlood⟩ : Flood.Packet PeerId Hash)) =
        t.toFlood.packets O.peers v := by
  obtain ⟨RU, hget, hRU⟩ := h.joined
  rw [← ht.msg.room] at hget
  have hiter : ∀ sends, n.processTask RU t = .ok ([], sends) →
      n.senderIteration = ({ n with sMq := rest, sender := .running }, sends) := by
    intro sends hp
    simp only [Node.senderIteration, hq, h.going, Bool.false_eq_true, if_false,
      PointerCollection.get_of_mem hget, hp, List.append_nil]
  cases htype : t.type with
  | broadcast =>
    rw [hiter _ (hRU.processTask_broadcast htype ht.except)]
    refine ⟨h.setQueue _ _, rfl, by simp, ?_⟩
    simp [Flood.Task.packets, SendMsgT.toFlood, htype, Function.comp_def]
  | direct =>
    obtain ⟨to', hto⟩ := Option.ne_none_iff_exists'.mp (ht.target htype)
    rw [hiter _ (hRU.processTask_direct htype hto)]
    refine ⟨h.setQueue _ _, rfl, ?_, ?_⟩
    · intro s hs
      dsimp only at hs
      split_ifs at hs
      · obtain rfl := List.mem_singleton.mp hs
        rfl
      · exact absurd hs List.not_mem_nil
    · simp only [Flood.Task.packets, SendMsgT.toFlood, htype, Msg.toFlood, hto, decide_true,
        if_true]
      split_ifs <;> simp [hto]

end Overlay.Member

end Yamb
