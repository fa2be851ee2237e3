import Yamb.Client.Reconnect
import Yamb.Registry

/-!
# Rooms over reconnects

The rooms of a node, the actions that its `SignalingConn` has queued, and those that its client has
sent in the current session.

* `RoomCall`, `RoomConn`, `ConnStep`: the calls of the application, the queue, the events of the
  client;
* `joinedRooms`: the rooms that a sequence of actions leaves joined;
* `Tracked`: the client lists the rooms it has joined in the session, and no room has a peer;
* `RoomConn.Rejoined`: what was sent and what is queued joins the rooms of the node;
  `ConnStep.rejoined_iff`: one step;
* **`run_roomsJoined`**: the rooms are joined in every state of a run in which no reconnect finds a
  room joined, since `connect` clears the rooms that would be joined again;
* `run_roomsJoined_reconnect`: a room that is joined after a reconnect.
-/

set_option autoImplicit false

namespace Yamb

inductive RoomCall
  | joinRoom (roomId : RoomId) (junk : ℕ → Hash)
  | leaveRoom (roomId : RoomId)

def Node.roomCall (n : Node) : RoomCall → Node × Except Fault Unit
  | .joinRoom roomId junk => (n.joinRoom roomId junk, .ok ())
  | .leaveRoom roomId => n.leaveRoom roomId

/-- What a queued action asks of the client. -/
def Client.perform (c : Client) : SigAction → Except ClientAssert Client
  | .joinRoom roomId => c.joinRoom roomId
  | .leaveRoom roomId => c.leaveRoom roomId
  | .postMessage _ _ _ | .sendPresence _ _ => c.send

/-- `callers` are the calls that have passed `waitForOnline`, `connected` is the flag of
`_connSync`, and `sent` is what the client has sent since its last `connect`. -/
structure RoomConn where
  node : Node
  callers : List RoomCall
  connected : Bool
  ipc : List SigAction
  client : Client
  sent : List SigAction

namespace RoomConn

/-- A new node, whose `SignalingConn` has called `connect`. -/
def start (user : String) (hasher : String → Hash) : RoomConn :=
  ⟨.new user hasher, [], false, [], Client.new.connect, []⟩

def onClientStateChange (S : RoomConn) : ClientState → RoomConn
  | .online => { S with
    connected := true
    ipc := S.ipc ++ S.client.rooms.map .joinRoom }
  | .error => { S with connected := false }
  | .connecting => { S with sent := [] }
  | .closed | .connected => S

/-- The client has handled an event. -/
def setClient (S : RoomConn) (c : Client) : RoomConn :=
  if c.state = S.client.state then { S with client := c }
  else onClientStateChange { S with client := c } c.state

end RoomConn

inductive ConnEvent
  | enter (c : RoomCall)
  | proceed (c : RoomCall)
  | run
  | client (e : ClientEvent)

/-- A failed assert ends the process. `close` stops the `SignalingConn`, and only the timer connects
again. -/
inductive ConnStep (S : RoomConn) : ConnEvent → RoomConn → Prop
  | enter {c : RoomCall} (h : S.connected = true) :
      ConnStep S (.enter c) { S with callers := c :: S.callers }
  | proceed {c : RoomCall} {l₁ l₂ : List RoomCall} (hc : S.callers = l₁ ++ c :: l₂)
      (h : (S.node.roomCall c).2 ≠ .error .useAfterFree) : ConnStep S (.proceed c) { S with
        node := (S.node.roomCall c).1
        callers := l₁ ++ l₂
        ipc := S.ipc ++ (S.node.roomCall c).1.sigConn.drop S.node.sigConn.length }
  | run {a : SigAction} {ipc : List SigAction} {c : Client} (hq : S.ipc = a :: ipc)
      (h : S.client.perform a = .ok c) : ConnStep S .run { S with
        ipc := ipc
        client := c
        sent := S.sent ++ [a] }
  | client {e : ClientEvent} {c : Client} (h : ClientStep (.ok S.client) e (.ok c))
      (hconnect : e ≠ .connect) (hclose : e ≠ .close) : ConnStep S (.client e) (S.setClient c)

/-- One action. -/
def joinedBy (rooms : List RoomId) : SigAction → List RoomId
  | .joinRoom roomId => rooms ++ [roomId]
  | .leaveRoom roomId => rooms.filter fun x => x ≠ roomId
  | .postMessage _ _ _ | .sendPresence _ _ => rooms

/-- The rooms with a join that no leave has followed. -/
def joinedRooms (actions : List SigAction) : List RoomId := actions.foldl joinedBy []

/-- A reconnect finds a join in the queue for every room of the node; the rooms a client joins again
when it comes online are rooms of the node. -/
def Rejoins (S : RoomConn) : ConnEvent → Prop
  | .client .onReconnectTimer => ∀ r ∈ S.node.rooms, .joinRoom r ∈ S.ipc
  | .client e => S.client.state ≠ .online →
    (∃ c, S.client.handle e = .ok c ∧ c.state = .online) →
      ∀ r ∈ S.client.rooms, r ∈ S.node.rooms
  | _ => True

/-- What was sent and what is queued joins the rooms of the node. -/
def RoomConn.Rejoined (S : RoomConn) : Prop :=
  ∀ r, r ∈ joinedRooms (S.sent ++ S.ipc) ↔ r ∈ S.node.rooms

/-- Whenever the client is online and the queue is empty, the rooms of the node are those joined in
the current session. -/
def RoomConn.RoomsJoined (S : RoomConn) : Prop :=
  S.client.state = .online → S.ipc = [] → ∀ r, r ∈ joinedRooms S.sent ↔ r ∈ S.node.rooms

variable {S S' : RoomConn} {e : ConnEvent} {tr : List ConnEvent} {c c' : Client} {n : Node}
  {r roomId : RoomId} {a : SigAction} {l l' J : List SigAction}

/-! ### The rooms that actions join -/

theorem mem_foldl_joinedBy (l : List SigAction) : ∀ rooms : List RoomId,
    r ∈ l.foldl joinedBy rooms ↔ r ∈ joinedRooms l ∨ r ∈ rooms ∧ .leaveRoom r ∉ l := by
  induction l with
  | nil =>
    intro rooms
    simp [joinedRooms]
  | cons a l ih =>
    intro rooms
    rw [joinedRooms, List.foldl_cons, List.foldl_cons, ih, ih]
    cases a with
    | joinRoom roomId =>
      simp only [joinedBy, List.mem_append, List.mem_cons, reduceCtorEq, false_or]
      tauto
    | leaveRoom roomId =>
      simp only [joinedBy, List.mem_filter, List.filter_nil, List.not_mem_nil, List.mem_cons,
        SigAction.leaveRoom.injEq, decide_eq_true_eq]
      tauto
    | postMessage to' roomId body => simp [joinedBy]
    | sendPresence to' roomId => simp [joinedBy]

/-- A later join stands, an earlier one stands unless it is left. -/
theorem mem_joinedRooms_append : r ∈ joinedRooms (l ++ l') ↔
    r ∈ joinedRooms l' ∨ r ∈ joinedRooms l ∧ .leaveRoom r ∉ l' := by
  rw [joinedRooms, List.foldl_append]
  exact mem_foldl_joinedBy l' (joinedRooms l)

theorem joinedRooms_snoc (l : List SigAction) (a : SigAction) :
    joinedRooms (l ++ [a]) = joinedBy (joinedRooms l) a := by
  rw [joinedRooms, List.foldl_append]
  rfl

theorem foldl_joinedBy_joins (rooms : List RoomId) : ∀ joined : List RoomId,
    (rooms.map SigAction.joinRoom).foldl joinedBy joined = joined ++ rooms := by
  induction rooms with
  | nil =>
    intro joined
    simp
  | cons roomId rooms ih =>
    intro joined
    rw [List.map_cons, List.foldl_cons, ih]
    simp [joinedBy]

theorem mem_joinedRooms_append_joins (l : List SigAction) (rooms : List RoomId) :
    r ∈ joinedRooms (l ++ rooms.map .joinRoom) ↔ r ∈ joinedRooms l ∨ r ∈ rooms := by
  rw [joinedRooms, List.foldl_append, foldl_joinedBy_joins, List.mem_append, joinedRooms]

/-- What is joined has a join. -/
theorem joinRoom_mem_of_mem_joinedRooms (h : r ∈ joinedRooms l) : .joinRoom r ∈ l := by
  induction l using List.reverseRecOn with
  | nil => cases h
  | append_singleton l a ih =>
    rw [joinedRooms_snoc] at h
    cases a with
    | joinRoom roomId =>
      rcases List.mem_append.mp h with h | h
      · exact List.mem_append_left _ (ih h)
      · rw [List.mem_singleton.mp h]
        exact List.mem_append_right _ (List.mem_singleton_self _)
    | leaveRoom roomId => exact List.mem_append_left _ (ih (List.mem_filter.mp h).1)
    | postMessage to' roomId body => exact List.mem_append_left _ (ih h)
    | sendPresence to' roomId => exact List.mem_append_left _ (ih h)

/-- A room with a join and without a leave is joined. -/
theorem mem_joinedRooms_of_joinRoom (h : .joinRoom r ∈ l) (hno : .leaveRoom r ∉ l) :
    r ∈ joinedRooms l := by
  obtain ⟨l₁, l₂, rfl⟩ := List.append_of_mem h
  have hno₂ : .leaveRoom r ∉ l₂ := fun hm =>
    hno (List.mem_append_right _ (List.mem_cons_of_mem _ hm))
  rw [List.append_cons, mem_joinedRooms_append, joinedRooms_snoc]
  exact .inr ⟨List.mem_append_right _ (List.mem_singleton_self _), hno₂⟩

theorem joinedRooms_perform (h : c.perform a = .ok c') : c'.rooms = joinedBy c.rooms a ∧
    c'.reconnectTimer = c.reconnectTimer ∧ c'.reconnecting = c.reconnecting ∧
      c'.state = c.state := by
  cases a with
  | joinRoom roomId =>
    simp only [Client.perform, Client.joinRoom, Client.send] at h
    split_ifs at h
    cases h
    exact ⟨rfl, rfl, rfl, rfl⟩
  | leaveRoom roomId =>
    simp only [Client.perform, Client.leaveRoom, Client.send] at h
    split_ifs at h
    cases h
    exact ⟨rfl, rfl, rfl, rfl⟩
  | postMessage to' roomId body =>
    simp only [Client.perform, Client.send] at h
    split_ifs at h
    cases h
    exact ⟨rfl, rfl, rfl, rfl⟩
  | sendPresence to' roomId =>
    simp only [Client.perform, Client.send] at h
    split_ifs at h
    cases h
    exact ⟨rfl, rfl, rfl, rfl⟩

/-! ### The events of the client -/

/-- The timer runs after an error only, attached and with the flag set. -/
def Client.TimerSane (c : Client) : Prop :=
  c.reconnectTimer.active = true →
    c.state = .error ∧ c.reconnecting = true ∧ c.reconnectTimer.attached = true

theorem Client.TimerSane.congr (h : c.TimerSane) (ht : c'.reconnectTimer = c.reconnectTimer)
    (hr : c'.reconnecting = c.reconnecting) (hs : c'.state = c.state) : c'.TimerSane := by
  unfold Client.TimerSane
  rw [ht, hr, hs]
  exact h

/-- An event that is not a reconnect leaves the rooms, and does not connect. -/
structure Client.Keeps (c c' : Client) : Prop where
  rooms : c'.rooms = c.rooms
  timer : c'.TimerSane
  state : c'.state = .connecting → c.state = .connecting

theorem setError_keeps (h : c.setError = .ok c') : c.Keeps c' := by
  unfold Client.setError Client.startReconnectTimer Timer.setTimeout Timer.start Timer.attach at h
  cases hactive : c.reconnectTimer.active with
  | true =>
    simp only [hactive, if_true] at h
    cases h
  | false =>
    simp only [hactive, Bool.false_eq_true, if_false] at h
    cases h
    exact ⟨rfl, fun _ => ⟨rfl, rfl, rfl⟩, fun hs => by cases hs⟩

theorem onOnline_keeps (hc : c.TimerSane) (h : c.onOnline = .ok c') : c.Keeps c' := by
  unfold Client.onOnline Client.send at h
  split_ifs at h with hann hhand hstate hping
  · cases h
    exact ⟨rfl, hc, id⟩
  · cases h
    refine ⟨rfl, fun hactive => ?_, fun hs => by cases hs⟩
    rw [Client.TimerSane, not_not.mp hstate] at hc
    cases (hc hactive).1

theorem onAnnounceState_keeps (hc : c.TimerSane) {response : Option AnnounceResponse}
    (h : c.onAnnounceState response = .ok c') : c.Keeps c' := by
  cases response with
  | none => exact setError_keeps h
  | some r =>
    simp only [Client.onAnnounceState] at h
    have hfail {c₁ : Client} (hrooms : c₁.rooms = c.rooms) (hstate : c₁.state = c.state)
        (h : c₁.setError = .ok c') : c.Keeps c' := by
      have hkeeps := setError_keeps h
      exact ⟨hkeeps.rooms.trans hrooms, hkeeps.timer, fun hs => hstate ▸ hkeeps.state hs⟩
    split_ifs at h with hstatus
    · refine hfail ?_ ?_ h
      · rfl
      · rfl
    · cases hid : r.id with
      | none =>
        simp only [hid] at h
        refine hfail ?_ ?_ h
        · rfl
        · rfl
      | some id =>
        simp only [hid] at h
        split_ifs at h
        · refine hfail ?_ ?_ h
          · rfl
          · rfl
        · have hkeeps := onOnline_keeps (by exact hc) h
          exact ⟨hkeeps.rooms, hkeeps.timer, hkeeps.state⟩

/-- **One event** of a client that nobody connects or closes. -/
theorem handle_keeps {e : ClientEvent} (hc : c.TimerSane) (hconnect : e ≠ .connect)
    (hclose : e ≠ .close) (htimer : e ≠ .onReconnectTimer) (h : c.handle e = .ok c') :
    c.Keeps c' := by
  cases e with
  | connect => exact absurd rfl hconnect
  | onSocketConnect =>
    simp only [Client.handle, Client.onConnect, Client.stopReconnectTimer] at h
    split_ifs at h with hr
    · cases h
      refine ⟨rfl, fun hactive => ?_, fun hs => by cases hs⟩
      cases hactive
    · cases h
      exact ⟨rfl, fun hactive => absurd (hc hactive).2.1 hr, fun hs => by cases hs⟩
  | onHandshake sid pingInterval pingTimeout =>
    cases h
    exact ⟨rfl, hc, id⟩
  | onConnectPacket => exact onOnline_keeps hc h
  | onAnnounceState response => exact onAnnounceState_keeps hc h
  | onSocketError =>
    simp only [Client.handle, Client.onSocketError] at h
    cases herr : c.setError with
    | error f =>
      rw [herr] at h
      cases h
    | ok c₁ =>
      rw [herr] at h
      cases h
      have hkeeps := setError_keeps herr
      exact ⟨hkeeps.rooms, hkeeps.timer.congr rfl rfl rfl, hkeeps.state⟩
  | onReconnectTimer => exact absurd rfl htimer
  | close => exact absurd rfl hclose

/-- The timer connects, and the rooms are gone. -/
theorem onReconnectTimer_connects (hc : c.TimerSane) (hactive : c.reconnectTimer.active = true) :
    c.state = .error ∧ c.onReconnectTimer.state = .connecting ∧ c.onReconnectTimer.rooms = [] ∧
      c.onReconnectTimer.TimerSane := by
  obtain ⟨hstate, -, hattached⟩ := hc hactive
  unfold Client.onReconnectTimer Timer.stop
  rw [if_pos hattached]
  exact ⟨hstate, rfl, rfl, fun hactive => by cases hactive⟩

/-! ### The calls of the application -/

/-- The client lists what it has joined in the session; no room has a peer, and a joined room has
its mutex. -/
structure RoomConn.Tracked (S : RoomConn) : Prop where
  shape : S.node.Shape
  unlisted : S.node.Unlisted
  mutexes : ∀ r ∈ S.node.rooms, r ∈ S.node.callbacksMutexes
  timer : S.client.TimerSane
  rooms : S.client.rooms = joinedRooms S.sent

/-- A room without peers is left, and the signaller is told. -/
theorem leaveRoomWS_of_unlisted (hs : n.Shape) (hu : n.Unlisted) (hr : roomId ∈ n.rooms)
    (hm : roomId ∈ n.callbacksMutexes) : n.leaveRoomWS roomId = ({ n with
      rooms := n.rooms.erase roomId
      roomManager := n.roomManager.erase roomId
      sigConn := n.sigConn ++ [.leaveRoom roomId] }, .ok ()) := by
  obtain ⟨RU, hRU⟩ := PointerCollection.exists_of_mem ((hs.mem_rooms roomId).mp hr)
  obtain ⟨_, hmutex⟩ := PointerCollection.exists_of_mem hm
  have hempty : RU.peersInRoom = ∅ := by
    refine Std.ExtTreeMap.eq_empty_iff_forall_not_mem.mpr fun k hk => ?_
    obtain ⟨p, hp⟩ := PointerCollection.exists_of_mem hk
    exact hu roomId k p ⟨RU, hRU, hp⟩
  simp only [Node.leaveRoomWS, if_pos hr, hRU, hempty, Std.ExtTreeMap.isEmpty_empty, if_true,
    PointerCollection.get_of_mem hmutex]

/-- What the actions do to the rooms they join, the calls that queue them do to the node. -/
structure Node.Queues (n n' : Node) (queued : List SigAction) : Prop where
  shape : n'.Shape
  unlisted : n'.Unlisted
  mutexes : ∀ r ∈ n'.rooms, r ∈ n'.callbacksMutexes
  sigConn : n'.sigConn = n.sigConn ++ queued
  rooms : ∀ l, (∀ r, r ∈ joinedRooms l ↔ r ∈ n.rooms) →
    ∀ r, r ∈ joinedRooms (l ++ queued) ↔ r ∈ n'.rooms

theorem queues_joinRoom (hs : n.Shape) (hu : n.Unlisted)
    (hm : ∀ r ∈ n.rooms, r ∈ n.callbacksMutexes) (roomId : RoomId) (junk : ℕ → Hash) :
    ∃ queued, n.Queues (n.joinRoom roomId junk) queued := by
  have hshape := hs.joinRoomWS roomId junk
  have hunlisted : (n.joinRoomWS roomId junk).Unlisted := fun r k p hl =>
    hu r k p ((Node.listed_joinRoomWS hs roomId junk r k p).mp hl)
  unfold Node.joinRoom
  by_cases hr : roomId ∈ n.rooms
  · have heq : n.joinRoomWS roomId junk = n := if_pos hr
    rw [heq]
    exact ⟨[], hs, hu, hm, (List.append_nil _).symm, fun l hl r => by rw [List.append_nil, hl]⟩
  · refine ⟨[.joinRoom roomId], hshape, hunlisted, fun r hin => ?_, ?_, fun l hl r => ?_⟩
    · simp only [Node.joinRoomWS, if_neg hr] at hin ⊢
      rw [Std.ExtTreeMap.mem_insertIfNew, Std.LawfulEqCmp.compare_eq_iff_eq]
      rcases List.mem_append.mp hin with hin | hin
      · exact .inr (hm r hin)
      · exact .inl (List.mem_singleton.mp hin).symm
    · simp only [Node.joinRoomWS, if_neg hr]
    · simp only [Node.joinRoomWS, if_neg hr]
      rw [joinedRooms_snoc, joinedBy, List.mem_append, List.mem_append, hl]

theorem queues_leaveRoom (hs : n.Shape) (hu : n.Unlisted)
    (hm : ∀ r ∈ n.rooms, r ∈ n.callbacksMutexes) (roomId : RoomId) :
    ∃ queued, n.Queues (n.leaveRoom roomId).1 queued := by
  unfold Node.leaveRoom
  by_cases hr : roomId ∈ n.rooms
  · have heq := leaveRoomWS_of_unlisted hs hu hr (hm roomId hr)
    have hshape := hs.leaveRoomWS roomId (by simp [heq])
    have hunlisted := hu.leaveRoomWS roomId
    rw [heq] at hshape hunlisted ⊢
    refine ⟨[.leaveRoom roomId], hshape, hunlisted, fun r hin => ?_, rfl, fun l hl r => ?_⟩
    · exact hm r (List.mem_of_mem_erase hin)
    · rw [joinedRooms_snoc, joinedBy, List.mem_filter, hl, hs.rooms_nodup.mem_erase_iff,
        decide_eq_true_eq, and_comm]
  · have heq : n.leaveRoomWS roomId = (n, .ok ()) := if_neg hr
    rw [heq]
    exact ⟨[], hs, hu, hm, (List.append_nil _).symm, fun l hl r => by rw [List.append_nil, hl]⟩

/-- **One call.** -/
theorem queues_roomCall (hs : n.Shape) (hu : n.Unlisted)
    (hm : ∀ r ∈ n.rooms, r ∈ n.callbacksMutexes) (call : RoomCall) :
    ∃ queued, n.Queues (n.roomCall call).1 queued := by
  cases call with
  | joinRoom roomId junk => exact queues_joinRoom hs hu hm roomId junk
  | leaveRoom roomId => exact queues_leaveRoom hs hu hm roomId

/-! ### Runs -/

theorem start_tracked (user : String) (hasher : String → Hash) :
    (RoomConn.start user hasher).Tracked where
  shape := Node.new_shape user hasher
  unlisted := fun roomId k p ⟨RU, hRU, _⟩ => by simp [RoomConn.start, Node.new] at hRU
  mutexes := fun r hr => absurd hr List.not_mem_nil
  timer := fun hactive => by cases hactive
  rooms := rfl

@[simp] theorem setClient_node (S : RoomConn) (c : Client) : (S.setClient c).node = S.node := by
  unfold RoomConn.setClient RoomConn.onClientStateChange
  split_ifs
  · rfl
  · split <;> rfl

@[simp] theorem setClient_client (S : RoomConn) (c : Client) : (S.setClient c).client = c := by
  unfold RoomConn.setClient RoomConn.onClientStateChange
  split_ifs
  · rfl
  · split <;> rfl

theorem setClient_sent (S : RoomConn) (c : Client) : (S.setClient c).sent =
    if c.state = .connecting ∧ S.client.state ≠ .connecting then [] else S.sent := by
  unfold RoomConn.setClient RoomConn.onClientStateChange
  cases hc : c.state <;> cases hS : S.client.state <;> rfl

theorem setClient_ipc (S : RoomConn) (c : Client) : (S.setClient c).ipc =
    S.ipc ++ if c.state = .online ∧ S.client.state ≠ .online then c.rooms.map .joinRoom
      else [] := by
  unfold RoomConn.setClient RoomConn.onClientStateChange
  cases hc : c.state <;> cases hS : S.client.state <;> simp

/-- The rooms that a client joins again are rooms of the node: nothing else is joined by them. -/
theorem rejoined_append_joins_iff (h : S.Rejoined) (rooms : List RoomId) :
    (∀ r, r ∈ joinedRooms (S.sent ++ S.ipc ++ rooms.map .joinRoom) ↔ r ∈ S.node.rooms) ↔
      ∀ r ∈ rooms, r ∈ S.node.rooms := by
  simp only [mem_joinedRooms_append_joins, h _]
  constructor
  · exact fun hall r hr => (hall r).mp (.inr hr)
  · exact fun hall r => ⟨fun hr => hr.elim id (hall r), .inl⟩

/-- In a new session, only what is queued joins a room. -/
theorem rejoined_ipc_iff (h : S.Rejoined) :
    (∀ r, r ∈ joinedRooms S.ipc ↔ r ∈ S.node.rooms) ↔ ∀ r ∈ S.node.rooms, .joinRoom r ∈ S.ipc := by
  have happ (r : RoomId) := (h r).symm.trans mem_joinedRooms_append
  constructor
  · exact fun hall r hr => joinRoom_mem_of_mem_joinedRooms ((hall r).mpr hr)
  · intro hall r
    constructor
    · exact fun hr => (happ r).mpr (.inl hr)
    · intro hr
      rcases (happ r).mp hr with hq | ⟨-, hno⟩
      · exact hq
      · exact mem_joinedRooms_of_joinRoom (hall r hr) hno

theorem ClientStep.inv {e : ClientEvent} (h : ClientStep (.ok c) e (.ok c')) :
    c.handle e = .ok c' ∧ (e = .onReconnectTimer → c.reconnectTimer.active = true) := by
  generalize (Except.ok c' : ClientRun) = s at h ⊢
  cases h with
  | handle ht => exact ⟨rfl, ht⟩

/-- What the event of a client does: the timer begins a session, any other event goes on with it. -/
theorem setClient_cases {e : ClientEvent} (hs : S.Tracked) (h : ClientStep (.ok S.client) e (.ok c))
    (hconnect : e ≠ .connect) (hclose : e ≠ .close) :
    c.TimerSane ∧ (e = .onReconnectTimer ∧ c.rooms = [] ∧ (S.setClient c).sent = [] ∧
        (S.setClient c).ipc = S.ipc ∨
      e ≠ .onReconnectTimer ∧ c.rooms = S.client.rooms ∧ (S.setClient c).sent = S.sent ∧
        S.client.handle e = .ok c) := by
  obtain ⟨heq, htimer⟩ := h.inv
  by_cases he : e = .onReconnectTimer
  · subst he
    obtain ⟨hstate, hstate', hrooms, hsane⟩ := onReconnectTimer_connects hs.timer (htimer rfl)
    obtain rfl : S.client.onReconnectTimer = c := Except.ok.inj heq
    refine ⟨hsane, .inl ⟨rfl, hrooms, ?_, ?_⟩⟩
    · rw [setClient_sent, if_pos ⟨hstate', by rw [hstate]; decide⟩]
    · rw [setClient_ipc, hstate', if_neg (fun hon => by cases hon.1), List.append_nil]
  · have hkeeps := handle_keeps hs.timer hconnect hclose he heq
    refine ⟨hkeeps.timer, .inr ⟨he, hkeeps.rooms, ?_, heq⟩⟩
    rw [setClient_sent, if_neg fun hcon => hcon.2 (hkeeps.state hcon.1)]

/-- **One step** keeps the bookkeeping. -/
theorem ConnStep.tracked (h : ConnStep S e S') (hs : S.Tracked) : S'.Tracked := by
  cases h with
  | enter hconnected => exact ⟨hs.shape, hs.unlisted, hs.mutexes, hs.timer, hs.rooms⟩
  | @proceed call l₁ l₂ hc hd =>
    obtain ⟨queued, hq⟩ := queues_roomCall hs.shape hs.unlisted hs.mutexes call
    exact ⟨hq.shape, hq.unlisted, hq.mutexes, hs.timer, hs.rooms⟩
  | @run a ipc c hq hp =>
    obtain ⟨hrooms, ht, hr, hstate⟩ := joinedRooms_perform hp
    refine ⟨hs.shape, hs.unlisted, hs.mutexes, hs.timer.congr ht hr hstate, ?_⟩
    show c.rooms = joinedRooms (S.sent ++ [a])
    rw [joinedRooms_snoc, hrooms, hs.rooms]
  | @client e c hc hconnect hclose =>
    obtain ⟨hsane, hcases⟩ := setClient_cases hs hc hconnect hclose
    have hrooms : c.rooms = joinedRooms (S.setClient c).sent := by
      rcases hcases with ⟨-, hrooms, hsent, -⟩ | ⟨-, hrooms, hsent, -⟩
      · rw [hrooms, hsent]
        rfl
      · rw [hrooms, hsent, hs.rooms]
    constructor
    · rw [setClient_node]
      exact hs.shape
    · rw [setClient_node]
      exact hs.unlisted
    · rw [setClient_node]
      exact hs.mutexes
    · rw [setClient_client]
      exact hsane
    · rw [setClient_client]
      exact hrooms

theorem rejoins_client_iff {e : ClientEvent} (he : e ≠ .onReconnectTimer)
    (h : S.client.handle e = .ok c) : Rejoins S (.client e) ↔
      (c.state = .online ∧ S.client.state ≠ .online → ∀ r ∈ S.client.rooms, r ∈ S.node.rooms) := by
  have hdef : Rejoins S (.client e) ↔ (S.client.state ≠ .online →
      (∃ c, S.client.handle e = .ok c ∧ c.state = .online) →
        ∀ r ∈ S.client.rooms, r ∈ S.node.rooms) := by
    cases e with
    | onReconnectTimer => exact absurd rfl he
    | _ => exact Iff.rfl
  rw [hdef]
  constructor
  · exact fun hall ⟨hon, hnot⟩ => hall hnot ⟨c, h, hon⟩
  · rintro hall hnot ⟨c', hc', hon⟩
    obtain rfl : c = c' := Except.ok.inj (h.symm.trans hc')
    exact hall ⟨hon, hnot⟩

/-- **One step** keeps the joined rooms exactly when it meets `Rejoins`. -/
theorem ConnStep.rejoined_iff (h : ConnStep S e S') (hs : S.Tracked) (hk : S.Rejoined) :
    S'.Rejoined ↔ Rejoins S e := by
  cases h with
  | enter hconnected => exact iff_of_true hk trivial
  | @proceed call l₁ l₂ hc hd =>
    obtain ⟨queued, hq⟩ := queues_roomCall hs.shape hs.unlisted hs.mutexes call
    refine iff_of_true (fun r => ?_) trivial
    show r ∈ joinedRooms (S.sent ++ (S.ipc ++ (S.node.roomCall call).1.sigConn.drop _)) ↔ _
    rw [hq.sigConn, List.drop_left, ← List.append_assoc]
    exact hq.rooms _ hk r
  | @run a ipc c hq hp =>
    refine iff_of_true (fun r => ?_) trivial
    show r ∈ joinedRooms (S.sent ++ [a] ++ ipc) ↔ r ∈ S.node.rooms
    rw [← hk r, hq, List.append_assoc, List.singleton_append]
  | @client e c hc hconnect hclose =>
    unfold RoomConn.Rejoined
    obtain ⟨-, ⟨rfl, -, hsent, hipc⟩ | ⟨he, hrooms, hsent, heq⟩⟩ :=
      setClient_cases hs hc hconnect hclose
    · rw [hsent, hipc, setClient_node]
      exact rejoined_ipc_iff hk
    · rw [hsent, setClient_ipc, setClient_node, rejoins_client_iff he heq, hrooms]
      split_ifs with hon
      · rw [← List.append_assoc, forall_prop_of_true hon]
        exact rejoined_append_joins_iff hk S.client.rooms
      · rw [List.append_nil]
        exact iff_of_true hk fun hcon => absurd hcon hon

/-- **The rooms of the node are joined**, whenever the client is online and the queue is empty, in
every run in which no reconnect finds a room that is not about to be joined, and a client that comes
online joins none again that the node has left. -/
theorem run_roomsJoined {user : String} {hasher : String → Hash}
    (h : Lts.Run (Lts.Only ConnStep Rejoins) (.start user hasher) tr S) : S.RoomsJoined := by
  have hinv : S.Tracked ∧ S.Rejoined := by
    refine h.invariant (I := fun S => S.Tracked ∧ S.Rejoined)
      ⟨start_tracked user hasher, fun r => ?_⟩ fun S e S' hs he => ?_
    · exact iff_of_false List.not_mem_nil List.not_mem_nil
    · exact ⟨he.1.tracked hs.1, (he.1.rejoined_iff hs.1 hs.2).mpr he.2⟩
  intro _ hq r
  have hr := hinv.2 r
  rwa [hq, List.append_nil] at hr

/-- An event of a client that lists no rooms. -/
theorem ConnStep.client_of_rooms (S : RoomConn) {e : ClientEvent} (he : S.client.handle e = .ok c)
    (hrooms : S.client.rooms = []) (hconnect : e ≠ .connect) (hclose : e ≠ .close)
    (htimer : e ≠ .onReconnectTimer) :
    Lts.Only ConnStep Rejoins S (.client e) (S.setClient c) := by
  have hstep : ClientStep (.ok S.client) e (.ok c) :=
    he ▸ .handle fun heq => absurd heq htimer
  refine ⟨.client hstep hconnect hclose, (rejoins_client_iff htimer he).mpr fun _ r hr => ?_⟩
  rw [hrooms] at hr
  cases hr

/-- The client once it has called `connect`, for the first time or again. -/
def connectingClient (again : Bool) : Client :=
  { Client.new with
    state := .connecting
    reconnecting := again
    wasOnline := again }

/-- The client once the signaller has accepted its announcement. -/
def onlineClient (again : Bool) (rooms : List RoomId) : Client :=
  { Client.new with
    state := .online
    handshakeComplete := true
    sessionID := "s"
    pingInterval := 25000
    pingTimeout := 20000
    announceStatus := 200
    ourID := "i"
    rooms := rooms
    wasOnline := again }

/-- A client that was online, once its socket has failed. -/
def lostClient (rooms : List RoomId) : Client :=
  { onlineClient false rooms with
    state := .error
    handshakeComplete := false
    reconnectTimer := ⟨true, true⟩
    reconnecting := true
    wasOnline := true }

/-- A client that connects comes online. -/
theorem run_online (S : RoomConn) (again : Bool) (hc : S.client = connectingClient again) :
    ∃ tr, Lts.Run (Lts.Only ConnStep Rejoins) S tr { S with
      connected := true
      client := onlineClient again [] } := by
  obtain ⟨node, callers, connected, ipc, client, sent⟩ := S
  obtain rfl : client = connectingClient again := hc
  let c₁ : Client := { Client.new with
    state := .connected
    handshakeComplete := true
    wasOnline := again }
  let c₂ : Client := { c₁ with
    sessionID := "s"
    pingInterval := 25000
    pingTimeout := 20000 }
  let S₀ : RoomConn := ⟨node, callers, connected, ipc, connectingClient again, sent⟩
  have h₁ := ConnStep.client_of_rooms S₀ (c := c₁) (e := .onSocketConnect)
    (by cases again <;> rfl) rfl nofun nofun nofun
  have h₂ := ConnStep.client_of_rooms { S₀ with client := c₁ } (c := c₂)
    (e := .onHandshake (some "s") (some 25000) (some 20000)) rfl rfl nofun nofun nofun
  have h₃ := ConnStep.client_of_rooms { S₀ with client := c₂ } (c := c₂) (e := .onConnectPacket)
    rfl rfl nofun nofun nofun
  have h₄ := ConnStep.client_of_rooms { S₀ with client := c₂ } (c := onlineClient again [])
    (e := .onAnnounceState (some ⟨200, some "i", true⟩)) (by cases again <;> rfl) rfl nofun
    nofun nofun
  have hrun := (((Lts.Run.single h₁).snoc h₂).snoc h₃).snoc h₄
  have heq : ({ S₀ with client := c₂ } : RoomConn).setClient (onlineClient again []) =
      ⟨node, callers, true, ipc, onlineClient again [], sent⟩ := by
    unfold RoomConn.setClient RoomConn.onClientStateChange
    simp [onlineClient, c₂, c₁, S₀]
  exact ⟨_, heq ▸ hrun⟩

/-- The node has joined a room. -/
def joinedConn (user : String) (hasher : String → Hash) (r : RoomId) : RoomConn where
  node := (Node.new user hasher).joinRoom r fun _ => 0
  callers := []
  connected := true
  ipc := []
  client := onlineClient false [r]
  sent := [.joinRoom r]

theorem run_joinedConn (user : String) (hasher : String → Hash) (r : RoomId) :
    ∃ tr, Lts.Run (Lts.Only ConnStep Rejoins) (.start user hasher) tr
      (joinedConn user hasher r) := by
  obtain ⟨tr, hrun⟩ := run_online (.start user hasher) false rfl
  let call : RoomCall := .joinRoom r fun _ => 0
  have henter := hrun.snoc ⟨.enter (c := call) rfl, trivial⟩
  have hproceed := henter.snoc ⟨@ConnStep.proceed _ call [] [] rfl nofun, trivial⟩
  have hqueue : (Node.roomCall (.new user hasher) call).1.sigConn = [.joinRoom r] := by
    simp [Node.roomCall, call, Node.joinRoom, Node.joinRoomWS, Node.new]
  exact ⟨_, hproceed.snoc ⟨.run hqueue rfl, trivial⟩⟩

/-- The socket of a client fails. -/
theorem ConnStep.onSocketError {S S' : RoomConn} (he : S.client.handle .onSocketError = .ok c)
    (hS : S.setClient c = S') : ConnStep S (.client .onSocketError) S' := by
  refine hS ▸ .client (he ▸ .handle fun heq => ?_) (fun heq => ?_) fun heq => ?_
  all_goals cases heq

/-- The timer of a client that is to reconnect expires. -/
theorem ConnStep.onReconnectTimer {S S' : RoomConn} (hc : S.client.reconnectTimer.active = true)
    (he : S.client.handle .onReconnectTimer = .ok c) (hS : S.setClient c = S') :
    ConnStep S (.client .onReconnectTimer) S' := by
  refine hS ▸ .client (he ▸ .handle fun _ => hc) (fun heq => ?_) fun heq => ?_
  all_goals cases heq

/-- The connection is lost while a call is under way; the join that the call queues is sent after the
reconnect. -/
theorem run_roomsJoined_reconnect : ∃ tr S, Lts.Run (Lts.Only ConnStep Rejoins)
    (.start "u" String.length) tr S ∧ .client .onReconnectTimer ∈ tr ∧ "r" ∈ S.node.rooms ∧
      S.client.state = .online ∧ S.ipc = [] ∧ S.RoomsJoined := by
  let N : Node := .new "u" String.length
  let call : RoomCall := .joinRoom "r" fun _ => 0
  obtain ⟨tr, hrun⟩ := run_online (.start "u" String.length) false rfl
  let S : RoomConn := ⟨N, [call], true, [], onlineClient false [], []⟩
  have henter : Lts.Run _ _ _ S := hrun.snoc ⟨.enter (c := call) rfl, trivial⟩
  let S₁ : RoomConn := { S with connected := false, client := lostClient [] }
  have herror : ConnStep S (.client .onSocketError) S₁ := .onSocketError (c := lostClient []) rfl rfl
  have hlost := henter.snoc ⟨herror, fun hstate => absurd rfl hstate⟩
  let S₂ : RoomConn := { S₁ with node := (N.roomCall call).1, callers := [], ipc := [.joinRoom "r"] }
  have hqueue : (N.roomCall call).1.sigConn = [.joinRoom "r"] := by
    simp [Node.roomCall, call, Node.joinRoom, Node.joinRoomWS, N, Node.new]
  have hproceed : ConnStep S₁ (.proceed call) S₂ := by
    have h := @ConnStep.proceed S₁ call [] [] rfl fun heq => by cases heq
    rwa [show S₁.ipc ++ (S₁.node.roomCall call).1.sigConn.drop S₁.node.sigConn.length =
      [.joinRoom "r"] from hqueue] at h
  have hrooms : (N.roomCall call).1.rooms = ["r"] := by
    simp [Node.roomCall, call, Node.joinRoom, Node.joinRoomWS, N, Node.new]
  let S₃ : RoomConn := { S₂ with client := connectingClient true }
  have hconnect : ConnStep S₂ (.client .onReconnectTimer) S₃ :=
    .onReconnectTimer (c := connectingClient true) rfl rfl rfl
  have hrejoins : Rejoins S₂ (.client .onReconnectTimer) := by
    intro r hr
    rw [show S₂.node.rooms = ["r"] from hrooms, List.mem_singleton] at hr
    rw [hr]
    exact List.mem_singleton_self _
  obtain ⟨tr', honline⟩ := run_online S₃ true rfl
  have hback := ((hlost.snoc ⟨hproceed, trivial⟩).snoc ⟨hconnect, hrejoins⟩).trans honline
  have hend := hback.snoc ⟨.run (a := .joinRoom "r") rfl rfl, trivial⟩
  refine ⟨_, _, hend, by simp, ?_, rfl, rfl, run_roomsJoined hend⟩
  rw [show (N.roomCall call).1.rooms = ["r"] from hrooms]
  exact List.mem_singleton_self _

/-- The connection is lost after the room was joined, and comes back. -/
theorem not_roomsJoined_after_reconnect : ¬ ∀ user hasher tr S,
    Lts.Run ConnStep (.start user hasher) tr S → S.RoomsJoined := by
  intro h
  obtain ⟨tr, hrun⟩ := run_joinedConn "u" String.length "r"
  let S := joinedConn "u" String.length "r"
  let lost : Client := lostClient ["r"]
  have herror : ConnStep S (.client .onSocketError) { S with connected := false, client := lost } :=
    .onSocketError (c := lost) rfl rfl
  have hconnect : ConnStep { S with connected := false, client := lost } (.client .onReconnectTimer)
      { S with connected := false, client := connectingClient true, sent := [] } :=
    .onReconnectTimer (c := connectingClient true) rfl rfl rfl
  obtain ⟨tr', honline⟩ := run_online
    { S with connected := false, client := connectingClient true, sent := [] } true rfl
  have hend := ((hrun.of_only.snoc herror).snoc hconnect).trans honline.of_only
  have hr : "r" ∈ S.node.rooms := by
    simp [S, joinedConn, Node.joinRoom, Node.joinRoomWS, Node.new]
  exact List.not_mem_nil ((h _ _ _ _ hend rfl rfl "r").mpr hr)

end Yamb
