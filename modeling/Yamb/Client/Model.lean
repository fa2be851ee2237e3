import Yamb.Node.Types

/-!
# The client of the signaller

The `smpl::Client` of a node with the `sockio::Client` below it, as far as joining rooms and
reconnecting go. Host, port and user are set and reconnection is enabled; the ping timers have no
part in reconnecting and are left out.

* `Timer`: `timer.cpp`, for a timer without an interval;
* `Client.reset`, `connect`, `close`, `setError`, `startReconnectTimer`, `stopReconnectTimer`,
  `onConnect`, `onOnline`, `onReconnectTimer`: `socketio/client.cpp`, under the overrides of
  `symple/client.cpp`;
* `Client.joinRoom`, `Client.leaveRoom`, `Client.onAnnounceState`: `symple/client.cpp`;
* `ClientEvent`, `Client.handle`: what sets off one of these.
-/

set_option autoImplicit false

namespace Yamb

inductive ClientState
  | closed | connecting | connected | online | error
  deriving DecidableEq

/-- The asserts: `!active()` of a timer, `handshakeComplete()` of the web socket, those of
`onOnline`. -/
inductive ClientAssert
  | timerActive | handshakeIncomplete | notConnected | noPing
  deriving DecidableEq

/-- Whether a timer runs, and whether the one slot is attached to its `Timeout`. -/
structure Timer where
  active : Bool
  attached : Bool
  deriving DecidableEq

namespace Timer

/-- A slot is attached once. -/
def attach (t : Timer) : Timer := { t with attached := true }

def detach (t : Timer) : Timer := { t with attached := false }

def stop (t : Timer) : Timer := { t with active := false }

def setTimeout (t : Timer) : Except ClientAssert Timer :=
  if t.active then .error .timerActive else .ok t

def start (t : Timer) : Except ClientAssert Timer :=
  if t.active then .error .timerActive else .ok { t with active := true }

end Timer

/-- `handshakeComplete` is that of the web socket. -/
structure Client where
  state : ClientState
  handshakeComplete : Bool
  sessionID : String
  pingInterval : ℤ
  pingTimeout : ℤ
  announceStatus : ℤ
  ourID : String
  rooms : List RoomId
  reconnectTimer : Timer
  reconnecting : Bool
  wasOnline : Bool
  deriving DecidableEq

/-- The answer to `announce`: a missing id, and whether `onPresenceData` accepts the rest. -/
structure AnnounceResponse where
  status : ℤ
  id : Option String
  presence : Bool
  deriving DecidableEq

namespace Client

/-- `Client::Client`. -/
def new : Client where
  state := .closed
  handshakeComplete := false
  sessionID := ""
  pingInterval := 0
  pingTimeout := 0
  announceStatus := 0
  ourID := ""
  rooms := []
  reconnectTimer := ⟨false, false⟩
  reconnecting := false
  wasOnline := false

/-- The override clears the rooms and what the announcement has brought, then the session, the
timers and the socket are reset. `_reconnecting` stays. -/
def reset (c : Client) : Client :=
  { c with
    rooms := []
    announceStatus := 0
    ourID := ""
    reconnectTimer := c.reconnectTimer.detach.stop
    handshakeComplete := false
    sessionID := ""
    pingInterval := 0
    pingTimeout := 0 }

def connect (c : Client) : Client := { c.reset with state := .connecting }

def startReconnectTimer (c : Client) : Except ClientAssert Client := do
  let t ← c.reconnectTimer.attach.setTimeout
  let t ← t.start
  return { c with
    reconnectTimer := t
    reconnecting := true }

def stopReconnectTimer (c : Client) : Client :=
  if c.reconnecting then
    { c with
      reconnectTimer := c.reconnectTimer.detach.stop
      reconnecting := false }
  else c

def setError (c : Client) : Except ClientAssert Client :=
  startReconnectTimer { c with
    wasOnline := c.wasOnline || decide (c.state = .online)
    state := .error }

def onConnect (c : Client) : Client := stopReconnectTimer { c with state := .connected }

def onClose (c : Client) : Client :=
  { c.stopReconnectTimer with
    state := .closed
    wasOnline := false }

def close (c : Client) : Client := if c.sessionID = "" then c else c.reset.onClose

def onHandshake (c : Client) (sid : Option String) (pingInterval pingTimeout : Option ℤ) : Client :=
  { c with
    sessionID := sid.getD c.sessionID
    pingInterval := pingInterval.getD c.pingInterval
    pingTimeout := pingTimeout.getD c.pingTimeout }

/-- Whatever is sent goes through the web socket. -/
def send (c : Client) : Except ClientAssert Client :=
  if c.handshakeComplete then .ok c else .error .handshakeIncomplete

/-- Without a successful announcement, one is sent. -/
def onOnline (c : Client) : Except ClientAssert Client :=
  if c.announceStatus = 0 then c.send
  else if c.state ≠ .connected then .error .notConnected
  else if c.pingInterval = 0 ∨ c.pingTimeout = 0 then .error .noPing
  else .ok { c with state := .online }

/-- The transaction of `announce` has failed, or brought something that cannot be read; else it has
brought `response`. -/
def onAnnounceState (c : Client) (response : Option AnnounceResponse) : Except ClientAssert Client :=
  match response with
  | none => c.setError
  | some r =>
    let c := { c with announceStatus := r.status }
    if r.status ≠ 200 then c.setError
    else
      match r.id with
      | none => c.setError
      | some id =>
        let c := { c with ourID := id }
        if id = "" ∨ ¬ r.presence then c.setError else c.onOnline

/-- `TCPSocket::onError` closes the socket after the callback. -/
def onSocketError (c : Client) : Except ClientAssert Client := do
  let c ← c.setError
  return { c with handshakeComplete := false }

/-- The timer expires: without an interval it has stopped by then, and `again` does nothing. -/
def onReconnectTimer (c : Client) : Client :=
  let t := c.reconnectTimer.stop
  if t.attached then connect { c with reconnectTimer := t } else { c with reconnectTimer := t }

def joinRoom (c : Client) (room : RoomId) : Except ClientAssert Client :=
  send { c with rooms := c.rooms ++ [room] }

def leaveRoom (c : Client) (room : RoomId) : Except ClientAssert Client :=
  send { c with rooms := c.rooms.filter fun x => x ≠ room }

end Client

/-- `onSocketConnect` comes when the handshake of the web socket is complete; `onConnectPacket` is
the `Connect` packet of Socket.IO. -/
inductive ClientEvent
  | connect
  | onSocketConnect
  | onHandshake (sid : Option String) (pingInterval pingTimeout : Option ℤ)
  | onConnectPacket
  | onAnnounceState (response : Option AnnounceResponse)
  | onSocketError
  | onReconnectTimer
  | close
  deriving DecidableEq

def Client.handle (c : Client) : ClientEvent → Except ClientAssert Client
  | .connect => .ok c.connect
  | .onSocketConnect => .ok (onConnect { c with handshakeComplete := true })
  | .onHandshake sid pingInterval pingTimeout => .ok (c.onHandshake sid pingInterval pingTimeout)
  | .onConnectPacket => c.onOnline
  | .onAnnounceState response => c.onAnnounceState response
  | .onSocketError => c.onSocketError
  | .onReconnectTimer => .ok c.onReconnectTimer
  | .close => .ok c.close

end Yamb
