import Mathlib.Data.Rat.Defs
import Yamb.Lib.Json.Members
import Yamb.Symple.Model

/-!
# Presences of the signaller

What the signaller makes of an announcement and of the messages of a socket that has announced itself.

* `truthy`, `extend`: what `symple.js` uses of JavaScript;
* `Peer.toPeer`, `Peer.toPresence`: `peer.js`; `authorize`, `routed`, `announceResponse`,
  `Peer.onMessage`, `Peer.roomPresence`, `Peer.onDisconnect`: `symple.js`, with anonymous access;
* `Session`, `SignallerStep`: the sockets, and what is sent for them;
* `Genuine`: a presence with the id and the user of a socket that has announced itself, and online;
  **`SignallerStep.keeps`**: only such presences are sent, whatever the sockets announce and send.

A request with a member under the name of a method of `Peer` ends in an error when that method is
called; such requests are left out.
-/

set_option autoImplicit false

namespace Yamb.Symple

open Json (Members)
open Json.Members

/-- The values of JSON. -/
abbrev Value : Type := Json String ℚ

/-- An object. -/
abbrev Object : Type := Members String ℚ

/-- What `if` and `||` take to be true. -/
def truthy : Option Value → Bool
  | none => false
  | some .null => false
  | some (.bool b) => b
  | some (.num n) => n ≠ 0
  | some (.str s) => s ≠ ""
  | some (.arr _) => true
  | some (.obj _) => true

/-- `origin[key] = add[key]`, from the last key to the first. -/
def extend (origin add : Object) : Object := origin.putAll add.reverse

/-- How values are turned into strings. -/
structure Format where
  text : Option Value → String

/-! ### `peer.js` -/

/-- A peer has the members that it was made with. -/
structure Peer where
  members : Object

namespace Peer

/-- `new Peer(args)`, which reads `args`. -/
def new (args : Object) : Peer := ⟨Members.putAll [] args⟩

def get (peer : Peer) (key : String) : Option Value := peer.members.get key

def put (peer : Peer) (key : String) (v : Value) : Peer := ⟨peer.members.put key v⟩

/-- An array keeps the members to itself; `null` cannot take them. -/
def toPeer (peer : Peer) : Option Value → Option Value
  | some .null => none
  | some (.arr items) => some (.arr items)
  | some (.obj ms) => some (.obj (Members.putAll ms peer.members))
  | _ => some (.obj (Members.putAll [] peer.members))

def address (fmt : Format) (peer : Peer) : String :=
  fmt.text (peer.get "user") ++ "|" ++ fmt.text (peer.get "id")

def valid (peer : Peer) : Bool := truthy (peer.get "id") && truthy (peer.get "user")

/-- `if (typeof p.data.token === 'string') delete p.data.token`. -/
def removeToken : Value → Value
  | .obj ms =>
    match Members.get ms "token" with
    | some (.str _) => .obj (Members.erase ms "token")
    | _ => .obj ms
  | data => data

/-- Allow the peer to change name. -/
def rename (peer : Peer) (p : Object) : Peer :=
  match p.get "name" with
  | some (.str name) => peer.put "name" (.str name)
  | _ => peer

/-- The presence, and the peer with its new name. -/
def toPresence (fmt : Format) (peer : Peer) (p : Object) : Option (Object × Peer) := do
  let p := p.put "type" (.str "presence")
  let data ← peer.toPeer (p.get "data")
  let p := p.put "data" data
  let p := if truthy (p.get "from") then p else p.put "from" (.str (peer.address fmt))
  let p := p.put "data" (removeToken data)
  pure (p, peer.rename p)

end Peer

/-! ### `symple.js` -/

/-- `data.name || data.user`. -/
def nameOf (data : Object) : Value :=
  if truthy (data.get "name") then (data.get "name").getD .null else (data.get "user").getD .null

/-- What a request is extended with. -/
def granted (rtmpUrls host : Value) (socket : SocketId) (req : Object) : Object :=
  [("id", .str socket), ("online", .bool true), ("rtmpUrls", rtmpUrls), ("name", nameOf req),
    ("host", host)]

def authorizeValidPeer (rtmpUrls host : Value) (socket : SocketId) (req : Object) : Option Peer :=
  let peer := Peer.new (extend req (granted rtmpUrls host socket req))
  if peer.valid then some (peer.put "connects" (.arr [])) else none

/-- The peer of a socket, or none with status 401. -/
def authorize (rtmpUrls host : Value) (socket : SocketId) (req : Object) : Option Peer :=
  if ¬ truthy (req.get "user") then none else authorizeValidPeer rtmpUrls host socket req

/-- What is acknowledged: the peer with the ICE servers, or what it has for a member `data`. -/
def announceResponse (fmt : Format) (iceServers : Value) (peer : Peer) : Object :=
  let d := Members.put (Members.putAll [] peer.members) "iceServers" iceServers
  [("type", .str "response"), ("status", .num 200),
    ("message", .str ("Welcome " ++ fmt.text (peer.get "name"))),
    ("data", if truthy (d.get "data") then (d.get "data").getD .null else .obj d)]

/-- Whether `broadcast` sends the message: it has a sender, and it is for somebody. -/
def routed (m : Object) : Bool :=
  truthy (m.get "from") && match m.get "to" with
    | some (.str _) => true
    | some (.arr _) => true
    | _ => false

/-- `m.type == "presence"`: an array is compared by its text. -/
def isPresence : Value → Bool
  | .str s => s = "presence"
  | .arr [v] => isPresence v
  | _ => false

/-- What is sent for a message of a socket. -/
def Peer.onMessage (fmt : Format) (peer : Peer) (m : Object) : Option (List Object × Peer) :=
  (if (m.get "type").elim false isPresence then peer.toPresence fmt m else some (m, peer)).map
    fun (m, peer) => (if routed m then [m] else [], peer)

/-- The presence that is sent in a room when a socket joins it, and when a neighbour is replaced. -/
def Peer.roomPresence (fmt : Format) (peer : Peer) (room : Value) : Option Object :=
  (peer.toPresence fmt []).map fun (p, _) => p.put "roomId" room

/-- The peer goes offline, and its presence is handed to `broadcast`. -/
def Peer.onDisconnect (fmt : Format) (peer : Peer) : Option (List Object × Peer) :=
  if truthy (peer.get "online") then
    ((peer.put "online" (.bool false)).toPresence fmt []).map
      fun (p, peer) => (if routed p then [p] else [], peer)
  else some ([], peer)

/-! ### Sockets -/

/-- A socket that was connected: its peer, once it has announced itself, and whether it still is. -/
structure Session where
  peer : Option Peer
  connected : Bool

/-- The sessions, and what has been sent to any socket. -/
structure Signaller where
  sessions : SocketId → Option Session
  sent : List Object

namespace Signaller

def new : Signaller := ⟨fun _ => none, []⟩

def set (sig : Signaller) (socket : SocketId) (session : Session) : Signaller :=
  { sig with sessions := Function.update sig.sessions socket (some session) }

theorem sessions_set (sig : Signaller) (socket other : SocketId) (session : Session) :
    (sig.set socket session).sessions other =
      if other = socket then some session else sig.sessions other :=
  Function.update_apply ..

def send (sig : Signaller) (ms : List Object) : Signaller := { sig with sent := ms ++ sig.sent }

end Signaller

/-- What sockets do. `boot`: it has not announced itself in time, or was refused; `presence`: it joins
a room, or gets a new neighbour. -/
inductive SignallerEvent
  | connect (socket : SocketId)
  | boot (socket : SocketId)
  | announce (socket : SocketId) (req : Object)
  | message (socket : SocketId) (m : Object)
  | presence (socket : SocketId) (room : Value)
  | disconnect (socket : SocketId)

/-- What the environment of the signaller contributes; the ids of sockets are of one length. -/
structure Config extends Format where
  rtmpUrls : Value
  host : SocketId → Value
  idLength : ℕ
  idLength_pos : 0 < idLength

/-- The names that `peer.js` calls methods by. -/
def methods : List String :=
  ["read", "write", "toPresence", "toPeer", "address", "valid", "hasOwnProperty", "__proto__"]

/-- An object of different names, none of them that of a method. -/
def Plain (req : Object) : Prop := (req.map Prod.fst).Nodup ∧ ∀ m ∈ req, m.1 ∉ methods

inductive SignallerStep (cfg : Config) : Signaller → SignallerEvent → Signaller → Prop
  | connect {sig : Signaller} {socket : SocketId} (hnew : sig.sessions socket = none)
      (hlen : socket.length = cfg.idLength) :
      SignallerStep cfg sig (.connect socket) (sig.set socket ⟨none, true⟩)
  | boot {sig : Signaller} {socket : SocketId} (h : sig.sessions socket = some ⟨none, true⟩) :
      SignallerStep cfg sig (.boot socket) (sig.set socket ⟨none, false⟩)
  | announce {sig : Signaller} {socket : SocketId} {old : Option Peer} {req : Object}
      {peer : Peer} (h : sig.sessions socket = some ⟨old, true⟩) (hreq : Plain req)
      (hpeer : authorize cfg.rtmpUrls (cfg.host socket) socket req = some peer) :
      SignallerStep cfg sig (.announce socket req) (sig.set socket ⟨some peer, true⟩)
  | message {sig : Signaller} {socket : SocketId} {peer peer' : Peer} {m : Object}
      {ms : List Object} (h : sig.sessions socket = some ⟨some peer, true⟩)
      (hm : peer.onMessage cfg.toFormat m = some (ms, peer')) :
      SignallerStep cfg sig (.message socket m) ((sig.set socket ⟨some peer', true⟩).send ms)
  | presence {sig : Signaller} {socket : SocketId} {peer : Peer} {connected : Bool}
      {room : Value} {p : Object} (h : sig.sessions socket = some ⟨some peer, connected⟩)
      (hp : peer.roomPresence cfg.toFormat room = some p) :
      SignallerStep cfg sig (.presence socket room)
        (sig.send (if connected && truthy (some room) then [p] else []))
  | disconnect {sig : Signaller} {socket : SocketId} {peer peer' : Peer} {ms : List Object}
      (h : sig.sessions socket = some ⟨some peer, true⟩)
      (hp : peer.onDisconnect cfg.toFormat = some (ms, peer')) :
      SignallerStep cfg sig (.disconnect socket) ((sig.set socket ⟨some peer', false⟩).send ms)

/-! ### What is sent -/

/-- The socket has announced itself with this user. -/
def Announces (tr : List SignallerEvent) (socket : SocketId) (user : Value) : Prop :=
  ∃ req, .announce socket req ∈ tr ∧ req.get "user" = some user

/-- The members of an object that a socket has for its peer. -/
structure Describes (tr : List SignallerEvent) (socket : SocketId) (ms : Object) : Prop where
  id : Only ms "id" (.str socket)
  user : ∃ user, Announces tr socket user ∧ Only ms "user" user

/-- A message that says to be a presence, and has data that can be read, says who is online. -/
def Genuine (tr : List SignallerEvent) (m : Object) : Prop :=
  m.get "type" = some (.str "presence") → ∀ ms, m.get "data" = some (.obj ms) →
    ∃ socket, Describes tr socket ms ∧ Only ms "online" (.bool true)

/-- What holds of the signaller after the events of a trace. -/
structure Faithful (cfg : Config) (tr : List SignallerEvent) (sig : Signaller) : Prop where
  length : ∀ {socket session}, sig.sessions socket = some session → socket.length = cfg.idLength
  peer : ∀ {socket peer connected}, sig.sessions socket = some ⟨some peer, connected⟩ →
    Describes tr socket peer.members
  online : ∀ {socket peer}, sig.sessions socket = some ⟨some peer, true⟩ →
    Only peer.members "online" (.bool true)
  sent : ∀ m ∈ sig.sent, Genuine tr m
  announces : ∀ {socket user}, Announces tr socket user → socket.length = cfg.idLength

variable {cfg : Config} {fmt : Format} {tr tr' : List SignallerEvent} {sig sig' : Signaller}
  {socket : SocketId} {ms p q req : Object} {peer peer' : Peer} {k : String} {v : Value}
  {e : SignallerEvent}

theorem Announces.mono (h : Announces tr socket v) (hsub : tr ⊆ tr') : Announces tr' socket v := by
  obtain ⟨req, hmem, huser⟩ := h
  exact ⟨req, hsub hmem, huser⟩

theorem Describes.mono (h : Describes tr socket ms) (hsub : tr ⊆ tr') : Describes tr' socket ms := by
  obtain ⟨user, hannounces, honly⟩ := h.user
  exact ⟨h.id, user, hannounces.mono hsub, honly⟩

theorem Genuine.mono (h : Genuine tr p) (hsub : tr ⊆ tr') : Genuine tr' p := fun htype ms hms => by
  obtain ⟨socket, hdescribes, honline⟩ := h htype ms hms
  exact ⟨socket, hdescribes.mono hsub, honline⟩

/-- What a peer has under another name is kept by a change. -/
theorem Describes.put (h : Describes tr socket ms) (hid : "id" ≠ k) (huser : "user" ≠ k)
    (v : Value) : Describes tr socket (ms.put k v) := by
  obtain ⟨user, hannounces, honly⟩ := h.user
  exact ⟨h.id.put hid v, user, hannounces, honly.put huser v⟩

theorem Peer.rename_eq (peer : Peer) (p : Object) :
    peer.rename p = peer ∨ ∃ v, peer.rename p = peer.put "name" v := by
  unfold Peer.rename
  split
  · exact .inr ⟨_, rfl⟩
  · exact .inl rfl

theorem Peer.rename_keeps (h : Only peer.members k v) (hk : k ≠ "name") (p : Object) :
    Only (peer.rename p).members k v := by
  rcases peer.rename_eq p with heq | ⟨w, heq⟩
  · rw [heq]
    exact h
  · rw [heq]
    exact h.put hk w

theorem Describes.rename (h : Describes tr socket peer.members) (p : Object) :
    Describes tr socket (peer.rename p).members := by
  obtain ⟨user, hannounces, honly⟩ := h.user
  exact ⟨peer.rename_keeps h.id (by decide) p, user, hannounces,
    peer.rename_keeps honly (by decide) p⟩

/-- The data of a presence have what the peer has, but for a token. -/
theorem Peer.toPeer_keeps {data : Option Value} {d : Value} (hd : peer.toPeer data = some d)
    (hms : Peer.removeToken d = .obj ms) (h : Only peer.members k v) (hk : k ≠ "token") :
    Only ms k v := by
  have hobj : ∀ base : Object, Only (base.putAll peer.members) k v := h.putAll
  obtain ⟨base, rfl⟩ : ∃ base : Object, d = .obj (base.putAll peer.members) := by
    unfold Peer.toPeer at hd
    split at hd
    · cases hd
    · obtain rfl := Option.some.inj hd
      cases hms
    · exact ⟨_, (Option.some.inj hd).symm⟩
    · exact ⟨_, (Option.some.inj hd).symm⟩
  unfold Peer.removeToken at hms
  split at hms
  · rename_i heq
    obtain rfl := Json.obj.inj heq
    split at hms
    · obtain rfl := Json.obj.inj hms
      exact (hobj base).erase hk
    · obtain rfl := Json.obj.inj hms
      exact hobj base
  · rename_i hne
    exact absurd rfl (hne _)

/-- A presence has the type and the data of one; whom it is for does not change. -/
theorem Peer.toPresence_eq_some (h : peer.toPresence fmt p = some (q, peer')) :
    q.get "type" = some (.str "presence") ∧ q.get "to" = p.get "to" ∧
      (∃ data d, peer.toPeer data = some d ∧ q.get "data" = some (removeToken d)) ∧
      ∃ p', peer' = peer.rename p' := by
  obtain ⟨d, hd, hq⟩ := Option.bind_eq_some_iff.mp h
  obtain ⟨rfl, rfl⟩ := Prod.mk.inj (Option.some.inj hq)
  refine ⟨?_, ?_, ⟨_, d, hd, get_put_self _ _ _⟩, _, rfl⟩
  · rw [get_put_of_ne _ _ (by decide)]
    split_ifs
    · rw [get_put_of_ne _ _ (by decide), get_put_self]
    · rw [get_put_of_ne _ _ (by decide), get_put_of_ne _ _ (by decide), get_put_self]
  · rw [get_put_of_ne _ _ (by decide)]
    split_ifs
    · rw [get_put_of_ne _ _ (by decide), get_put_of_ne _ _ (by decide)]
    · rw [get_put_of_ne _ _ (by decide), get_put_of_ne _ _ (by decide), get_put_of_ne _ _ (by decide)]

/-- The data of a presence describe the socket whose peer it is made of. -/
theorem Peer.toPresence_genuine (h : peer.toPresence fmt p = some (q, peer'))
    (hpeer : Describes tr socket peer.members)
    (honline : Only peer.members "online" (.bool true)) : Genuine tr q := by
  obtain ⟨-, -, ⟨data, d, hd, hq⟩, -⟩ := Peer.toPresence_eq_some h
  intro _ ms hms
  obtain ⟨user, hannounces, huser⟩ := hpeer.user
  have hms' : Peer.removeToken d = .obj ms := Option.some.inj (hq.symm.trans hms)
  exact ⟨socket, ⟨toPeer_keeps hd hms' hpeer.id (by decide), user, hannounces,
    toPeer_keeps hd hms' huser (by decide)⟩, toPeer_keeps hd hms' honline (by decide)⟩

/-- Without a receiver, nothing is sent. -/
theorem not_routed_of_get_eq_none (h : p.get "to" = none) : routed p = false := by
  rw [routed, h, Bool.and_false]

theorem authorize_eq_some {rtmpUrls host : Value} (hreq : Plain req)
    (h : authorize rtmpUrls host socket req = some peer) :
    Only peer.members "id" (.str socket) ∧ Only peer.members "online" (.bool true) ∧
      ∃ user, req.get "user" = some user ∧ Only peer.members "user" user := by
  unfold authorize authorizeValidPeer at h
  dsimp only at h
  split_ifs at h with huser
  obtain rfl := Option.some.inj h
  obtain ⟨user, hget⟩ : ∃ user, req.get "user" = some user := by
    cases hget : req.get "user" with
    | none => rw [hget] at huser; cases huser
    | some user => exact ⟨user, rfl⟩
  have hnames : ((granted rtmpUrls host socket req).reverse.map Prod.fst) =
      ["host", "name", "rtmpUrls", "online", "id"] := rfl
  have hgranted : ∀ {k v}, Members.get (granted rtmpUrls host socket req).reverse k = some v →
      Only (granted rtmpUrls host socket req).reverse k v :=
    only_of_get (by rw [hnames]; decide)
  refine ⟨Only.put (((hgranted rfl).putAll req).putAll []) (by decide) _,
    Only.put (((hgranted rfl).putAll req).putAll []) (by decide) _, user, hget,
    Only.put (((only_of_get hreq.1 hget).putAll_of_not_mem fun m hm hk => ?_).putAll []) (by decide) _⟩
  have hmem : "user" ∈ (granted rtmpUrls host socket req).reverse.map Prod.fst :=
    List.mem_map.mpr ⟨m, hm, hk⟩
  rw [hnames] at hmem
  revert hmem
  decide

/-- What is sent for a message of a socket that is online is genuine. -/
theorem Peer.onMessage_eq_some {sent : List Object} (h : peer.onMessage fmt p = some (sent, peer'))
    (hpeer : Describes tr socket peer.members)
    (honline : Only peer.members "online" (.bool true)) :
    (∀ m ∈ sent, Genuine tr m) ∧ ∃ p', peer' = peer.rename p' ∨ peer' = peer := by
  obtain ⟨⟨m, peer₁⟩, hm, hsent⟩ := Option.map_eq_some_iff.mp h
  obtain ⟨rfl, rfl⟩ := Prod.mk.inj hsent
  have hgenuine : Genuine tr m ∧ ∃ p', peer₁ = peer.rename p' ∨ peer₁ = peer := by
    split_ifs at hm with htype
    · obtain ⟨-, -, -, p', hp'⟩ := Peer.toPresence_eq_some hm
      exact ⟨Peer.toPresence_genuine hm hpeer honline, p', .inl hp'⟩
    · obtain ⟨rfl, rfl⟩ := Prod.mk.inj (Option.some.inj hm)
      refine ⟨fun hpresence => absurd ?_ htype, [], .inr rfl⟩
      rw [hpresence]
      rfl
  refine ⟨fun m' hm' => ?_, hgenuine.2⟩
  split_ifs at hm'
  · exact List.mem_singleton.mp hm' ▸ hgenuine.1
  · exact (List.not_mem_nil hm').elim

/-- Nothing is sent for a socket that goes. -/
theorem Peer.onDisconnect_eq_some {sent : List Object} (h : peer.onDisconnect fmt = some (sent, peer')) :
    sent = [] ∧ ∃ p', peer' = (peer.put "online" (.bool false)).rename p' ∨ peer' = peer := by
  unfold Peer.onDisconnect at h
  split_ifs at h with honline
  · obtain ⟨⟨p, peer₁⟩, hp, hsent⟩ := Option.map_eq_some_iff.mp h
    obtain ⟨rfl, rfl⟩ := Prod.mk.inj hsent
    obtain ⟨-, hto, -, p', hp'⟩ := Peer.toPresence_eq_some hp
    refine ⟨if_neg ?_, p', .inl hp'⟩
    rw [not_routed_of_get_eq_none hto]
    exact Bool.false_ne_true
  · obtain ⟨rfl, rfl⟩ := Prod.mk.inj (Option.some.inj h)
    exact ⟨rfl, [], .inr rfl⟩

theorem Announces.of_append (h : Announces (tr ++ [e]) socket v) :
    Announces tr socket v ∨ ∃ req, e = .announce socket req := by
  obtain ⟨req, hmem, hget⟩ := h
  rcases List.mem_append.mp hmem with hmem | hmem
  · exact .inl ⟨req, hmem, hget⟩
  · exact .inr ⟨req, (List.mem_singleton.mp hmem).symm⟩

/-- One session is replaced, and messages are sent. -/
theorem Faithful.set_send {session : Session} {sent : List Object} (h : Faithful cfg tr sig)
    (hsub : tr ⊆ tr') (hlen : socket.length = cfg.idLength)
    (hannounces : ∀ {other user}, Announces tr' other user → Announces tr other user ∨ other = socket)
    (hpeer : ∀ {peer}, session.peer = some peer → Describes tr' socket peer.members)
    (honline : ∀ {peer}, session.peer = some peer → session.connected →
      Only peer.members "online" (.bool true))
    (hsent : ∀ m ∈ sent, Genuine tr' m) : Faithful cfg tr' ((sig.set socket session).send sent) := by
  have hget : ∀ other session', ((sig.set socket session).send sent).sessions other = some session' →
      (other = socket ∧ session = session') ∨ sig.sessions other = some session' := by
    intro other session' hother
    have hset : ((sig.set socket session).send sent).sessions other =
        if other = socket then some session else sig.sessions other := sig.sessions_set ..
    rw [hset] at hother
    split_ifs at hother with hsocket
    · exact .inl ⟨hsocket, Option.some.inj hother⟩
    · exact .inr hother
  refine ⟨fun hother => ?_, fun hother => ?_, fun hother => ?_, fun m hm => ?_, fun hother => ?_⟩
  · rcases hget _ _ hother with ⟨rfl, -⟩ | hold
    · exact hlen
    · exact h.length hold
  · rcases hget _ _ hother with ⟨rfl, hsession⟩ | hold
    · exact hpeer (congrArg Session.peer hsession)
    · exact (h.peer hold).mono hsub
  · rcases hget _ _ hother with ⟨rfl, hsession⟩ | hold
    · exact honline (congrArg Session.peer hsession) (congrArg Session.connected hsession)
    · exact h.online hold
  · rcases List.mem_append.mp hm with hm | hm
    · exact hsent m hm
    · exact (h.sent m hm).mono hsub
  · rcases hannounces hother with hold | rfl
    · exact h.announces hold
    · exact hlen

theorem Faithful.set {session : Session} (h : Faithful cfg tr sig) (hsub : tr ⊆ tr')
    (hlen : socket.length = cfg.idLength)
    (hannounces : ∀ {other user}, Announces tr' other user → Announces tr other user ∨ other = socket)
    (hpeer : ∀ {peer}, session.peer = some peer → Describes tr' socket peer.members)
    (honline : ∀ {peer}, session.peer = some peer → session.connected →
      Only peer.members "online" (.bool true)) : Faithful cfg tr' (sig.set socket session) := by
  show Faithful cfg tr' ((sig.set socket session).send [])
  exact h.set_send hsub hlen hannounces hpeer honline fun m hm => (List.not_mem_nil hm).elim

/-- **Only genuine presences are sent.** -/
theorem SignallerStep.keeps (h : Faithful cfg tr sig) (hstep : SignallerStep cfg sig e sig') :
    Faithful cfg (tr ++ [e]) sig' := by
  have hsub : tr ⊆ tr ++ [e] := List.subset_append_left _ _
  have hold : (∀ socket req, e ≠ .announce socket req) → ∀ {other user},
      Announces (tr ++ [e]) other user → Announces tr other user := fun hne _ _ hother =>
    hother.of_append.resolve_right fun ⟨req, he⟩ => hne _ req he
  cases hstep with
  | connect hnew hlen =>
    exact h.set hsub hlen (fun hother => .inl (hold (fun _ _ => nofun) hother))
      (fun h => by cases h) fun h => by cases h
  | boot hsession =>
    exact h.set hsub (h.length hsession) (fun hother => .inl (hold (fun _ _ => nofun) hother))
      (fun h => by cases h) fun h => by cases h
  | @announce socket _ req peer hsession hreq hpeer =>
    obtain ⟨hid, honline, user, hget, huser⟩ := authorize_eq_some hreq hpeer
    have hdescribes : Describes (tr ++ [.announce socket req]) socket peer.members :=
      ⟨hid, user, ⟨req, List.mem_append_right _ (List.mem_singleton_self _), hget⟩, huser⟩
    have hother : ∀ {other user'}, Announces (tr ++ [.announce socket req]) other user' →
        Announces tr other user' ∨ other = socket := fun hother =>
      hother.of_append.imp_right fun ⟨_, he⟩ => (SignallerEvent.announce.inj he).1.symm
    exact h.set hsub (h.length hsession) hother (fun h => Option.some.inj h ▸ hdescribes)
      fun h _ => Option.some.inj h ▸ honline
  | message hsession hm =>
    have hpeer := h.peer hsession
    have honline := h.online hsession
    obtain ⟨hsent, p', hp'⟩ := Peer.onMessage_eq_some hm hpeer honline
    refine h.set_send hsub (h.length hsession) (fun hother => .inl (hold (fun _ _ => nofun) hother))
      (fun hpeer' => ?_) (fun hpeer' _ => ?_)
      fun m hm => (hsent m hm).mono hsub
    · obtain rfl := Option.some.inj hpeer'
      rcases hp' with rfl | rfl
      · exact (hpeer.rename p').mono hsub
      · exact hpeer.mono hsub
    · obtain rfl := Option.some.inj hpeer'
      rcases hp' with rfl | rfl
      · exact Peer.rename_keeps honline (by decide) p'
      · exact honline
  | @presence socket peer connected room p hsession hp =>
    refine ⟨h.length, fun hother => (h.peer hother).mono hsub, h.online, fun m hmem => ?_,
      fun hother => h.announces (hold (fun _ _ => nofun) hother)⟩
    rcases List.mem_append.mp hmem with hm | hm
    · split_ifs at hm with hconnected
      · obtain rfl : connected = true := (Bool.and_eq_true_iff.mp hconnected).1
        obtain rfl : m = p := List.mem_singleton.mp hm
        obtain ⟨⟨q, peer'⟩, hq, rfl⟩ := Option.map_eq_some_iff.mp hp
        have hgenuine := Peer.toPresence_genuine hq (h.peer hsession) (h.online hsession)
        intro htype ms hms
        rw [get_put_of_ne _ _ (by decide)] at htype hms
        exact hgenuine.mono hsub htype ms hms
      · exact (List.not_mem_nil hm).elim
    · exact (h.sent m hm).mono hsub
  | disconnect hsession hp =>
    obtain ⟨rfl, p', hp'⟩ := Peer.onDisconnect_eq_some hp
    have hpeer := h.peer hsession
    refine h.set hsub (h.length hsession) (fun hother => .inl (hold (fun _ _ => nofun) hother))
      (fun hpeer' => ?_) fun _ h => by cases h
    obtain rfl := Option.some.inj hpeer'
    rcases hp' with rfl | rfl
    · exact (Describes.rename (hpeer.put (by decide) (by decide) _) p').mono hsub
    · exact hpeer.mono hsub

theorem Faithful.new : Faithful cfg [] .new where
  length h := by cases h
  peer h := by cases h
  online h := by cases h
  sent _ hm := (List.not_mem_nil hm).elim
  announces h := by
    obtain ⟨req, hreq, -⟩ := h
    exact (List.not_mem_nil hreq).elim

end Yamb.Symple
