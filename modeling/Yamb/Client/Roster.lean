import Yamb.Lib.Op
import Yamb.Symple.Presence

/-!
# The roster of a client

The peers that a `smpl::Client` knows of, next to a signaller whose other sockets may announce and
send what they like.

* `onPresenceData`, `onPresence`, `onAnnounceState`, `reset`: `symple/client.cpp`, as far as the
  roster and the id of the client go;
* `World`, `WorldStep`: the client with its socket, and the signaller;
* `RosterEntry`: a peer of the roster with the user that a socket has announced;
* **`run_roster`**: in every run all peers of the roster are such entries, none ever disconnects, and
  the client has its own peer as long as it has an id.
-/

set_option autoImplicit false

namespace Yamb

open Json (Members)
open Json.Members
open Symple

/-- What the slots of a client get. -/
inductive PeerSignal
  | connected (peer : Object) (msg : Object)
  | disconnected (peer : Object) (msg : Object)

/-- A value of another type, what `onPresenceData` and `onAnnounceState` throw, and the assert of
`createPresence`. -/
inductive PresenceError
  | typeError | badPresence | announceFailed | noPeer
  deriving DecidableEq

/-- The id of a client, its roster, and what has been emitted. -/
structure RosterClient where
  ourID : String
  roster : PointerCollection Object
  signals : List PeerSignal

abbrev RosterOp (α : Type) : Type := Op RosterClient PresenceError α

/-- `get<std::string>()`. -/
def getText : Option Value → Except PresenceError String
  | some (.str s) => .ok s
  | _ => .error .typeError

/-- `value(key, "")`. -/
def textOr : Option Value → Except PresenceError String
  | none => .ok ""
  | some v => getText (some v)

/-- `get<bool>()`. -/
def getFlag : Option Value → Except PresenceError Bool
  | some (.bool b) => .ok b
  | _ => .error .typeError

/-- `Peer::address`. -/
def peerAddress (peer : Object) : Except PresenceError Address := do
  let user ← textOr (peer.get "user")
  let id ← textOr (peer.get "id")
  pure ⟨user, id⟩

namespace RosterClient

def emit (signal : PeerSignal) : RosterOp Unit :=
  .modify fun c => { c with signals := c.signals ++ [signal] }

/-- The peer's id, whether it is online, and its data; nothing when a part of it is missing. -/
def readPresenceData (msg : Object) : Except PresenceError (Option (String × Bool × Object)) :=
  match msg.get "data" with
  | some (.obj data) =>
    if (Members.get data "id").isSome ∧ (Members.get data "user").isSome ∧
        (Members.get data "name").isSome ∧ (Members.get data "online").isSome then do
      let id ← getText (Members.get data "id")
      let room ← textOr (msg.get "room")
      let online ← getFlag (Members.get data "online")
      pure (some (id ++ room, online, data))
    else .ok none
  | _ => .ok none

/-- A peer that is online is added once. -/
def updatePeer (msg : Object) (id : String) (online : Bool) (data : Object) : RosterOp Unit :=
  fun c => match online, c.roster[id]? with
  | true, none => (do
      let peer := (data.put "id" (.str id)).put "type" (.str "Peer")
      .modify fun c => { c with roster := c.roster.insert id peer }
      let _ ← .lift (peerAddress peer)
      emit (.connected peer msg) : RosterOp Unit) c
  | true, some peer => emit (.connected peer msg) c
  | false, some peer => (do
      let _ ← .lift (peerAddress peer)
      emit (.disconnected peer msg)
      .modify fun c => { c with roster := c.roster.erase id } : RosterOp Unit) c
  | false, none => (.ok (), c)

def onPresenceData (msg : Object) (whiny : Bool) : RosterOp Unit := do
  match ← .lift (readPresenceData msg) with
  | some (id, online, data) => updatePeer msg id online data
  | none => if whiny then .throw .badPresence else pure ()

/-- `createPresence` of `sendPresence`. -/
def createPresence : RosterOp Unit := fun c =>
  if c.ourID ≠ "" ∧ c.ourID ∈ c.roster then (.ok (), c) else (.error .noPeer, c)

/-- `value("probe", false)`. -/
def isProbe (msg : Object) : Except PresenceError Bool :=
  match msg.get "probe" with
  | none => .ok false
  | some v => getFlag (some v)

/-- The branch of `emit` for a presence. -/
def onPresence (msg : Object) : RosterOp Unit :=
  if (msg.get "data").isSome then do
    onPresenceData msg false
    if ← .lift (isProbe msg) then do
      let _ ← .lift (textOr (msg.get "from"))
      createPresence
  else pure ()

/-- `data["status"].get<int>() == 200`. -/
def accepted (response : Object) : Bool :=
  match response.get "status" with
  | some (.num n) => n = 200
  | _ => false

/-- The answer to `announce` is read, and a presence is sent. -/
def onAnnounceState (response : Object) : RosterOp Unit :=
  if ¬ accepted response then .throw .announceFailed
  else do
    let id ← .lift (getText ((response.get "data").bind (Json.find "id")))
    .modify fun c => { c with ourID := id }
    if id = "" then .throw .announceFailed
    else do
      onPresenceData response true
      createPresence

def reset (c : RosterClient) : RosterClient := { c with ourID := "", roster := ∅ }

end RosterClient

/-! ### The client next to the signaller -/

/-- What a client announces; a client has a user. -/
structure AnnounceOptions where
  user : String
  name : String
  type : String
  token : String
  user_ne : user ≠ ""

def AnnounceOptions.request (o : AnnounceOptions) : Object :=
  [("user", .str o.user), ("name", .str o.name), ("type", .str o.type), ("token", .str o.token)]

/-- A client, its socket, and the answer to `announce` that is on its way. -/
structure World where
  sig : Signaller
  socket : Option SocketId
  response : Option Object
  client : RosterClient

def World.new : World := ⟨.new, none, none, ⟨"", ∅, []⟩⟩

/-- What sockets do, and what the client does with its own. -/
inductive WorldEvent
  | signaller (e : SignallerEvent)
  | connect (socket : SocketId)
  | announce (socket : SocketId) (iceServers : Value)
  | onAnnounceState (response : Object)
  | onPresence (msg : Object)

def WorldEvent.toSignaller (o : AnnounceOptions) : WorldEvent → Option SignallerEvent
  | .signaller e => some e
  | .connect socket => some (.connect socket)
  | .announce socket _ => some (.announce socket o.request)
  | .onAnnounceState _ => none
  | .onPresence _ => none

/-- Presences that were sent arrive at the client, as often as one likes and in any order. -/
inductive WorldStep (cfg : Config) (o : AnnounceOptions) : World → WorldEvent → World → Prop
  | signaller {w : World} {sig : Signaller} {e : SignallerEvent}
      (h : SignallerStep cfg w.sig e sig) : WorldStep cfg o w (.signaller e) { w with sig := sig }
  | connect {w : World} {sig : Signaller} {socket : SocketId}
      (h : SignallerStep cfg w.sig (.connect socket) sig) :
      WorldStep cfg o w (.connect socket) ⟨sig, some socket, none, w.client.reset⟩
  | announce {w : World} {sig : Signaller} {socket : SocketId} {peer : Symple.Peer}
      {iceServers : Value}
      (hsocket : w.socket = some socket)
      (h : SignallerStep cfg w.sig (.announce socket o.request) sig)
      (hpeer : sig.sessions socket = some ⟨some peer, true⟩) :
      WorldStep cfg o w (.announce socket iceServers)
        { w with sig := sig, response := some (announceResponse cfg.toFormat iceServers peer) }
  | onAnnounceState {w : World} {response : Object} {client : RosterClient}
      {res : Except PresenceError Unit} (hresponse : w.response = some response)
      (h : RosterClient.onAnnounceState response w.client = (res, client))
      (hres : res ≠ .error .noPeer) :
      WorldStep cfg o w (.onAnnounceState response) { w with response := none, client := client }
  | onPresence {w : World} {msg : Object} {client : RosterClient} (hsocket : w.socket.isSome)
      (hsent : msg ∈ w.sig.sent) (htype : msg.get "type" = some (.str "presence"))
      (h : RosterClient.onPresence msg w.client = (.ok (), client)) :
      WorldStep cfg o w (.onPresence msg) { w with client := client }

/-! ### What is emitted and kept -/

/-- A peer under the id of a socket, with something behind it, and with the user that the socket has
announced. -/
def RosterEntry (cfg : Config) (tr : List SignallerEvent) (key : String) (peer : Object) : Prop :=
  ∃ socket room user, key = socket ++ room ∧ socket.length = cfg.idLength ∧
    Announces tr socket user ∧ peer.get "user" = some user ∧ peer.get "id" = some (.str key) ∧
      peer.get "online" = some (.bool true)

/-- The roster has entries only, and entries only have been emitted, as connected. -/
structure Authentic (cfg : Config) (tr : List SignallerEvent) (c : RosterClient) : Prop where
  roster : ∀ key peer, c.roster[key]? = some peer → RosterEntry cfg tr key peer
  signals : ∀ signal ∈ c.signals, ∃ key peer msg,
    signal = .connected peer msg ∧ RosterEntry cfg tr key peer

/-- What a client does with a presence: it may get a peer more, and emits entries. -/
structure Grows (cfg : Config) (tr : List SignallerEvent) (c c' : RosterClient) : Prop where
  ourID : c'.ourID = c.ourID
  roster : ∀ key ∈ c.roster, key ∈ c'.roster
  authentic : Authentic cfg tr c → Authentic cfg tr c'

/-- The data of a message, if there are any, describe a socket that is online. -/
def Describing (tr : List SignallerEvent) (msg : Object) : Prop :=
  ∀ ms, msg.get "data" = some (.obj ms) →
    ∃ socket, Describes tr socket ms ∧ Only ms "online" (.bool true)

variable {cfg : Config} {o : AnnounceOptions} {tr tr' : List SignallerEvent} {c c' : RosterClient}
  {msg data ms : Object} {id key : String} {peer : Object} {online whiny : Bool}
  {res : Except PresenceError Unit} {socket : SocketId} {w w' : World} {e : WorldEvent}
  {tr₀ : List WorldEvent}

theorem Grows.refl (c : RosterClient) : Grows cfg tr c c := ⟨rfl, fun _ h => h, fun h => h⟩

theorem RosterEntry.mono (h : RosterEntry cfg tr key peer) (hsub : tr ⊆ tr') :
    RosterEntry cfg tr' key peer := by
  obtain ⟨socket, room, user, hkey, hlen, hannounces, hpeer⟩ := h
  exact ⟨socket, room, user, hkey, hlen, hannounces.mono hsub, hpeer⟩

theorem Authentic.mono (h : Authentic cfg tr c) (hsub : tr ⊆ tr') : Authentic cfg tr' c :=
  ⟨fun key peer hpeer => (h.roster key peer hpeer).mono hsub, fun signal hsignal => by
    obtain ⟨key, peer, msg, heq, hentry⟩ := h.signals signal hsignal
    exact ⟨key, peer, msg, heq, hentry.mono hsub⟩⟩

/-- Data that describe a socket make an entry under its id. -/
theorem Symple.Describes.entry (h : Describes tr socket ms) (honline : Only ms "online" (.bool true))
    (hlen : ∀ {socket user}, Announces tr socket user → socket.length = cfg.idLength)
    (room : String) :
    RosterEntry cfg tr (socket ++ room)
      ((ms.put "id" (.str (socket ++ room))).put "type" (.str "Peer")) := by
  obtain ⟨user, hannounces, huser⟩ := h.user
  refine ⟨socket, room, user, rfl, hlen hannounces, hannounces, ?_, ?_, ?_⟩
  · exact ((huser.put (by decide) _).put (by decide) _).get_eq
  · exact ((only_put _ _ _).put (by decide) _).get_eq
  · exact ((honline.put (by decide) _).put (by decide) _).get_eq

namespace RosterClient

theorem getText_eq_ok {v : Option Value} (h : getText v = .ok id) : v = some (.str id) := by
  unfold getText at h
  split at h
  · rw [Except.ok.inj h]
  · cases h

theorem getFlag_eq_ok {v : Option Value} (h : getFlag v = .ok online) : v = some (.bool online) := by
  unfold getFlag at h
  split at h
  · rw [Except.ok.inj h]
  · cases h

theorem readPresenceData_eq_some (h : readPresenceData msg = .ok (some (id, online, data))) :
    msg.get "data" = some (.obj data) ∧ data.get "online" = some (.bool online) ∧
      ∃ own room, data.get "id" = some (.str own) ∧ textOr (msg.get "room") = .ok room ∧
        id = own ++ room := by
  unfold readPresenceData at h
  split at h
  · rename_i ms hms
    split_ifs at h with hparts
    · cases hid : getText (Members.get ms "id") with
      | error e => rw [hid] at h; cases h
      | ok own =>
        cases hroom : textOr (msg.get "room") with
        | error e => rw [hid, hroom] at h; cases h
        | ok room =>
          cases hflag : getFlag (Members.get ms "online") with
          | error e => rw [hid, hroom, hflag] at h; cases h
          | ok flag =>
            rw [hid, hroom, hflag] at h
            obtain ⟨rfl, hrest⟩ := Prod.mk.inj (Option.some.inj (Except.ok.inj h))
            obtain ⟨rfl, rfl⟩ := Prod.mk.inj hrest
            exact ⟨hms, getFlag_eq_ok hflag, own, room, getText_eq_ok hid, rfl, rfl⟩
    · cases h
  · cases h

theorem authentic_emit {msg' : Object} (h : Authentic cfg tr c)
    (hentry : RosterEntry cfg tr key peer) :
    Authentic cfg tr { c with signals := c.signals ++ [.connected peer msg'] } := by
  refine ⟨h.roster, fun signal hsignal => ?_⟩
  rcases List.mem_append.mp hsignal with hsignal | hsignal
  · exact h.signals signal hsignal
  · exact ⟨key, peer, msg', List.mem_singleton.mp hsignal, hentry⟩

/-- A peer that is online is in the roster afterwards. -/
theorem updatePeer_grows
    (hentry : RosterEntry cfg tr id ((data.put "id" (.str id)).put "type" (.str "Peer")))
    (h : updatePeer msg id true data c = (res, c')) : Grows cfg tr c c' ∧ id ∈ c'.roster := by
  cases hpeer : c.roster[id]? with
  | some peer =>
    simp only [updatePeer, hpeer] at h
    obtain ⟨-, rfl⟩ := Prod.mk.inj h
    refine ⟨⟨rfl, fun _ hkey => hkey, fun hc => ?_⟩, PointerCollection.mem_of_getElem? hpeer⟩
    exact authentic_emit hc (hc.roster id peer hpeer)
  | none =>
    set peer := (data.put "id" (.str id)).put "type" (.str "Peer") with hpeer'
    let c₁ : RosterClient := { c with roster := c.roster.insert id peer }
    have hroster : ∀ key, c₁.roster[key]? = if id = key then some peer else c.roster[key]? :=
      fun key => PointerCollection.getElem?_insert c.roster id key peer
    have hmem : id ∈ c₁.roster :=
      PointerCollection.mem_of_getElem? (v := peer) (by rw [hroster, if_pos rfl])
    have hgrows : Grows cfg tr c c₁ := by
      refine ⟨rfl, fun key hkey => ?_, fun hc => ⟨fun key other hother => ?_, hc.signals⟩⟩
      · obtain ⟨other, hother⟩ := PointerCollection.exists_of_mem hkey
        by_cases hid : id = key
        · exact hid ▸ hmem
        · exact PointerCollection.mem_of_getElem? (v := other) (by rw [hroster, if_neg hid, hother])
      · rw [hroster] at hother
        split_ifs at hother with hid
        · exact hid ▸ Option.some.inj hother ▸ hentry
        · exact hc.roster key other hother
    simp only [updatePeer, hpeer, ← hpeer'] at h
    cases haddress : peerAddress peer with
    | error e =>
      have hrun : (Op.lift (peerAddress peer) : RosterOp Address) c₁ = (.error e, c₁) := by
        rw [Op.lift, haddress]
      rw [Op.modify_bind_apply, Op.bind_of_error hrun] at h
      obtain ⟨-, rfl⟩ := Prod.mk.inj h
      exact ⟨hgrows, hmem⟩
    | ok address =>
      have hrun : (Op.lift (peerAddress peer) : RosterOp Address) c₁ = (.ok address, c₁) := by
        rw [Op.lift, haddress]
      rw [Op.modify_bind_apply, Op.bind_of_ok hrun] at h
      obtain ⟨-, rfl⟩ := Prod.mk.inj h
      exact ⟨⟨rfl, hgrows.roster, fun hc => authentic_emit (hgrows.authentic hc) hentry⟩, hmem⟩

/-- A message whose data describe a socket adds nothing but an entry. -/
theorem onPresenceData_grows
    (hlen : ∀ {socket user}, Announces tr socket user → socket.length = cfg.idLength)
    (hmsg : Describing tr msg) (h : onPresenceData msg whiny c = (res, c')) : Grows cfg tr c c' := by
  cases hread : readPresenceData msg with
  | error e =>
    have hrun : (Op.lift (readPresenceData msg) : RosterOp _) c = (.error e, c) := by
      rw [Op.lift, hread]
    rw [onPresenceData, Op.bind_of_error hrun] at h
    exact (Prod.mk.inj h).2 ▸ .refl c
  | ok found =>
    have hrun : (Op.lift (readPresenceData msg) : RosterOp _) c = (.ok found, c) := by
      rw [Op.lift, hread]
    rw [onPresenceData, Op.bind_of_ok hrun] at h
    cases found with
    | none =>
      cases whiny with
      | false => exact (Prod.mk.inj h).2 ▸ .refl c
      | true => exact (Prod.mk.inj h).2 ▸ .refl c
    | some found =>
      obtain ⟨id, online, data⟩ := found
      obtain ⟨hdata, hflag, own, room, hown, -, rfl⟩ := readPresenceData_eq_some hread
      obtain ⟨socket, hdescribes, honline⟩ := hmsg data hdata
      obtain rfl : own = socket := by simpa [hdescribes.id.get_eq] using hown.symm
      obtain rfl : online = true := by simpa [honline.get_eq] using hflag.symm
      exact (updatePeer_grows (hdescribes.entry honline hlen room) h).1

theorem createPresence_snd (c : RosterClient) : (createPresence c).2 = c := by
  unfold createPresence
  split_ifs <;> rfl

/-- What follows the data of a presence: the answer to a probe. -/
def answer (msg : Object) : RosterOp Unit := do
  if ← .lift (isProbe msg) then do
    let _ ← .lift (textOr (msg.get "from"))
    createPresence

theorem answer_snd (msg : Object) (c : RosterClient) : (answer msg c).2 = c := by
  unfold answer
  cases isProbe msg with
  | error e => rfl
  | ok probe =>
    cases probe with
    | false => rfl
    | true =>
      cases textOr (msg.get "from") with
      | error e => rfl
      | ok sender => exact createPresence_snd c

theorem onPresence_eq (hdata : (msg.get "data").isSome) :
    onPresence msg = onPresenceData msg false >>= fun _ => answer msg := if_pos hdata

theorem onPresence_grows
    (hlen : ∀ {socket user}, Announces tr socket user → socket.length = cfg.idLength)
    (hmsg : Describing tr msg) (h : onPresence msg c = (res, c')) : Grows cfg tr c c' := by
  by_cases hdata : (msg.get "data").isSome
  · rw [onPresence_eq hdata] at h
    rcases hx : onPresenceData msg false c with ⟨e | a, c₁⟩
    · rw [Op.bind_of_error hx] at h
      exact (Prod.mk.inj h).2 ▸ onPresenceData_grows hlen hmsg hx
    · rw [Op.bind_of_ok hx] at h
      obtain rfl : c' = c₁ := (congrArg Prod.snd h).symm.trans (answer_snd msg c₁)
      exact onPresenceData_grows hlen hmsg hx
  · rw [onPresence, if_neg hdata] at h
    exact (Prod.mk.inj h).2 ▸ .refl c

/-! ### The assert of `createPresence` -/

theorem getText_ne_noPeer (v : Option Value) : getText v ≠ .error .noPeer := by
  unfold getText
  split <;> nofun

theorem textOr_ne_noPeer (v : Option Value) : textOr v ≠ .error .noPeer := by
  cases v with
  | none => nofun
  | some v => exact getText_ne_noPeer _

theorem getFlag_ne_noPeer (v : Option Value) : getFlag v ≠ .error .noPeer := by
  unfold getFlag
  split <;> nofun

theorem bind_ne_noPeer {α β : Type} {x : Except PresenceError α} {f : α → Except PresenceError β}
    (hx : x ≠ .error .noPeer) (hf : ∀ a, f a ≠ .error .noPeer) : (x >>= f) ≠ .error .noPeer := by
  cases x with
  | error e => exact fun h => hx (congrArg _ (Except.error.inj h))
  | ok a => exact hf a

theorem peerAddress_ne_noPeer (peer : Object) : peerAddress peer ≠ .error .noPeer :=
  bind_ne_noPeer (textOr_ne_noPeer _) fun _ => bind_ne_noPeer (textOr_ne_noPeer _) fun _ => nofun

theorem readPresenceData_ne_noPeer (msg : Object) : readPresenceData msg ≠ .error .noPeer := by
  unfold readPresenceData
  split
  · split_ifs
    · exact bind_ne_noPeer (getText_ne_noPeer _) fun _ => bind_ne_noPeer (textOr_ne_noPeer _) fun _ =>
        bind_ne_noPeer (getFlag_ne_noPeer _) fun _ => nofun
    · nofun
  · nofun

theorem updatePeer_avoids (msg : Object) (id : String) (online : Bool) (data : Object) :
    Op.Avoids .noPeer (updatePeer msg id online data) := by
  have haddress : ∀ peer, Op.Avoids .noPeer (.lift (peerAddress peer) : RosterOp Address) :=
    fun peer => Op.avoids_lift (peerAddress_ne_noPeer peer)
  intro c
  unfold updatePeer
  split
  · exact Op.Avoids.bind (Op.avoids_modify _ _)
      (fun _ => (haddress _).bind fun _ => Op.avoids_modify _ _) c
  · exact Op.avoids_modify _ _ c
  · exact (haddress _).bind
      (fun _ => Op.Avoids.bind (Op.avoids_modify _ _) fun _ => Op.avoids_modify _ _) c
  · nofun

theorem onPresenceData_avoids (msg : Object) (whiny : Bool) :
    Op.Avoids .noPeer (onPresenceData msg whiny) := by
  refine Op.Avoids.bind (Op.avoids_lift (readPresenceData_ne_noPeer msg)) fun found => ?_
  cases found with
  | none =>
    cases whiny with
    | false => exact Op.avoids_pure _ _
    | true => exact fun _ => nofun
  | some found => exact updatePeer_avoids msg _ _ _

/-- A client that has its own peer can answer. -/
theorem answer_ne_noPeer (msg : Object) (hid : c.ourID ≠ "") (hmem : c.ourID ∈ c.roster) :
    (answer msg c).1 ≠ .error .noPeer := by
  have hprobe : isProbe msg ≠ .error .noPeer := by
    unfold isProbe
    split
    · nofun
    · exact getFlag_ne_noPeer _
  have hsender := textOr_ne_noPeer (msg.get "from")
  unfold answer
  cases hprobe' : isProbe msg with
  | error e =>
    intro (h : (Except.error e : Except PresenceError Unit) = _)
    exact hprobe (hprobe'.trans (congrArg _ (Except.error.inj h)))
  | ok probe =>
    cases probe with
    | false => nofun
    | true =>
      cases hsender' : textOr (msg.get "from") with
      | error e =>
        intro (h : (Except.error e : Except PresenceError Unit) = _)
        exact hsender (hsender'.trans (congrArg _ (Except.error.inj h)))
      | ok sender =>
        show (createPresence c).1 ≠ _
        rw [createPresence, if_pos ⟨hid, hmem⟩]
        nofun

theorem onPresence_ne_noPeer
    (hlen : ∀ {socket user}, Announces tr socket user → socket.length = cfg.idLength)
    (hmsg : Describing tr msg) (hid : c.ourID ≠ "") (hmem : c.ourID ∈ c.roster) :
    (onPresence msg c).1 ≠ .error .noPeer := by
  by_cases hdata : (msg.get "data").isSome
  · rw [onPresence_eq hdata]
    rcases hx : onPresenceData msg false c with ⟨e | a, c₁⟩
    · rw [Op.bind_of_error hx]
      exact fun he => onPresenceData_avoids msg false c (by rw [hx, Except.error.inj he])
    · have hgrows := onPresenceData_grows hlen hmsg hx
      rw [Op.bind_of_ok hx]
      exact answer_ne_noPeer msg (hgrows.ourID ▸ hid) (hgrows.ourID ▸ hgrows.roster _ hmem)
  · rw [onPresence, if_neg hdata]
    nofun

/-! ### The answer to `announce` -/

/-- An answer that describes the socket of the client, by its user and under a name. -/
structure Answers (tr : List SignallerEvent) (socket : SocketId) (response : Object) : Prop where
  describes : ∃ ms, response.get "data" = some (.obj ms) ∧ Describes tr socket ms ∧
    Only ms "online" (.bool true) ∧ (Members.get ms "name").isSome
  room : response.get "room" = none

theorem readPresenceData_of_answers {response : Object} (h : Answers tr socket response) :
    ∃ ms, response.get "data" = some (.obj ms) ∧ Describes tr socket ms ∧
      Only ms "online" (.bool true) ∧
      readPresenceData response = .ok (some (socket ++ "", true, ms)) := by
  obtain ⟨ms, hms, hdescribes, honline, hname⟩ := h.describes
  obtain ⟨user, -, huser⟩ := hdescribes.user
  refine ⟨ms, hms, hdescribes, honline, ?_⟩
  unfold readPresenceData
  rw [hms]
  simp only [hdescribes.id.get_eq, huser.get_eq, honline.get_eq, hname, h.room, Option.isSome_some]
  rfl

/-- A client that takes the answer has the id of its socket, and its own peer. -/
theorem onAnnounceState_eq
    (hlen : ∀ {socket user}, Announces tr socket user → socket.length = cfg.idLength)
    {response : Object} (hresponse : Answers tr socket response)
    (h : onAnnounceState response c = (res, c')) :
    (Authentic cfg tr c → Authentic cfg tr c') ∧
      (c'.ourID ≠ "" → c' = c ∨ c'.ourID = socket ∧ socket ∈ c'.roster) := by
  obtain ⟨ms, hms, hdescribes, honline, hread⟩ := readPresenceData_of_answers hresponse
  unfold onAnnounceState at h
  split_ifs at h with haccepted
  · have hid : (Op.lift (getText ((response.get "data").bind (Json.find "id"))) : RosterOp String) c =
        (.ok socket, c) := by
      have hget : (response.get "data").bind (Json.find "id") = some (.str socket) := by
        rw [hms]
        exact hdescribes.id.get_eq
      rw [hget]
      rfl
    rw [Op.bind_of_ok hid, Op.modify_bind_apply] at h
    split_ifs at h with hempty
    · obtain ⟨-, rfl⟩ := Prod.mk.inj h
      exact ⟨fun hc => ⟨hc.roster, hc.signals⟩, fun hne => absurd hempty hne⟩
    · set c₁ : RosterClient := { c with ourID := socket } with hc₁
      have hdata : onPresenceData response true c₁ =
          updatePeer response (socket ++ "") true ms c₁ := by
        have hlift : (Op.lift (readPresenceData response) : RosterOp _) c₁ =
            (.ok (some (socket ++ "", true, ms)), c₁) := by
          rw [Op.lift, hread]
        rw [onPresenceData, Op.bind_of_ok hlift]
      rcases hx : onPresenceData response true c₁ with ⟨x, c₂⟩
      have hentry : RosterEntry cfg tr (socket ++ "") _ := hdescribes.entry honline hlen ""
      have hgrows := updatePeer_grows hentry (hdata.symm.trans hx)
      have hc' : c' = c₂ := by
        cases x with
        | error e =>
          rw [Op.bind_of_error hx] at h
          exact (Prod.mk.inj h).2.symm
        | ok a =>
          rw [Op.bind_of_ok hx] at h
          exact (congrArg Prod.snd h).symm.trans (createPresence_snd c₂)
      rw [hc']
      refine ⟨fun hc => hgrows.1.authentic ⟨hc.roster, hc.signals⟩,
        fun _ => .inr ⟨hgrows.1.ourID, ?_⟩⟩
      simpa using hgrows.2
  · obtain ⟨-, rfl⟩ := Prod.mk.inj h
    exact ⟨id, fun _ => .inl rfl⟩

end RosterClient

/-! ### Runs -/

/-- The events of a trace that the signaller takes part in. -/
def signallerEvents (o : AnnounceOptions) (tr : List WorldEvent) : List SignallerEvent :=
  tr.filterMap (WorldEvent.toSignaller o)

/-- What holds of a world after a trace. -/
structure WorldOk (cfg : Config) (o : AnnounceOptions) (tr : List WorldEvent) (w : World) : Prop where
  faithful : Faithful cfg (signallerEvents o tr) w.sig
  authentic : Authentic cfg (signallerEvents o tr) w.client
  own : w.client.ourID ≠ "" → w.socket = some w.client.ourID ∧ w.client.ourID ∈ w.client.roster
  response : ∀ r, w.response = some r → ∃ socket, w.socket = some socket ∧
    RosterClient.Answers (signallerEvents o tr) socket r

/-- A peer has the members of its request and what these are extended with. -/
theorem Symple.authorize_members {rtmpUrls host : Value} {req : Object} {peer : Symple.Peer}
    (h : authorize rtmpUrls host socket req = some peer) :
    (∃ v, Only peer.members "name" v) ∧ ∀ m ∈ peer.members,
      m ∈ req ∨ m ∈ granted rtmpUrls host socket req ∨ m.1 = "connects" := by
  unfold authorize authorizeValidPeer at h
  dsimp only at h
  split_ifs at h
  obtain rfl := Option.some.inj h
  have hnames : ((granted rtmpUrls host socket req).reverse.map Prod.fst) =
      ["host", "name", "rtmpUrls", "online", "id"] := rfl
  have hname : Only (granted rtmpUrls host socket req).reverse "name" (nameOf req) :=
    only_of_get (by rw [hnames]; decide) rfl
  refine ⟨⟨_, Only.put ((hname.putAll req).putAll []) (by decide) _⟩, fun m hm => ?_⟩
  rcases mem_put.mp hm with ⟨hm, -⟩ | rfl
  · rcases mem_putAll hm with ⟨hm, -⟩ | hm
    · exact (List.not_mem_nil hm).elim
    · rcases mem_putAll hm with ⟨hm, -⟩ | hm
      · exact .inl hm
      · exact .inr (.inl (List.mem_reverse.mp hm))
  · exact .inr (.inr rfl)

/-- The answer to the request of a client describes its socket. -/
theorem announceResponse_answers {rtmpUrls host iceServers : Value} {fmt : Format} {peer : Symple.Peer}
    (hpeer : authorize rtmpUrls host socket o.request = some peer)
    (hdescribes : Describes tr socket peer.members)
    (honline : Only peer.members "online" (.bool true)) :
    RosterClient.Answers tr socket (announceResponse fmt iceServers peer) := by
  obtain ⟨⟨name, hname⟩, hmembers⟩ := authorize_members hpeer
  obtain ⟨user, hannounces, huser⟩ := hdescribes.user
  have hdata : ((Members.putAll [] peer.members).put "iceServers" iceServers).get "data" = none := by
    refine get_eq_none.mpr fun m hm hk => ?_
    rcases mem_put.mp hm with ⟨hm, -⟩ | rfl
    · rcases mem_putAll hm with ⟨hm, -⟩ | hm
      · exact List.not_mem_nil hm
      · have hnot : ∀ names : List String, m.1 ∈ names → "data" ∉ names → False :=
          fun names hmem hnot => hnot (hk ▸ hmem)
        rcases hmembers m hm with hm | hm | hm
        · exact hnot ["user", "name", "type", "token"] (List.mem_map_of_mem hm) (by decide)
        · exact hnot ["id", "online", "rtmpUrls", "name", "host"] (List.mem_map_of_mem hm) (by decide)
        · exact hnot ["connects"] (List.mem_singleton.mpr hm) (by decide)
    · exact absurd (show "iceServers" = "data" from hk) (by decide)
  have hkeep : ∀ {k v}, Only peer.members k v → k ≠ "iceServers" →
      Only ((Members.putAll [] peer.members).put "iceServers" iceServers) k v :=
    fun h hk => (h.putAll []).put hk _
  refine ⟨⟨_, ?_, ⟨hkeep hdescribes.id (by decide), user, hannounces, hkeep huser (by decide)⟩,
    hkeep honline (by decide), ?_⟩, rfl⟩
  · show some (if truthy (((Members.putAll [] peer.members).put "iceServers" iceServers).get "data")
      then _ else _) = _
    rw [hdata]
    rfl
  · rw [(hkeep hname (by decide)).get_eq]
    rfl

theorem WorldOk.new : WorldOk cfg o [] .new where
  faithful := .new
  authentic := ⟨fun key peer h => by
    simp [World.new] at h, fun _ h => (List.not_mem_nil h).elim⟩
  own h := absurd rfl h
  response _ h := by cases h

/-- What was sent as a presence describes a socket. -/
theorem WorldOk.describing (h : WorldOk cfg o tr₀ w) (hsent : msg ∈ w.sig.sent)
    (htype : msg.get "type" = some (.str "presence")) :
    Describing (signallerEvents o tr₀) msg := fun ms hms =>
  h.faithful.sent msg hsent htype ms hms

theorem signallerEvents_concat (o : AnnounceOptions) (tr : List WorldEvent) (e : WorldEvent) :
    signallerEvents o (tr ++ [e]) = signallerEvents o tr ++ (e.toSignaller o).toList := by
  rw [signallerEvents, List.filterMap_append, signallerEvents]
  cases e <;> rfl

theorem RosterClient.Answers.mono {response : Object} (h : Answers tr socket response)
    (hsub : tr ⊆ tr') : Answers tr' socket response := by
  obtain ⟨ms, hms, hdescribes, hrest⟩ := h.describes
  exact ⟨⟨ms, hms, hdescribes.mono hsub, hrest⟩, h.room⟩

theorem WorldStep.ok (h : WorldOk cfg o tr₀ w) (hstep : WorldStep cfg o w e w') :
    WorldOk cfg o (tr₀ ++ [e]) w' := by
  have hsub : signallerEvents o tr₀ ⊆ signallerEvents o (tr₀ ++ [e]) := by
    rw [signallerEvents_concat]
    exact List.subset_append_left _ _
  have hsame : e.toSignaller o = none → signallerEvents o (tr₀ ++ [e]) = signallerEvents o tr₀ := by
    intro he
    rw [signallerEvents_concat, he, Option.toList_none, List.append_nil]
  have hstep' : ∀ {e' : SignallerEvent} {sig : Signaller}, e.toSignaller o = some e' →
      SignallerStep cfg w.sig e' sig → Faithful cfg (signallerEvents o (tr₀ ++ [e])) sig := by
    intro e' sig he hsig
    rw [signallerEvents_concat, he]
    exact hsig.keeps h.faithful
  have hresponse : ∀ r, w.response = some r → ∃ socket, w.socket = some socket ∧
      RosterClient.Answers (signallerEvents o (tr₀ ++ [e])) socket r := fun r hr => by
    obtain ⟨socket, hsocket, hanswers⟩ := h.response r hr
    exact ⟨socket, hsocket, hanswers.mono hsub⟩
  have hlen : ∀ {socket user}, Announces (signallerEvents o tr₀) socket user →
      socket.length = cfg.idLength := h.faithful.announces
  cases hstep with
  | signaller hsig => exact ⟨hstep' rfl hsig, h.authentic.mono hsub, h.own, hresponse⟩
  | connect hsig =>
    refine ⟨hstep' rfl hsig, ⟨fun key peer hpeer => ?_, (h.authentic.mono hsub).signals⟩,
      fun hid => absurd rfl hid, fun r hr => by cases hr⟩
    simp [RosterClient.reset] at hpeer
  | @announce sig socket peer iceServers hsocket hsig hpeer =>
    have hfaithful := hstep' rfl hsig
    refine ⟨hfaithful, h.authentic.mono hsub, h.own, fun r hr => ⟨socket, hsocket, ?_⟩⟩
    obtain rfl := Option.some.inj hr
    cases hsig with
    | @announce _ _ _ peer' hsession hreq hauthorize =>
      have hset : some (⟨some peer', true⟩ : Session) = some ⟨some peer, true⟩ :=
        ((w.sig.sessions_set socket socket _).trans (if_pos rfl)).symm.trans hpeer
      obtain rfl : peer' = peer := Option.some.inj (congrArg Session.peer (Option.some.inj hset))
      exact announceResponse_answers hauthorize (hfaithful.peer hpeer) (hfaithful.online hpeer)
  | @onAnnounceState r client res hr hrun hres =>
    obtain ⟨socket, hsocket, hanswers⟩ := h.response r hr
    obtain ⟨hauthentic, hown⟩ := RosterClient.onAnnounceState_eq hlen hanswers hrun
    refine ⟨hsame rfl ▸ h.faithful, (hauthentic h.authentic).mono hsub, fun hid => ?_,
      fun r hr => by cases hr⟩
    rcases hown hid with rfl | ⟨hid', hmem⟩
    · exact h.own hid
    · exact ⟨hsocket.trans (congrArg some hid'.symm), hid' ▸ hmem⟩
  | onPresence hsocket hsent htype hrun =>
    have hgrows := RosterClient.onPresence_grows hlen (h.describing hsent htype) hrun
    refine ⟨hsame rfl ▸ h.faithful, (hgrows.authentic h.authentic).mono hsub, fun hid => ?_,
      hresponse⟩
    obtain ⟨hsocket', hmem⟩ := h.own (hgrows.ourID ▸ hid)
    exact ⟨hgrows.ourID ▸ hsocket', hgrows.ourID ▸ hgrows.roster _ hmem⟩

theorem run_worldOk (h : Lts.Run (WorldStep cfg o) .new tr₀ w) : WorldOk cfg o tr₀ w :=
  h.trace_invariant (I := fun tr w => WorldOk cfg o tr w) .new fun _ _ _ _ hok hstep => hstep.ok hok

/-- **A roster is authentic** in every run, whatever the other sockets announce and send: each of
its peers has the user that a socket has announced and stands under the id of that socket, with
something behind it; nothing but such peers is emitted, none as disconnected; and as long as the
client has an id, it has its own peer, so that no presence that arrives makes `createPresence`
fail. -/
theorem run_roster (h : Lts.Run (WorldStep cfg o) .new tr₀ w) :
    (∀ key peer, w.client.roster[key]? = some peer →
      RosterEntry cfg (signallerEvents o tr₀) key peer) ∧
    (∀ signal ∈ w.client.signals, ∃ key peer msg,
      signal = .connected peer msg ∧ RosterEntry cfg (signallerEvents o tr₀) key peer) ∧
    (w.client.ourID ≠ "" → w.socket = some w.client.ourID ∧ w.client.ourID ∈ w.client.roster ∧
      ∀ msg ∈ w.sig.sent, msg.get "type" = some (.str "presence") →
        (RosterClient.onPresence msg w.client).1 ≠ .error .noPeer) := by
  have hok := run_worldOk h
  refine ⟨hok.authentic.roster, hok.authentic.signals, fun hid => ?_⟩
  obtain ⟨hsocket, hmem⟩ := hok.own hid
  exact ⟨hsocket, hmem, fun msg hsent htype =>
    RosterClient.onPresence_ne_noPeer hok.faithful.announces (hok.describing hsent htype) hid hmem⟩

/-- A socket says to be another one that has gone; what arrives is a peer of its own. -/
theorem run_roster_forged : ∃ (cfg : Config) (o : AnnounceOptions) (tr : List WorldEvent) (w : World)
    (peer : Object), Lts.Run (WorldStep cfg o) .new tr w ∧ w.client.roster["b"]? = some peer ∧
      RosterEntry cfg (signallerEvents o tr) "b" peer := by
  let cfg : Config := ⟨⟨fun _ => "eve"⟩, .null, fun _ => .null, 1, by decide⟩
  let o : AnnounceOptions := ⟨"me", "me", "node", "", by decide⟩
  let forged : Object := [("type", .str "presence"), ("to", .str "me"),
    ("data", .obj [("id", .str "a"), ("online", .bool false)])]
  let eve : Symple.Peer := ⟨[("user", .str "eve"), ("host", .null), ("name", .str "eve"),
    ("rtmpUrls", .null), ("online", .bool true), ("id", .str "b"), ("connects", .arr [])]⟩
  let data : Object := [("id", .str "b"), ("online", .bool true), ("user", .str "eve"),
    ("host", .null), ("name", .str "eve"), ("rtmpUrls", .null), ("connects", .arr [])]
  let sent : Object := [("type", .str "presence"), ("to", .str "me"), ("data", .obj data),
    ("from", .str "eve|eve")]
  let peer : Object := data ++ [("type", .str "Peer")]
  let c : RosterClient := ⟨"", (∅ : PointerCollection Object).insert "b" peer, [.connected peer sent]⟩
  have hauthorize : authorize .null .null "b" [("user", .str "eve")] = some eve := by rfl
  have hmessage : eve.onMessage cfg.toFormat forged = some ([sent], eve) := by rfl
  have hplain : Plain [("user", .str "eve")] := ⟨by decide, by decide⟩
  have hpresence : RosterClient.onPresence sent ⟨"", ∅, []⟩ = (.ok (), c) := by
    have hupdate : RosterClient.updatePeer sent "b" true data ⟨"", ∅, []⟩ = (.ok (), c) := rfl
    have hdata : RosterClient.onPresenceData sent false ⟨"", ∅, []⟩ = (.ok (), c) := hupdate
    rw [RosterClient.onPresence_eq rfl, Op.bind_of_ok hdata]
    rfl
  let sig₁ : Signaller := Signaller.new.set "b" ⟨none, true⟩
  let sig₂ := sig₁.set "b" ⟨some eve, true⟩
  let sig₃ := sig₂.set "a" ⟨none, true⟩
  let sig₄ := (sig₃.set "b" ⟨some eve, true⟩).send [sent]
  have h₁ : SignallerStep cfg .new (.connect "b") sig₁ := .connect rfl rfl
  have h₂ : SignallerStep cfg sig₁ (.announce "b" [("user", .str "eve")]) sig₂ :=
    .announce rfl hplain hauthorize
  have h₃ : SignallerStep cfg sig₂ (.connect "a") sig₃ := .connect rfl rfl
  have h₄ : SignallerStep cfg sig₃ (.message "b" forged) sig₄ := .message rfl hmessage
  have hrun : Lts.Run (WorldStep cfg o) .new
      [.signaller (.connect "b"), .signaller (.announce "b" [("user", .str "eve")]), .connect "a",
        .signaller (.message "b" forged), .onPresence sent] ⟨sig₄, some "a", none, c⟩ :=
    ((((Lts.Run.nil.snoc (.signaller h₁)).snoc (.signaller h₂)).snoc (.connect h₃)).snoc
      (.signaller h₄)).snoc (.onPresence rfl (List.mem_append_left _ (List.mem_singleton_self _)) rfl
        hpresence)
  have hpeer : c.roster["b"]? = some peer := by simp [c]
  exact ⟨cfg, o, _, _, _, hrun, hpeer, (run_roster hrun).1 "b" peer hpeer⟩
end Yamb
