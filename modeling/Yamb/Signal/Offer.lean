import Yamb.Lib.Glare
import Yamb.Node.Signalling
import Yamb.Registry
import Mathlib.Data.String.Basic

/-!
# Which of two nodes offers

Two nodes in one room, and the presences and descriptions between them.

* `Pair`, `PairEvent`, `PairStep`: the two nodes, with what is on its way to them;
* `Half`, `endOf`: a node that has no other peer, and the end of the negotiation it is;
* `signal_spec`, `onSuccess_spec`: a node handles a signal as `Glare.End.take` says, and is the one
  to offer if its user id is smaller than the other's with the room appended;
* `Follows`, `PairStep.follows`: the pair is simulated by `Glare.Step`;
* **`offer_iff`**: the negotiation never fails exactly when the two user ids do not `Clash`.
-/

set_option autoImplicit false

namespace Yamb

open Glare (Side)

/-- Presences and descriptions in flight are kept with the side they go to. -/
structure Pair where
  node : Side → Node
  wire : List (Side × SigEvent)
  seen : Side → Bool

inductive PairEvent
  | announce (x : Side)
  | deliver (x : Side) (m : SigEvent)
  | onSuccess (x : Side) (conn : Ptr)

/-- What the signaller makes of an action of `user` for the other node. -/
def SigAction.signal (user : String) : SigAction → Option SigEvent
  | .postMessage _ roomId body => some (SignalingConn.onMessage user roomId body)
  | .sendPresence _ roomId => some (SignalingConn.onPeerConnected ⟨user, ""⟩ roomId)
  | .joinRoom _ | .leaveRoom _ => none

/-- Node `x` has become `n'`; what it has handed to the signaller since is on its way. -/
def Pair.act (s : Pair) (x : Side) (n' : Node) : Pair where
  node := Function.update s.node x n'
  wire := s.wire ++ ((n'.sigConn.drop (s.node x).sigConn.length).filterMap
    (SigAction.signal (s.node x).user)).map (Prod.mk x.other)
  seen := s.seen

def SigEvent.isPresence : SigEvent → Bool
  | .peerConnected _ _ _ => true
  | _ => false

/-- Presences of either node for the room may arrive at any time; a description that was asked for
is created at any time after. -/
inductive PairStep (r : RoomId) (s : Pair) : PairEvent → Pair → Prop
  | announce (x : Side) : PairStep r s (.announce x) { s with
      wire := s.wire ++ [(x.other, SignalingConn.onPeerConnected ⟨(s.node x).user, ""⟩ r)] }
  | deliver (l₁ : List (Side × SigEvent)) (x : Side) (m : SigEvent) (l₂ : List (Side × SigEvent))
      (hw : s.wire = l₁ ++ (x, m) :: l₂) : PairStep r s (.deliver x m)
        ({ s with
          wire := l₁ ++ l₂
          seen := if m.isPresence then Function.update s.seen x true else s.seen }.act x
            ((s.node x).signal m).1)
  | onSuccess (x : Side) (conn : Ptr) (p : Peer) (sdp : String)
      (hp : (s.node x).heap conn = some p) (hc : p.creating ≠ []) :
      PairStep r s (.onSuccess x conn) (s.act x ((s.node x).onSuccess conn sdp))

/-- Both nodes have joined the room. -/
def Pair.start (user : Side → String) (hasher : String → Hash) (junk : ℕ → Hash) (r : RoomId) :
    Pair where
  node := fun x => (Node.new (user x) hasher).joinRoomWS r junk
  wire := []
  seen := fun _ => false

/-- The node holds a Peer of this mode for the id. -/
def Node.Holds (n : Node) (k : PeerId) (mode : Mode) : Prop :=
  ∃ conn p, n.peerManager[k]? = some conn ∧ n.heap conn = some p ∧ p.mode = mode

/-- Each node holds an Offer-mode Peer for the other. -/
def Pair.BothOffer (s : Pair) (user : Side → String) (r : RoomId) : Prop :=
  ∀ x : Side, (s.node x).Holds (user x.other ++ r) .offer

/-- One node holds an Offer-mode Peer for the other, which holds an Answer-mode Peer for it. -/
def Pair.OneOffers (s : Pair) (user : Side → String) (r : RoomId) : Prop :=
  ∃ x : Side, (s.node x).Holds (user x.other ++ r) .offer ∧
    (s.node x.other).Holds (user x ++ r) .answer

/-- Nothing is in flight, and no description is still to be created. -/
def Pair.Settled (s : Pair) : Prop :=
  s.wire = [] ∧ ∀ x conn p, (s.node x).heap conn = some p → p.creating = []

/-- One user id continues the other with a text that is smaller than the room id. -/
def Clash (u v r : String) : Prop := (∃ w, v = u ++ w ∧ w < r) ∨ ∃ w, u = v ++ w ∧ w < r

/-! ### One node -/

/-- A node in the room `r` whose only peer, if any, is `k`. -/
structure Half (n : Node) (user : String) (k : PeerId) (r : RoomId) : Prop where
  shape : n.Shape
  user_eq : n.user = user
  going : n.stopping = false
  joined : r ∈ n.rooms
  peer : ∀ conn p, n.heap conn = some p → p.peerid = k ∧ p.lastRoom = r

def Mode.role : Mode → Glare.Role
  | .offer => .offer
  | .answer => .answer

def SdpType.role : SdpType → Glare.Role
  | .offer => .offer
  | .answer => .answer

/-- What a Peer amounts to in the negotiation. -/
def Peer.toEnd (p : Peer) : Glare.End := ⟨some p.mode.role, p.creating.map SdpType.role⟩

def Node.endOf (n : Node) (k : PeerId) : Glare.End :=
  match n.peerManager[k]?.bind n.heap with
  | none => ⟨none, []⟩
  | some p => p.toEnd

/-- The signal `m` in flight, sent by `user`, plays the part of `a`. -/
inductive SigEvent.Means (user : String) (r : RoomId) : SigEvent → Glare.Signal → Prop
  | presence : Means user r (SignalingConn.onPeerConnected ⟨user, ""⟩ r) .presence
  | offer (sdp : String) : Means user r (.sdpOfferIncome (user ++ r) r sdp) .offer
  | answer (sdp : String) : Means user r (.sdpAnswerIncome (user ++ r) r sdp) .answer

theorem endOf_of_registered {n : Node} {k : PeerId} {conn : Ptr} {p : Peer}
    (hreg : n.peerManager[k]? = some conn) (hp : n.heap conn = some p) : n.endOf k = p.toEnd := by
  simp only [Node.endOf, hreg, Option.bind_some, hp]

theorem endOf_setPeer {n : Node} {k : PeerId} {conn : Ptr} (hreg : n.peerManager[k]? = some conn)
    (p : Peer) : (n.setPeer conn p).endOf k = p.toEnd :=
  endOf_of_registered hreg ((Node.setPeer_heap n conn p conn).trans (if_pos rfl))

theorem endOf_of_new {n : Node} {k : PeerId} (h : k ∉ n.peerManager) : n.endOf k = ⟨none, []⟩ := by
  simp only [Node.endOf, PointerCollection.getElem?_of_not_mem h, Option.bind_none]

theorem Half.cases {n : Node} {user : String} {k : PeerId} {r : RoomId} (h : Half n user k r) :
    (k ∉ n.peerManager ∧ n.endOf k = ⟨none, []⟩) ∨
      ∃ conn p, n.peerManager[k]? = some conn ∧ n.heap conn = some p ∧ n.endOf k = p.toEnd := by
  by_cases hk : k ∈ n.peerManager
  · obtain ⟨conn, hreg⟩ := PointerCollection.exists_of_mem hk
    obtain ⟨p, hp, -⟩ := h.shape.live k conn hreg
    exact .inr ⟨conn, p, hreg, hp, endOf_of_registered hreg hp⟩
  · exact .inl ⟨hk, endOf_of_new hk⟩

theorem Half.setPeer {n : Node} {user : String} {k : PeerId} {r : RoomId} (h : Half n user k r)
    {conn : Ptr} {p p' : Peer} (hp : n.heap conn = some p) (hid : p'.peerid = p.peerid)
    (hroom : p'.lastRoom = p.lastRoom) : Half (n.setPeer conn p') user k r := by
  refine ⟨h.shape.setPeer hp hid, h.user_eq, h.going, h.joined, fun c q hq => ?_⟩
  rw [Node.setPeer_heap] at hq
  split_ifs at hq
  · rw [← Option.some.inj hq, hid, hroom]
    exact h.peer conn p hp
  · exact h.peer c q hq

theorem Half.withPeer {n : Node} {user : String} {k : PeerId} {r : RoomId} (h : Half n user k r)
    {p : Peer} (hid : p.peerid = k) (hroom : p.lastRoom = r) (hnew : k ∉ n.peerManager) :
    Half (n.withPeer p) user k r := by
  refine ⟨h.shape.withPeer (hid ▸ hnew), h.user_eq, h.going, h.joined, fun c q hq => ?_⟩
  rw [Node.withPeer_heap] at hq
  split_ifs at hq
  · rw [← Option.some.inj hq]
    exact ⟨hid, hroom⟩
  · exact h.peer c q hq

/-- Entering the joined room changes nothing but the room. -/
theorem Half.enterRoom {n : Node} {user : String} {k : PeerId} {r : RoomId} (h : Half n user k r)
    (peerid : PeerId) (conn : Ptr) : ∃ RU, n.enterRoom peerid conn r = (n.setRoom r RU, .ok true) ∧
      Half (n.setRoom r RU) user k r := by
  obtain ⟨RU, -, he⟩ := Node.enterRoom_joined h.shape h.joined peerid conn
  exact ⟨_, he, h.shape.setRoom h.joined _, h.user_eq, h.going, h.joined, h.peer⟩

theorem Half.post {n : Node} {user : String} {k : PeerId} {r : RoomId} (h : Half n user k r)
    (actions : List SigAction) : Half { n with sigConn := actions } user k r :=
  ⟨⟨h.shape.rooms_nodup, h.shape.mem_rooms, h.shape.mutexes, h.shape.heap_lt, h.shape.live,
    h.shape.registered⟩, h.user_eq, h.going, h.joined, h.peer⟩

/-- Node `n` has become `n'`, and has posted what the end of the negotiation sends. -/
structure Responds (n n' : Node) (user : String) (k : PeerId) (r : RoomId)
    (res : Glare.End × List Glare.Signal) : Prop where
  half : Half n' user k r
  end_eq : n'.endOf k = res.1
  acts : ∃ acts, n'.sigConn = n.sigConn ++ acts ∧
    List.Forall₂ (SigEvent.Means user r) (acts.filterMap (SigAction.signal user)) res.2

/-- A node that posts nothing. -/
theorem Responds.silent {n n' : Node} {user : String} {k : PeerId} {r : RoomId} {e : Glare.End}
    (half : Half n' user k r) (end_eq : n'.endOf k = e) (hq : n'.sigConn = n.sigConn) :
    Responds n n' user k r (e, []) :=
  ⟨half, end_eq, [], by simp [hq], .nil⟩

section Spec

variable {n : Node} {user v : String} {r : RoomId}

/-- A new Peer of the node, in the room and registered. -/
theorem Half.open (h : Half n user (v ++ r) r) (hnew : v ++ r ∉ n.peerManager) {p : Peer}
    (hid : p.peerid = v ++ r) (hroom : p.lastRoom = r) :
    ∃ RU, (n.withPeer p).enterRoom (v ++ r) n.nextPtr r = ((n.withPeer p).setRoom r RU, .ok true) ∧
      Half ((n.withPeer p).setRoom r RU) user (v ++ r) r ∧
      ((n.withPeer p).setRoom r RU).peerManager[v ++ r]? = some n.nextPtr ∧
      ((n.withPeer p).setRoom r RU).heap n.nextPtr = some p := by
  obtain ⟨RU, he, hhalf⟩ := (h.withPeer hid hroom hnew).enterRoom (v ++ r) n.nextPtr
  exact ⟨RU, he, hhalf, (Node.withPeer_peerManager n p _).trans (if_pos hid),
    (Node.withPeer_heap n p _).trans (if_pos rfl)⟩

/-- **A presence** is answered with an offer, or with the own presence. -/
theorem presence_spec (h : Half n user (v ++ r) r) (id : String) :
    Responds n (n.onPeerConnectedSignaler (v ++ r) r ⟨v, id⟩).1 user (v ++ r) r
      ((n.endOf (v ++ r)).take (decide (user < v ++ r)) .presence) := by
  unfold Node.onPeerConnectedSignaler
  simp only [h.going, Bool.false_eq_true, if_false]
  rcases h.cases with ⟨hnew, hend⟩ | ⟨conn, p, hreg, hp, hend⟩
  · rw [hend, if_neg hnew]
    by_cases ho : user < v ++ r
    · obtain ⟨RU, he, hhalf, hreg, hp⟩ :=
        h.open hnew (p := (Peer.new (v ++ r) .offer r).createOffer) rfl rfl
      have hcreate : n.createPCOf ⟨v, id⟩ r = ((n.withPeer
          (Peer.new (v ++ r) .offer r).createOffer).setRoom r RU, .ok true) := by
        unfold Node.createPCOf
        rw [h.user_eq, if_pos ho]
        simp only [PointerCollection.getElem?_of_not_mem hnew]
        rw [← he, ← Node.alloc_createOffer_register]
        rfl
      rw [hcreate, decide_eq_true ho]
      exact .silent hhalf (endOf_of_registered hreg hp) rfl
    · have hcreate : n.createPCOf ⟨v, id⟩ r =
          ({ n with sigConn := n.sigConn ++ [.sendPresence ⟨v, id⟩ r] }, .ok false) :=
        if_neg (h.user_eq ▸ ho)
      rw [hcreate, decide_eq_false ho]
      exact ⟨h.post _, hend, _, rfl, .cons .presence .nil⟩
  · rw [hend, if_pos (PointerCollection.mem_of_getElem? hreg)]
    exact .silent h hend rfl

theorem recvSDP_answer (n : Node) (k : PeerId) : n.recvSDP k .answer = n := by
  unfold Node.recvSDP
  split
  · rfl
  · split
    · simp_all
    · rfl

theorem recvSDP_offer {k : PeerId} {conn : Ptr} {p : Peer} (hreg : n.peerManager[k]? = some conn)
    (hp : n.heap conn = some p) :
    n.recvSDP k .offer = n.setPeer conn { p with creating := p.creating ++ [.answer] } := by
  simp only [Node.recvSDP, hreg, hp]

/-- The answering Peer, whether new or not, is asked for an answer. -/
theorem Half.recvSDP {k : PeerId} (h : Half n user k r) {conn : Ptr} {p : Peer}
    (hreg : n.peerManager[k]? = some conn) (hp : n.heap conn = some p) {m : Node}
    (hq : n.sigConn = m.sigConn) : Responds m (n.recvSDP k .offer) user k r
      (⟨some p.mode.role, p.creating.map SdpType.role ++ [.answer]⟩, []) := by
  rw [recvSDP_offer hreg hp]
  refine .silent (h.setPeer hp rfl rfl) ?_ hq
  rw [endOf_setPeer hreg]
  simp [Peer.toEnd, SdpType.role]

/-- **An offer** is taken unless the node has offered itself. -/
theorem offer_spec (h : Half n user (v ++ r) r) (offers : Bool) :
    Responds n (n.onSDPOffer (v ++ r) r).1 user (v ++ r) r
      ((n.endOf (v ++ r)).take offers .offer) := by
  unfold Node.onSDPOffer
  simp only [h.going, Bool.false_eq_true, if_false]
  rcases h.cases with ⟨hnew, hend⟩ | ⟨conn, p, hreg, hp, hend⟩
  · rw [hend]
    obtain ⟨RU, he, hhalf, hreg, hp⟩ := h.open hnew (p := .new (v ++ r) .answer r) rfl rfl
    have hcreate : n.createPC (v ++ r) .answer r =
        ((n.withPeer (.new (v ++ r) .answer r)).setRoom r RU, .ok true) := by
      simp only [Node.createPC, PointerCollection.getElem?_of_not_mem hnew]
      exact he
    rw [hcreate]
    exact hhalf.recvSDP hreg hp rfl
  · rw [hend]
    cases hmode : p.mode with
    | offer =>
      have hcreate : n.createPC (v ++ r) .answer r = (n, .ok false) := by
        simp [Node.createPC, hreg, hp, hmode]
      rw [hcreate]
      simp only [Peer.toEnd, hmode, Mode.role, Glare.End.take]
      refine .silent h ?_ rfl
      rw [hend, Peer.toEnd, hmode]
      rfl
    | answer =>
      obtain ⟨RU, he, hhalf⟩ := h.enterRoom (v ++ r) conn
      have hcreate : n.createPC (v ++ r) .answer r = (n.setRoom r RU, .ok true) := by
        simp [Node.createPC, hreg, hp, hmode, he]
      rw [hcreate]
      have := hhalf.recvSDP (m := n) hreg hp rfl
      simpa [Peer.toEnd, hmode, Mode.role, Glare.End.take] using this

/-- **A signal** is handled as the end of the negotiation handles it. -/
theorem signal_spec (h : Half n user (v ++ r) r) {m : SigEvent} {a : Glare.Signal}
    (hm : m.Means v r a) : Responds n (n.signal m).1 user (v ++ r) r
      ((n.endOf (v ++ r)).take (decide (user < v ++ r)) a) := by
  cases hm with
  | presence => exact presence_spec h ""
  | offer sdp => exact offer_spec h _
  | answer sdp =>
    have : (n.signal (.sdpAnswerIncome (v ++ r) r sdp)).1 = n := by
      simp [Node.signal, Node.onSDPAnswer, recvSDP_answer]
    rw [this]
    exact .silent h rfl rfl

/-- **A created description** is posted. -/
theorem onSuccess_spec (h : Half n user (v ++ r) r) {conn : Ptr} {p : Peer} {type : SdpType}
    {rest : List SdpType} (hp : n.heap conn = some p) (hc : p.creating = type :: rest)
    (sdp : String) : (n.endOf (v ++ r)).pending = type.role :: rest.map SdpType.role ∧
      Responds n (n.onSuccess conn sdp) user (v ++ r) r
        ({ n.endOf (v ++ r) with pending := rest.map SdpType.role }, [type.role.signal]) := by
  obtain ⟨hid, hroom⟩ := h.peer conn p hp
  have hreg := h.shape.registered conn p hp
  rw [hid] at hreg
  have hend := endOf_of_registered hreg hp
  refine ⟨by simp [hend, Peer.toEnd, hc], ?_⟩
  have heq : n.onSuccess conn sdp = Node.setPeer { n with
      sigConn := n.sigConn ++ [.postMessage (v ++ r) r (p.sdpMessage type sdp)] } conn
        { p with creating := rest, sentSDP := true } := by
    unfold Node.onSuccess
    simp only [hp, hc]
    rw [Node.sendSDP, if_neg (by simp [h.going])]
    simp only [hid, hroom]
    rfl
  rw [heq]
  refine ⟨(h.post _).setPeer hp rfl rfl, ?_, _, rfl, ?_⟩
  · rw [hend]
    exact endOf_setPeer hreg _
  · cases type with
    | offer => exact .cons (.offer sdp) .nil
    | answer => exact .cons (.answer sdp) .nil

end Spec

/-! ### The order of the texts -/

section Order

variable {α : Type} [LinearOrder α]

theorem lt_append_of_lt : ∀ {l₁ l₂ : List α} (r : List α), l₁ < l₂ → l₁ < l₂ ++ r
  | _, [], _, h => absurd h (List.not_lt_nil _)
  | [], b :: l₂, r, _ => List.nil_lt_cons b (l₂ ++ r)
  | a :: l₁, b :: l₂, r, h => by
    rw [List.cons_append, List.cons_lt_cons_iff]
    exact (List.cons_lt_cons_iff.mp h).imp_right fun h => ⟨h.1, lt_append_of_lt r h.2⟩

/-- A larger list falls below an extension of the smaller one only as an extension itself. -/
theorem lt_append_iff : ∀ {l₁ l₂ : List α} (r : List α), l₁ < l₂ →
    (l₂ < l₁ ++ r ↔ ∃ w, l₂ = l₁ ++ w ∧ w < r)
  | _, [], _, h => absurd h (List.not_lt_nil _)
  | [], b :: l₂, r, _ => by simp
  | a :: l₁, b :: l₂, r, h => by
    rw [List.cons_append, List.cons_lt_cons_iff]
    rcases List.cons_lt_cons_iff.mp h with hab | ⟨rfl, hl⟩
    · simp [hab.asymm, hab.ne']
    · simp [lt_append_iff r hl]

end Order

theorem lt_string_append {u v : String} (h : u < v) (r : String) : u < v ++ r := by
  rw [String.lt_iff, String.toList_append]
  exact lt_append_of_lt _ (String.lt_iff.mp h)

theorem lt_string_append_iff {u v : String} (h : u < v) (r : String) :
    v < u ++ r ↔ ∃ w, v = u ++ w ∧ w < r := by
  rw [String.lt_iff, String.toList_append, lt_append_iff _ (String.lt_iff.mp h)]
  constructor
  · rintro ⟨w, hv, hw⟩
    refine ⟨String.ofList w, String.toList_inj.mp (by simpa using hv), ?_⟩
    rwa [String.lt_iff, String.toList_ofList]
  · rintro ⟨w, rfl, hw⟩
    exact ⟨w.toList, String.toList_append, String.lt_iff.mp hw⟩

/-- At least one of two distinct ids is smaller than the other with the room appended. -/
theorem lt_or_lt {u v : String} (h : u ≠ v) (r : String) : u < v ++ r ∨ v < u ++ r := by
  rcases lt_or_gt_of_ne h with hlt | hlt
  · exact .inl (lt_string_append hlt r)
  · exact .inr (lt_string_append hlt r)

/-- **Both nodes are to offer** exactly when their ids clash. -/
theorem clash_iff {u v : String} (h : u ≠ v) (r : String) :
    u < v ++ r ∧ v < u ++ r ↔ Clash u v r := by
  have key : ∀ {u v : String}, u < v → (u < v ++ r ∧ v < u ++ r ↔ Clash u v r) := by
    intro u v hlt
    rw [and_iff_right (lt_string_append hlt r), lt_string_append_iff hlt]
    refine (or_iff_left ?_).symm
    rintro ⟨w, rfl, -⟩
    exact lt_irrefl _ (lt_string_append hlt w)
  rcases lt_or_gt_of_ne h with hlt | hlt
  · exact key hlt
  · rw [and_comm, key hlt]
    exact or_comm

/-! ### The pair -/

/-- The pair is where the negotiation `a` is. -/
structure Follows (user : Side → String) (r : RoomId) (s : Pair) (a : Glare.State) : Prop where
  half : ∀ x : Side, Half (s.node x) (user x) (user x.other ++ r) r
  ends : ∀ x : Side, (s.node x).endOf (user x.other ++ r) = a.ends x
  wire : List.Forall₂ (fun p q => p.1 = q.1 ∧ p.2.Means (user p.1.other) r q.2) s.wire a.wire
  seen : s.seen = a.seen

/-- The node that is to offer has the smaller id, against the other's with the room appended. -/
def offers (user : Side → String) (r : RoomId) (x : Side) : Bool :=
  decide (user x < user x.other ++ r)

section Simulation

variable {user : Side → String} {r : RoomId} {s : Pair} {a : Glare.State}

variable (user r) in
theorem follows_start (hasher : String → Hash) (junk : ℕ → Hash) :
    Follows user r (.start user hasher junk r) Glare.start := by
  have hjoin : ∀ x, (Pair.start user hasher junk r).node x =
      { Node.new (user x) hasher with
        rooms := [r]
        callbacksMutexes := (∅ : PointerCollection Unit).insertIfNew r ()
        peersInLvlMutexes := (∅ : PointerCollection Unit).insertIfNew r ()
        roomManager := (∅ : PointerCollection RoomUnit).insertIfNew r (createRoomUnit junk)
        sigConn := [.joinRoom r] } := fun _ => rfl
  refine ⟨fun x => ⟨(Node.new_shape _ _).joinRoomWS r junk, rfl, rfl, ?_, ?_⟩, fun x => ?_, .nil, rfl⟩
  · rw [hjoin]
    exact List.mem_singleton_self r
  · rw [hjoin]
    exact fun _ _ hp => nomatch hp
  · rw [hjoin]
    exact endOf_of_new Std.ExtTreeMap.not_mem_empty

/-- A node that responds moves the pair as its end moves the negotiation. -/
theorem Follows.act {x : Side} {n' : Node} {res : Glare.End × List Glare.Signal}
    {wire : List (Side × SigEvent)} {wire' : List (Side × Glare.Signal)} {seen seen' : Side → Bool}
    (h : Follows user r s a) (hn : Responds (s.node x) n' (user x) (user x.other ++ r) r res)
    (hw : List.Forall₂ (fun p q => p.1 = q.1 ∧ p.2.Means (user p.1.other) r q.2) wire wire')
    (hseen : seen = seen') : Follows user r (Pair.act { s with wire := wire, seen := seen } x n')
      { ends := Function.update a.ends x res.1
        wire := wire' ++ res.2.map (Prod.mk x.other)
        seen := seen' } := by
  obtain ⟨half, hend, acts, hacts, hsent⟩ := hn
  refine ⟨fun y => ?_, fun y => ?_, List.rel_append hw ?_, hseen⟩
  · by_cases hy : y = x
    · subst hy
      simpa [Pair.act] using half
    · simpa [Pair.act, Function.update_of_ne hy] using h.half y
  · by_cases hy : y = x
    · subst hy
      simpa [Pair.act] using hend
    · simpa [Pair.act, Function.update_of_ne hy] using h.ends y
  · simp only [hacts, List.drop_left, (h.half x).user_eq]
    rw [List.forall₂_map_left_iff, List.forall₂_map_right_iff]
    exact hsent.imp fun _ _ hm => ⟨rfl, by simpa using hm⟩

theorem means_isPresence {v : String} {m : SigEvent} {q : Glare.Signal} (h : m.Means v r q) :
    m.isPresence = true ↔ q = .presence := by
  cases h <;> simp [SigEvent.isPresence, SignalingConn.onPeerConnected]

theorem SigEvent.Means.unique {v : String} {m : SigEvent} {q q' : Glare.Signal}
    (h : m.Means v r q) (h' : m.Means v r q') : q = q' := by
  cases h <;> cases h' <;> rfl

theorem Follows.announce (h : Follows user r s a) (x : Side) : Follows user r
    { s with wire := s.wire ++ [(x.other, SignalingConn.onPeerConnected ⟨(s.node x).user, ""⟩ r)] }
    { a with wire := a.wire ++ [(x.other, .presence)] } := by
  refine ⟨h.half, h.ends, List.rel_append h.wire (.cons ⟨rfl, ?_⟩ .nil), h.seen⟩
  simpa [(h.half x).user_eq] using SigEvent.Means.presence

theorem Follows.deliver (h : Follows user r s a) {x : Side} {m : SigEvent}
    (l₁ l₂ : List (Side × SigEvent)) (hw : s.wire = l₁ ++ (x, m) :: l₂) :
    ∃ q a', m.Means (user x.other) r q ∧ Glare.Step (offers user r) a (.deliver x q) a' ∧
      a'.ends = Function.update a.ends x ((a.ends x).take (offers user r x) q).1 ∧
      Follows user r ({ s with
        wire := l₁ ++ l₂
        seen := if m.isPresence then Function.update s.seen x true else s.seen }.act x
          ((s.node x).signal m).1) a' := by
  obtain ⟨l₁', ⟨y, q⟩, l₂', hw', h₁, ⟨rfl, hmeans⟩, h₂⟩ := Lts.forall₂_split (hw ▸ h.wire)
  have hspec := signal_spec (h.half x) hmeans
  rw [h.ends] at hspec
  refine ⟨q, _, hmeans, .deliver l₁' x q l₂' hw', rfl, h.act hspec (List.rel_append h₁ h₂) ?_⟩
  simp only [means_isPresence hmeans, h.seen]

/-- **The pair is simulated by the negotiation.** -/
theorem PairStep.follows {s' : Pair} {e : PairEvent} (h : Follows user r s a)
    (hs : PairStep r s e s') : ∃ e' a', Glare.Step (offers user r) a e' a' ∧
      Follows user r s' a' := by
  cases hs with
  | announce x => exact ⟨_, _, .announce x, h.announce x⟩
  | deliver l₁ x m l₂ hw =>
    obtain ⟨q, a', -, hstep, -, hf⟩ := h.deliver l₁ l₂ hw
    exact ⟨_, a', hstep, hf⟩
  | onSuccess x conn p sdp hp hc =>
    obtain ⟨type, rest, hcr⟩ := List.exists_cons_of_ne_nil hc
    obtain ⟨hpend, hspec⟩ := onSuccess_spec (h.half x) hp hcr sdp
    rw [h.ends] at hpend hspec
    exact ⟨_, _, .create x type.role _ hpend, h.act hspec h.wire h.seen⟩

theorem Follows.role_iff (h : Follows user r s a) (x : Side) (mode : Mode) :
    (s.node x).Holds (user x.other ++ r) mode ↔ (a.ends x).role = some mode.role := by
  rw [← h.ends x]
  constructor
  · rintro ⟨conn, p, hreg, hp, rfl⟩
    rw [endOf_of_registered hreg hp]
    rfl
  · intro hr
    rcases (h.half x).cases with ⟨-, hend⟩ | ⟨conn, p, hreg, hp, hend⟩
    · rw [hend] at hr
      cases hr
    · refine ⟨conn, p, hreg, hp, ?_⟩
      rw [hend] at hr
      have hrole : p.mode.role = mode.role := Option.some.inj hr
      revert hrole
      cases p.mode <;> cases mode <;> simp [Mode.role]

theorem Follows.settled (h : Follows user r s a) (hs : s.Settled) : a.Settled := by
  refine ⟨?_, fun x => ?_⟩
  · have := h.wire
    rw [hs.1] at this
    exact List.forall₂_nil_left_iff.mp this
  · rw [← h.ends x]
    rcases (h.half x).cases with ⟨-, hend⟩ | ⟨conn, p, -, hp, hend⟩
    · rw [hend]
    · rw [hend, Peer.toEnd, hs.2 x conn p hp]
      rfl

end Simulation

section Runs

variable {user : Side → String} {r : RoomId} (hasher : String → Hash) (junk : ℕ → Hash)

/-- Without a clash, exactly one node is to offer. -/
theorem exists_offers (hne : user .left ≠ user .right)
    (hc : ¬ Clash (user .left) (user .right) r) :
    ∃ x : Side, offers user r x = true ∧ offers user r x.other = false := by
  rw [← clash_iff hne] at hc
  simp only [offers, decide_eq_true_eq, decide_eq_false_iff_not]
  rcases lt_or_lt hne r with h | h
  · exact ⟨.left, h, fun h' => hc ⟨h, h'⟩⟩
  · exact ⟨.right, h, fun h' => hc ⟨h', h⟩⟩

/-- The presences cross: both nodes offer. -/
theorem run_bothOffer (hl : user .left < user .right ++ r) (hr : user .right < user .left ++ r) :
    ∃ tr s, Lts.Run (PairStep r) (.start user hasher junk r) tr s ∧ s.BothOffer user r := by
  have h₂ := ((follows_start user r hasher junk).announce .left).announce .right
  have hrun := (Lts.Run.single (PairStep.announce (r := r) (s := .start user hasher junk r)
    .left)).snoc (.announce .right)
  obtain ⟨q, a₃, hq, -, hends₃, h₃⟩ := h₂.deliver [] _ rfl
  obtain rfl := hq.unique .presence
  have hrun := hrun.snoc (.deliver [] _ _ _ rfl)
  obtain ⟨q, a₄, hq, -, hends₄, h₄⟩ := h₃.deliver (x := .left) [] _ rfl
  obtain rfl := hq.unique .presence
  refine ⟨_, _, hrun.snoc (.deliver [] _ _ _ rfl), fun x => (h₄.role_iff x .offer).mpr ?_⟩
  rw [hends₄, hends₃]
  cases x with
  | left => simp [Glare.start, Glare.End.take, offers, Side.other, hl, Mode.role]
  | right => simp [Glare.start, Glare.End.take, offers, Side.other, hr, Mode.role]

/-- **The negotiation never fails if and only if the user ids do not clash**: there are never two
offering nodes, and what has started and is settled has one offering and one answering node. -/
theorem offer_iff (hne : user .left ≠ user .right) :
    (∀ tr s, Lts.Run (PairStep r) (.start user hasher junk r) tr s → ¬ s.BothOffer user r ∧
      (s.Settled → (∃ x, s.seen x = true) → s.OneOffers user r)) ↔
        ¬ Clash (user .left) (user .right) r := by
  constructor
  · intro hall hc
    obtain ⟨hl, hr⟩ := (clash_iff hne r).mpr hc
    obtain ⟨tr, s, hrun, hboth⟩ := run_bothOffer hasher junk hl hr
    exact (hall tr s hrun).1 hboth
  · intro hc tr s hrun
    obtain ⟨x, hx, hy⟩ := exists_offers hne hc
    obtain ⟨tr', a, hrun', hf, -⟩ := hrun.simulate (E := fun _ _ => True)
      (follows_start user r hasher junk) fun s e s' a hf hs => by
        obtain ⟨e', a', hstep, hf'⟩ := PairStep.follows hf hs
        exact ⟨e', a', trivial, hstep, hf'⟩
    have hagreed := Glare.run_agreed hx hy hrun'
    refine ⟨fun hboth => hagreed.not_both fun y => (hf.role_iff y .offer).mp (hboth y), ?_⟩
    rintro hs ⟨y, hseen⟩
    rw [hf.seen] at hseen
    obtain ⟨h₁, h₂⟩ := hagreed.settled (hf.settled hs) hseen
    refine ⟨x, (hf.role_iff x .offer).mpr h₁, ?_⟩
    have := (hf.role_iff x.other .answer).mpr h₂
    rwa [Glare.Side.other_other] at this

end Runs

/-- Two user ids of which neither continues the other. -/
def apart : Side → String
  | .left => "alice"
  | .right => "bob"

theorem apart_offer_iff :
    (∀ tr s, Lts.Run (PairStep "r") (.start apart String.length (fun _ => 0) "r") tr s →
      ¬ s.BothOffer apart "r" ∧
        (s.Settled → (∃ x, s.seen x = true) → s.OneOffers apart "r")) ↔
          ¬ Clash "alice" "bob" "r" :=
  offer_iff String.length (fun _ => 0) (by decide)

/-- A user id, and one that continues it. -/
def nested : Side → String
  | .left => "a"
  | .right => "ab"

/-- In the room `z`, `a` is smaller than `abz` and `ab` smaller than `az`. -/
theorem nested_bothOffer : ∃ tr s,
    Lts.Run (PairStep "z") (.start nested String.length (fun _ => 0) "z") tr s ∧
      nested .left ≠ nested .right ∧ s.BothOffer nested "z" := by
  obtain ⟨tr, s, hrun, hboth⟩ := @run_bothOffer nested "z" String.length (fun _ => 0) (by decide)
    (by decide)
  exact ⟨tr, s, hrun, by decide, hboth⟩

end Yamb
