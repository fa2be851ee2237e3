import Yamb.Node.Registry

/-!
# Signalling: presences, descriptions and candidates

* `SigEvent`, `SignalingConn.onMessage`, `SignalingConn.onPeerConnected`: what a message or a
  presence from the signaller becomes;
* `onPeerConnectedSignaler`, `onSDPOffer`, `onSDPAnswer`, `recvSDP`: what a node does with it;
* `sdpMessage`, `sendSDP`, `onSuccess`: a local description that has been created is posted.

Descriptions and candidates are taken to be well formed: those that WebRTC rejects end the process.
-/

set_option autoImplicit false

namespace Yamb

/-- The signals of a `SignalingConn`, with the members of the `SigMessage` that are set. -/
inductive SigEvent
  | iceCandidateIncome (from' : PeerId) (roomId : RoomId) (data : Candidate)
  | sdpOfferIncome (from' : PeerId) (roomId : RoomId) (data : String)
  | sdpAnswerIncome (from' : PeerId) (roomId : RoomId) (data : String)
  | peerConnected (from' : PeerId) (roomId : RoomId) (peer : Address)
  deriving DecidableEq

namespace SignalingConn

/-- A message of `user`: the member `candidate`, `offer` or `answer` is taken out of it. The member
`candidates` is not read. -/
def onMessage (user : String) (roomId : RoomId) : SigBody → SigEvent
  | .candidate candidate _ => .iceCandidateIncome (user ++ roomId) roomId candidate
  | .sdp .offer sdp _ => .sdpOfferIncome (user ++ roomId) roomId sdp
  | .sdp .answer sdp _ => .sdpAnswerIncome (user ++ roomId) roomId sdp

/-- A presence of `peer` for a room. -/
def onPeerConnected (peer : Address) (roomId : RoomId) : SigEvent :=
  .peerConnected (peer.user ++ roomId) roomId peer

end SignalingConn

/-- `json` of `sendSDP`: the candidates gathered so far go along. -/
def Peer.sdpMessage (p : Peer) (type : SdpType) (sdp : String) : SigBody :=
  .sdp type sdp p.remoteCandidates

namespace Node

def onPeerConnectedSignaler (n : Node) (from' : PeerId) (roomId : RoomId) (peer : Address) :
    Node × Except Fault Unit :=
  if n.stopping then (n, .ok ())
  else if from' ∈ n.peerManager then (n, .ok ())
  else ((n.createPCOf peer roomId).1, (n.createPCOf peer roomId).2.map fun _ => ())

/-- `recvSDP`: an offer asks WebRTC for an answer. -/
def recvSDP (n : Node) (token : PeerId) (type : SdpType) : Node :=
  match n.peerManager[token]? with
  | none => n
  | some conn =>
    match n.heap conn, type with
    | some p, .offer => n.setPeer conn { p with creating := p.creating ++ [.answer] }
    | _, _ => n

def onSDPOffer (n : Node) (from' : PeerId) (roomId : RoomId) : Node × Except Fault Unit :=
  if n.stopping then (n, .ok ())
  else
    match n.createPC from' .answer roomId with
    | (n', .error f) => (n', .error f)
    | (n', .ok false) => (n', .ok ())
    | (n', .ok true) => (n'.recvSDP from' .offer, .ok ())

def onSDPAnswer (n : Node) (from' : PeerId) : Node :=
  if n.stopping then n else n.recvSDP from' .answer

def sendSDP (n : Node) (conn : Ptr) (p : Peer) (type : SdpType) (sdp : String) : Node :=
  if n.stopping then n
  else
    let posted : Node := { n with
      sigConn := n.sigConn ++ [.postMessage p.peerid p.lastRoom (p.sdpMessage type sdp)] }
    posted.setPeer conn { p with sentSDP := true }

/-- `Peer::OnSuccess`: the first description asked of WebRTC has been created. -/
def onSuccess (n : Node) (conn : Ptr) (sdp : String) : Node :=
  match n.heap conn with
  | none => n
  | some p =>
    match p.creating with
    | [] => n
    | type :: creating => n.sendSDP conn { p with creating := creating } type sdp

/-- A node takes a signal. The calls of `recvCandidate` are not followed any further. -/
def signal (n : Node) : SigEvent → Node × Except Fault Unit
  | .iceCandidateIncome _ _ _ => (n, .ok ())
  | .sdpOfferIncome from' roomId _ => n.onSDPOffer from' roomId
  | .sdpAnswerIncome from' _ _ => (n.onSDPAnswer from', .ok ())
  | .peerConnected from' roomId peer => n.onPeerConnectedSignaler from' roomId peer

end Node

end Yamb
