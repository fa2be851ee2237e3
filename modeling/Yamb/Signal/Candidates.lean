import Yamb.Lib.Lts
import Yamb.Node.Signalling

/-!
# The way of an ICE candidate

The calls `sendSDP` and `sendCandidate` of one peer, with their sub-steps interleaved, and the
remote node that takes what the signaller delivers.

* `Outgoing`, `OutEvent`, `OutStep`: a peer, the calls under way, the messages posted, and the
  candidates that WebRTC produced and that reached `recvCandidate`;
* `OutStep.conserved`: every candidate is on its way, has arrived, or is kept in `remoteCandidates`;
* **`run_received_iff`**: all of them arrive exactly when none is produced before `sentSDP` is set.
-/

set_option autoImplicit false

namespace Yamb

/-- How far the one `sendSDP` has come. -/
inductive SendSDP
  | before | built (m : SigBody) | posted | after

/-- `loaded` lists the calls of `sendCandidate` that have read `sentSDP`, with what they read. -/
structure Outgoing where
  peer : Peer
  sdp : SendSDP
  loaded : List (Candidate × Bool)
  posted : List SigBody
  produced : List Candidate
  received : List Candidate

inductive OutEvent
  | onIceCandidate (c : Candidate)
  | sendCandidate (c : Candidate)
  | buildSDP (type : SdpType) (sdp : String)
  | postSDP
  | storeSentSDP
  | deliver (m : SigBody)

/-- The calls of the remote node's `recvCandidate` that a signal leads to. -/
def SigEvent.recvCandidate : SigEvent → List Candidate
  | .iceCandidateIncome _ _ data => [data]
  | _ => []

/-- The candidates of a posted message that the remote node passes to `recvCandidate`; neither the
sender nor the room makes a difference. -/
def SigBody.recvCandidate (m : SigBody) : List Candidate :=
  (SignalingConn.onMessage "" "" m).recvCandidate

/-- `sendCandidate` after it has read `sentSDP`. -/
def Outgoing.sendCandidate (s : Outgoing) (c : Candidate) (sent : Bool) : Outgoing :=
  if sent then { s with posted := s.posted ++ [.candidate c s.peer.mode] }
  else { s with peer := { s.peer with remoteCandidates := s.peer.remoteCandidates ++ [c] } }

inductive OutStep (s : Outgoing) : OutEvent → Outgoing → Prop
  | onIceCandidate (c : Candidate) : OutStep s (.onIceCandidate c) { s with
      loaded := s.loaded ++ [(c, s.peer.sentSDP)]
      produced := s.produced ++ [c] }
  | sendCandidate (l₁ : List (Candidate × Bool)) (c : Candidate) (sent : Bool)
      (l₂ : List (Candidate × Bool)) (h : s.loaded = l₁ ++ (c, sent) :: l₂) :
      OutStep s (.sendCandidate c) ({ s with loaded := l₁ ++ l₂ }.sendCandidate c sent)
  | buildSDP (type : SdpType) (sdp : String) (h : s.sdp = .before) :
      OutStep s (.buildSDP type sdp) { s with sdp := .built (s.peer.sdpMessage type sdp) }
  | postSDP (m : SigBody) (h : s.sdp = .built m) : OutStep s .postSDP { s with
      posted := s.posted ++ [m]
      sdp := .posted }
  | storeSentSDP (h : s.sdp = .posted) : OutStep s .storeSentSDP { s with
      peer := { s.peer with sentSDP := true }
      sdp := .after }
  | deliver (l₁ : List SigBody) (m : SigBody) (l₂ : List SigBody) (h : s.posted = l₁ ++ m :: l₂) :
      OutStep s (.deliver m) { s with
        posted := l₁ ++ l₂
        received := s.received ++ m.recvCandidate }

namespace Outgoing

/-- A peer that has just been made. -/
def start (peerid : PeerId) (mode : Mode) (lastRoom : RoomId) : Outgoing where
  peer := .new peerid mode lastRoom
  sdp := .before
  loaded := []
  posted := []
  produced := []
  received := []

/-- Every call of `sendCandidate` has returned and every posted message is delivered. -/
def Settled (s : Outgoing) : Prop := s.loaded = [] ∧ s.posted = []

/-- The candidate is produced when `sentSDP` is set. -/
def Late (s : Outgoing) : OutEvent → Prop
  | .onIceCandidate _ => s.peer.sentSDP = true
  | _ => True

instance (s : Outgoing) (e : OutEvent) : Decidable (s.Late e) := by
  cases e <;> unfold Late <;> infer_instance

/-- Every candidate is in a call of `sendCandidate`, in a posted message, received, or kept. -/
def Conserved (s : Outgoing) : Prop :=
  s.produced.Perm (s.received ++ s.posted.flatMap SigBody.recvCandidate ++ s.loaded.map Prod.fst ++
    s.peer.remoteCandidates)

/-- The candidates that are kept or going to be. -/
def lost (s : Outgoing) : ℕ :=
  s.loaded.countP (fun e => !e.2) + s.peer.remoteCandidates.length

end Outgoing

/-- The message with the description hands no candidate on. -/
def Outgoing.Plain (s : Outgoing) : Prop := ∀ m, s.sdp = .built m → m.recvCandidate = []

theorem recvCandidate_candidate (c : Candidate) (mode : Mode) :
    (SigBody.candidate c mode).recvCandidate = [c] := rfl

theorem recvCandidate_sdp (type : SdpType) (sdp : String) (candidates : List Candidate) :
    (SigBody.sdp type sdp candidates).recvCandidate = [] := by
  cases type <;> rfl

theorem OutStep.plain {s s' : Outgoing} {e : OutEvent} (hs : s.Plain) (h : OutStep s e s') :
    s'.Plain := by
  cases h with
  | onIceCandidate c => exact hs
  | sendCandidate l₁ c sent l₂ h =>
    unfold Outgoing.sendCandidate
    split_ifs <;> exact hs
  | buildSDP type sdp h =>
    intro m hm
    obtain rfl := SendSDP.built.inj hm
    exact recvCandidate_sdp _ _ _
  | postSDP m h => exact fun m hm => SendSDP.noConfusion hm
  | storeSentSDP h => exact fun m hm => SendSDP.noConfusion hm
  | deliver l₁ m l₂ h => exact hs

/-- **No candidate vanishes and none is doubled.** -/
theorem OutStep.conserved {s s' : Outgoing} {e : OutEvent} (hp : s.Plain) (hs : s.Conserved)
    (h : OutStep s e s') : s'.Conserved := by
  unfold Outgoing.Conserved at hs ⊢
  rw [List.perm_iff_count] at hs ⊢
  intro a
  have ha := hs a
  cases h with
  | onIceCandidate c =>
    simp only [List.count_append, List.map_append, List.map_cons, List.map_nil] at ha ⊢
    omega
  | sendCandidate l₁ c sent l₂ h =>
    cases sent <;>
    · simp only [Outgoing.sendCandidate, h, List.count_append, List.map_append, List.map_cons,
        List.count_cons, List.flatMap_append, List.flatMap_cons, List.flatMap_nil,
        recvCandidate_candidate, Bool.false_eq_true, if_false, if_true, List.count_nil] at ha ⊢
      omega
  | buildSDP type sdp h => exact ha
  | postSDP m h =>
    simp only [List.flatMap_append, List.flatMap_cons, List.flatMap_nil, hp m h,
      List.append_nil] at ha ⊢
    exact ha
  | storeSentSDP h => exact ha
  | deliver l₁ m l₂ h =>
    simp only [h, List.count_append, List.flatMap_append, List.flatMap_cons] at ha ⊢
    omega

/-- A candidate is lost in the step that produces it too early, and in no other. -/
theorem OutStep.lost {s s' : Outgoing} {e : OutEvent} (h : OutStep s e s') :
    s'.lost = s.lost + if s.Late e then 0 else 1 := by
  unfold Outgoing.lost
  cases h with
  | onIceCandidate c =>
    cases hsent : s.peer.sentSDP <;> simp [Outgoing.Late, hsent, List.countP_append]
    omega
  | sendCandidate l₁ c sent l₂ h =>
    cases sent <;> simp [Outgoing.sendCandidate, Outgoing.Late, h, List.countP_append]
    omega
  | buildSDP type sdp h => simp [Outgoing.Late]
  | postSDP m h => simp [Outgoing.Late]
  | storeSentSDP h => simp [Outgoing.Late]
  | deliver l₁ m l₂ h => simp [Outgoing.Late]

section Runs

variable {peerid : PeerId} {mode : Mode} {lastRoom : RoomId} {tr : List OutEvent} {s : Outgoing}

theorem run_conserved (h : Lts.Run OutStep (.start peerid mode lastRoom) tr s) : s.Conserved :=
  (h.invariant (I := fun s => s.Plain ∧ s.Conserved)
    ⟨fun _ hm => SendSDP.noConfusion hm, .nil⟩
    fun _ _ _ hs he => ⟨he.plain hs.1, he.conserved hs.1 hs.2⟩).2

/-- **Every candidate arrives exactly once if and only if** each is produced after `sendSDP` has set
`sentSDP`. -/
theorem run_received_iff (h : Lts.Run OutStep (.start peerid mode lastRoom) tr s)
    (hs : s.Settled) : s.received.Perm s.produced ↔
      Lts.Run (Lts.Only OutStep Outgoing.Late) (.start peerid mode lastRoom) tr s := by
  have hcons := run_conserved h
  unfold Outgoing.Conserved at hcons
  rw [hs.1, hs.2, List.flatMap_nil, List.map_nil, List.append_nil, List.append_nil] at hcons
  have hlost : s.lost = s.peer.remoteCandidates.length := by simp [Outgoing.lost, hs.1]
  rw [← h.only_iff_measure rfl fun _ _ _ he => he.lost, hlost, List.length_eq_zero_iff]
  constructor
  · intro hperm
    have hlen := hcons.length_eq
    rw [← hperm.length_eq, List.length_append] at hlen
    exact List.eq_nil_of_length_eq_zero (by omega)
  · intro hnil
    rw [hnil, List.append_nil] at hcons
    exact hcons.symm

end Runs

/-- A candidate that is gathered while the description is being created. -/
def candidate : Candidate where
  sdpMid := "data"
  sdpMLineIndex := 0
  sdp := "candidate:1 1 udp 2122260223 10.0.0.1 49152 typ host"

/-- The description is posted first, and the candidate after it. -/
theorem received_after_sdp : ∃ tr s, Lts.Run OutStep (.start "vr" .offer "r") tr s ∧
    s.produced = [candidate] ∧ s.received.Perm s.produced := by
  have hrun := (((((Lts.Run.single (OutStep.buildSDP (s := .start "vr" .offer "r") .offer "v=0"
    rfl)).snoc (.postSDP _ rfl)).snoc (.storeSentSDP rfl)).snoc (.onIceCandidate candidate)).snoc
    (.sendCandidate [] candidate true [] rfl)).snoc (.deliver [] _ _ rfl) |>.snoc (.deliver [] _ _ rfl)
  refine ⟨_, _, hrun, rfl, (run_received_iff hrun ⟨rfl, rfl⟩).mpr ?_⟩
  exact (((((Lts.Run.single ⟨OutStep.buildSDP (s := .start "vr" .offer "r") .offer "v=0"
    rfl, trivial⟩).snoc ⟨.postSDP _ rfl, trivial⟩).snoc ⟨.storeSentSDP rfl, trivial⟩).snoc
    ⟨.onIceCandidate candidate, rfl⟩).snoc ⟨.sendCandidate [] candidate true [] rfl, trivial⟩).snoc
    ⟨.deliver [] _ _ rfl, trivial⟩ |>.snoc ⟨.deliver [] _ _ rfl, trivial⟩

/-- The candidate is gathered before the description is posted: it goes along, and is not read. -/
theorem exists_lost_candidate : ∃ tr s, Lts.Run OutStep (.start "vr" .offer "r") tr s ∧ s.Settled ∧
    s.sdp = .after ∧ s.produced = [candidate] ∧ s.received = [] :=
  ⟨_, _, (((((Lts.Run.single (.onIceCandidate candidate)).snoc
    (.sendCandidate [] candidate false [] rfl)).snoc (.buildSDP .offer "v=0" rfl)).snoc
    (.postSDP _ rfl)).snoc (.storeSentSDP rfl)).snoc (.deliver [] _ [] rfl),
    ⟨rfl, rfl⟩, rfl, rfl, rfl⟩

end Yamb
