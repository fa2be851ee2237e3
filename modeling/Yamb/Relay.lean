import Yamb.Lib.Lts
import Yamb.Node.Registry

/-!
# Chains of relays

A relay does not forward the bytes it received: it builds the message anew with `formMessage` and
puts the received hash back.

* `Node.Originates`, `Node.Relays`, `relayStep`: a message of its own, one relay, a chain of them;
* `relay_carries`: what no chain changes;
* `relay_snoc_eq`: the message after at least one relay;
* `relay_eq_iff`: when the message that arrives is the message that was sent.
-/

set_option autoImplicit false

namespace Yamb

namespace Node

/-- `n` queues `m` as a user message of its own. -/
inductive Originates (n : Node) : Msg → Prop
  | broadcast2Room (roomId : RoomId) (j : String) (except : PeerId) (now : ℕ) (task : SendMsgT)
      (h : (n.broadcast2Room roomId j .logic except now).1.sMq = n.sMq ++ [task]) :
      Originates n task.msg
  | send2client (peerId : PeerId) (roomId : RoomId) (j : String) (now : ℕ) (task : SendMsgT)
      (h : (n.send2client peerId roomId j .logic now).1.sMq = n.sMq ++ [task]) :
      Originates n task.msg

/-- `n` receives the user message `m` at clock `now` and queues `m'` for it. -/
def Relays (n : Node) (now : ℕ) (m m' : Msg) : Prop :=
  m.type = .logic ∧ ∃ task : SendMsgT,
    (n.handleWebrtcNodeMessageLogic (Message.parse m) now).1.sMq = n.sMq ++ [task] ∧ task.msg = m'

theorem Originates.from_eq {n : Node} {m : Msg} (h : n.Originates m) :
    m.from' = n.myIdInRoom m.roomId := by
  cases h with
  | broadcast2Room roomId j except now task h =>
    unfold Node.broadcast2Room at h
    split at h
    · simp at h
    · simp only [queueOwn, notifyAll_sMq, push_sMq, setRoom_sMq, List.append_cancel_left_eq,
        List.cons.injEq, and_true] at h
      subst h
      rfl
  | send2client peerId roomId j now task h =>
    unfold Node.send2client at h
    split at h
    · simp at h
    · simp only [queueOwn, notifyAll_sMq, push_sMq, setRoom_sMq, List.append_cancel_left_eq,
        List.cons.injEq, and_true] at h
      subst h
      rfl

theorem Relays.eq {n : Node} {now : ℕ} {m m' : Msg} (h : n.Relays now m m') :
    m' = n.relayMessage (Message.parse m) now := by
  obtain ⟨-, task, hq, rfl⟩ := h
  rcases n.handleWebrtcNodeMessageLogic_sMq (Message.parse m) now with h | ⟨type, h⟩
  · rw [h] at hq
    simp at hq
  · rw [h] at hq
    simp only [List.append_cancel_left_eq, List.cons.injEq, and_true] at hq
    rw [← hq]

end Node

/-- One relay; a chain of relays is an `Lts.Run` of it. -/
def relayStep (m : Msg) (relay : Node × ℕ) (m' : Msg) : Prop := relay.1.Relays relay.2 m m'

/-- `m` agrees with `m₀` on hash and type, and on the other texts up to their first NUL. -/
structure Carries (m₀ m : Msg) : Prop where
  hash : m.hash = m₀.hash
  type : m.type = m₀.type
  roomId : cstr m.roomId = cstr m₀.roomId
  to' : m.to'.map cstr = m₀.to'.map cstr
  data : cstr m.data = cstr m₀.data

theorem Carries.relayMessage {m₀ m : Msg} (h : Carries m₀ m) (n : Node) (now : ℕ) :
    n.relayMessage (Message.parse m) now =
      { roomId := cstr m₀.roomId
        from' := n.myIdInRoom (cstr m₀.roomId)
        to' := m₀.to'.map cstr
        type := m₀.type
        msgId := now
        data := cstr m₀.data
        hash := m₀.hash } := by
  rw [Node.relayMessage_eq]
  simp only [Message.parse, h.hash, h.type, h.roomId, h.to', h.data]

/-- **Hash and type survive every chain**, and the texts survive up to their first NUL. -/
theorem relay_carries {m₀ m : Msg} {chain : List (Node × ℕ)}
    (h : Lts.Run relayStep m₀ chain m) : Carries m₀ m := by
  refine h.invariant ⟨rfl, rfl, rfl, rfl, rfl⟩ fun m e m' hm hs => ?_
  rw [hs.eq, hm.relayMessage]
  exact ⟨rfl, rfl, cstr_cstr _, by simp [Function.comp_def, cstr_cstr], cstr_cstr _⟩

/-- After at least one relay, sender and time stamp are those of the last relay. -/
theorem relay_snoc_eq {m₀ m : Msg} {chain : List (Node × ℕ)} {n : Node} {now : ℕ}
    (h : Lts.Run relayStep m₀ (chain ++ [(n, now)]) m) :
    m = { roomId := cstr m₀.roomId
          from' := n.myIdInRoom (cstr m₀.roomId)
          to' := m₀.to'.map cstr
          type := m₀.type
          msgId := now
          data := cstr m₀.data
          hash := m₀.hash } := by
  obtain ⟨m', hrun, hs⟩ := h.snoc_inv
  rw [hs.eq]
  exact (relay_carries hrun).relayMessage n now

/-- The last relay of the chain, if any, goes by the user id and the clock of the message, and no
text of the message holds a NUL. -/
def Unaltered (user : String) (m₀ : Msg) (chain : List (Node × ℕ)) : Prop :=
  ∀ r ∈ chain.getLast?, r.1.user = user ∧ r.2 = m₀.msgId ∧ cstr m₀.roomId = m₀.roomId ∧
    m₀.to'.map cstr = m₀.to' ∧ cstr m₀.data = m₀.data

/-- **A message arrives as it was sent if and only if** it was not relayed, or its last relay has
the user id of the originator, reads the same millisecond, and finds no NUL in it. -/
theorem relay_eq_iff {n₀ : Node} {m₀ m : Msg} {chain : List (Node × ℕ)} (h₀ : n₀.Originates m₀)
    (h : Lts.Run relayStep m₀ chain m) : m = m₀ ↔ Unaltered n₀.user m₀ chain := by
  rcases List.eq_nil_or_concat' chain with rfl | ⟨chain, ⟨n, now⟩, rfl⟩
  · simp [Unaltered, h.nil_inv]
  · have hfrom := h₀.from_eq
    rw [relay_snoc_eq h]
    simp only [Unaltered, List.getLast?_append, List.getLast?_singleton, Option.some_or,
      Option.mem_some_iff, forall_eq']
    constructor
    · intro heq
      have hroom : cstr m₀.roomId = m₀.roomId := congrArg Msg.roomId heq
      refine ⟨?_, congrArg Msg.msgId heq, hroom, congrArg Msg.to' heq, congrArg Msg.data heq⟩
      have huser : n.myIdInRoom (cstr m₀.roomId) = m₀.from' := congrArg Msg.from' heq
      rw [hfrom, hroom] at huser
      exact String.append_left_inj _ |>.mp huser
    · rintro ⟨huser, rfl, hroom, hto, hdata⟩
      simp only [hroom, hto, hdata, Node.myIdInRoom, huser]
      rw [← Node.myIdInRoom, ← hfrom]

/-- Two nodes in one room. -/
def originator : Node := (Node.new "u" String.length).joinRoomWS "r" fun _ => 0

def relayer : Node := (Node.new "v" String.length).joinRoomWS "r" fun _ => 0

/-- What the first one sends, and what the second one makes of it, in the same millisecond. -/
def sent : Msg := originator.formMessage "hi" .logic "r" 1

def relayed : Msg := relayer.relayMessage (Message.parse sent) 1

theorem originator_sent : originator.Originates sent :=
  .broadcast2Room "r" "hi" "" 1 ⟨.broadcast, "", sent⟩ rfl

theorem relayer_relays : Lts.Run relayStep sent [(relayer, 1)] relayed :=
  .single ⟨rfl, ⟨.broadcast, "", relayed⟩, rfl, rfl⟩

theorem relayed_eq_iff : relayed = sent ↔ Unaltered "u" sent [(relayer, 1)] :=
  relay_eq_iff originator_sent relayer_relays

/-- After one relay the message no longer names its originator. -/
theorem exists_altered : ∃ n₀ m₀ chain m, Node.Originates n₀ m₀ ∧ Lts.Run relayStep m₀ chain m ∧
    m.from' ≠ m₀.from' :=
  ⟨originator, sent, [(relayer, 1)], relayed, originator_sent, relayer_relays, by decide⟩

end Yamb
