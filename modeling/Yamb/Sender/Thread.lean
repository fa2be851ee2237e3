import Yamb.Lib.Lts
import Yamb.Node.Registry
import Yamb.Node.Sender

/-!
# The sender thread and its producers

* `ThreadEvent`, `ThreadStep`: the steps of a node that push tasks, take them, wake the thread, or
  open and close data channels;
* `Lost`: the thread sleeps, a task is queued, and no notification is outstanding;
* `Forwards`, `SilentPush`: a relayed message is pushed while the thread sleeps;
* **`run_not_lost_iff`**: no wake-up is lost exactly as long as no push is silent.
-/

set_option autoImplicit false

namespace Yamb

/-- The data channels open and close; an iteration is labelled with the channels it found and with
what it sent. -/
inductive ThreadEvent
  | broadcast2Room (roomId : RoomId) (j : String) (t : MessageType) (except : PeerId) (now : ℕ)
  | send2client (peerId : PeerId) (roomId : RoomId) (j : String) (t : MessageType) (now : ℕ)
  | receive (m : Msg) (now : ℕ)
  | iterate (heap : Ptr → Option Peer) (sends : List Send)
  | wake
  | channels (heap : Ptr → Option Peer)

/-- The same peers are live, under the same ids. -/
def SamePeers (heap heap' : Ptr → Option Peer) : Prop :=
  ∀ p, (heap' p).map Peer.peerid = (heap p).map Peer.peerid

/-- A sleeping thread takes no step until it is woken, by `notify_all` or spuriously. -/
inductive ThreadStep (n : Node) : ThreadEvent → Node → Prop
  | broadcast2Room (roomId : RoomId) (j : String) (t : MessageType) (except : PeerId) (now : ℕ) :
      ThreadStep n (.broadcast2Room roomId j t except now) (n.broadcast2Room roomId j t except now).1
  | send2client (peerId : PeerId) (roomId : RoomId) (j : String) (t : MessageType) (now : ℕ) :
      ThreadStep n (.send2client peerId roomId j t now) (n.send2client peerId roomId j t now).1
  | receive (m : Msg) (now : ℕ) (hm : m.type = .logic) :
      ThreadStep n (.receive m now) (n.handleWebrtcNodeMessageLogic (Message.parse m) now).1
  | iterate (hn : n.sender = .running ∨ n.sender = .woken) :
      ThreadStep n (.iterate n.heap n.senderIteration.2) n.senderIteration.1
  | wake (hn : n.sender = .waiting) : ThreadStep n .wake { n with sender := .woken }
  | channels (heap : Ptr → Option Peer) (h : SamePeers n.heap heap) :
      ThreadStep n (.channels heap) { n with heap := heap }

namespace Node

/-- The thread is blocked in `_cvsMq.wait`, a task is queued, and no notification is outstanding. -/
def Lost (n : Node) : Prop := n.sender = .waiting ∧ n.sMq ≠ []

/-- A user message that is new in a joined room and not addressed to this node. -/
def Forwards (n : Node) (p : Message) : Prop :=
  ∃ RU, n.roomManager[p.roomId]? = some RU ∧ RU.logicMsgHashesBuffer.isExists p.hash = false ∧
    p.json.to'.map cstr ≠ some (n.myIdInRoom p.roomId)

/-- A relayed message is pushed while the thread sleeps. -/
def SilentPush (n : Node) : ThreadEvent → Prop
  | .receive m _ => n.sender = .waiting ∧ n.Forwards (Message.parse m)
  | _ => False

theorem notifyAll_sender_ne_waiting (n : Node) : n.notifyAll.sender ≠ .waiting := by
  unfold notifyAll
  split_ifs with h
  · exact SenderState.noConfusion
  · exact h

theorem not_lost_queueOwn (n : Node) (RU : RoomUnit) (roomId : RoomId) (task : SendMsgT) :
    ¬ (n.queueOwn RU roomId task).Lost :=
  fun h => notifyAll_sender_ne_waiting _ h.1

theorem broadcast2Room_not_lost {n : Node} (hn : ¬ n.Lost) (roomId : RoomId) (j : String)
    (t : MessageType) (except : PeerId) (now : ℕ) :
    ¬ (n.broadcast2Room roomId j t except now).1.Lost := by
  unfold broadcast2Room
  split
  · exact hn
  · exact not_lost_queueOwn _ _ _ _

theorem send2client_not_lost {n : Node} (hn : ¬ n.Lost) (peerId : PeerId) (roomId : RoomId)
    (j : String) (t : MessageType) (now : ℕ) :
    ¬ (n.send2client peerId roomId j t now).1.Lost := by
  unfold send2client
  split
  · exact hn
  · exact not_lost_queueOwn _ _ _ _

@[simp] theorem handleWebrtcNodeMessageLogic_sender (n : Node) (p : Message) (now : ℕ) :
    (n.handleWebrtcNodeMessageLogic p now).1.sender = n.sender := by
  unfold handleWebrtcNodeMessageLogic
  split
  · rfl
  · split_ifs
    · rfl
    · split
      · split_ifs <;> rfl
      · rfl

/-- An incoming user message is pushed on exactly when it is to be forwarded. -/
theorem handleWebrtcNodeMessageLogic_pushes_iff (n : Node) (p : Message) (now : ℕ) :
    (n.handleWebrtcNodeMessageLogic p now).1.sMq ≠ n.sMq ↔ n.Forwards p := by
  unfold handleWebrtcNodeMessageLogic Forwards
  cases hRU : n.roomManager[p.roomId]? with
  | none => simp
  | some RU =>
    by_cases hseen : RU.logicMsgHashesBuffer.isExists p.hash = true
    · simp [hseen]
    · cases hto : p.json.to' with
      | none => simp [hseen]
      | some to' =>
        by_cases hme : cstr to' = n.myIdInRoom p.roomId
        · simp [hseen, hme]
        · simp [hseen, hme]

theorem senderIteration_not_lost {n : Node} (hn : n.sender = .running ∨ n.sender = .woken) :
    ¬ n.senderIteration.1.Lost := by
  have hne : n.sender ≠ .waiting := by rcases hn with hn | hn <;> simp [hn]
  unfold senderIteration
  split
  · rintro ⟨-, hq⟩
    exact hq ‹_›
  · split_ifs
    · exact fun h => SenderState.noConfusion h.1
    · split
      · exact fun h => SenderState.noConfusion h.1
      · split <;> exact fun h => SenderState.noConfusion h.1

end Node

/-- One step loses a wake-up exactly when it is a silent push. -/
theorem step_lost_iff {n n' : Node} {e : ThreadEvent} (hn : ¬ n.Lost) (h : ThreadStep n e n') :
    n'.Lost ↔ n.SilentPush e := by
  cases h with
  | broadcast2Room roomId j t except now =>
    exact iff_of_false (Node.broadcast2Room_not_lost hn _ _ _ _ _) id
  | send2client peerId roomId j t now =>
    exact iff_of_false (Node.send2client_not_lost hn _ _ _ _ _) id
  | receive m now hm =>
    rw [Node.Lost, Node.handleWebrtcNodeMessageLogic_sender, Node.SilentPush,
      ← Node.handleWebrtcNodeMessageLogic_pushes_iff n (Message.parse m) now]
    refine and_congr_right fun hw => ?_
    have hempty : n.sMq = [] := by
      by_contra hq
      exact hn ⟨hw, hq⟩
    rw [hempty]
  | iterate hs => exact iff_of_false (Node.senderIteration_not_lost hs) id
  | wake hs => exact iff_of_false (fun h => SenderState.noConfusion h.1) id
  | channels heap hh => exact iff_of_false hn id

theorem ThreadStep.deterministic {n n₁ n₂ : Node} {e : ThreadEvent} (h₁ : ThreadStep n e n₁)
    (h₂ : ThreadStep n e n₂) : n₁ = n₂ := by
  cases h₁ <;> cases h₂ <;> rfl

/-- **No wake-up is lost as long as no push is silent, and only then.** -/
theorem run_not_lost_iff {n₀ n : Node} {tr : List ThreadEvent} (h₀ : n₀.sender = .running) :
    Lts.Run (Lts.Surely ThreadStep fun n => ¬ n.Lost) n₀ tr n ↔
      Lts.Run (Lts.Only ThreadStep fun n e => ¬ n.SilentPush e) n₀ tr n := by
  refine Lts.run_surely_iff (I := fun n => ¬ n.Lost) (fun h => ?_) ?_ ?_
  · exact SenderState.noConfusion (h₀.symm.trans h.1)
  · intro n e n' hn hs
    rw [← step_lost_iff hn hs]
    constructor
    · exact fun h => h n' hs
    · rintro h t ht
      rwa [← hs.deterministic ht]
  · intro n e n' hn hs hq
    rwa [step_lost_iff hn hs]

/-- A node in one room, and a message of another node for that room. -/
def listener : Node := (Node.new "u" String.length).joinRoomWS "r" fun _ => 0

def hello : Msg where
  roomId := "r"
  from' := "vr"
  to' := none
  type := .logic
  msgId := 1
  data := "hi"
  hash := 7

/-- The thread that has gone to sleep. -/
def asleep : Node := listener.senderIteration.1

/-- A message of the node itself is pushed, and the thread is notified. -/
def notified : Node := (asleep.broadcast2Room "r" "hi" .logic "" 1).1

theorem run_not_lost_of_push : asleep.sender = .waiting ∧ notified.sMq ≠ [] ∧
    Lts.Run (Lts.Surely ThreadStep fun n => ¬ n.Lost) listener
      [.iterate listener.heap listener.senderIteration.2, .broadcast2Room "r" "hi" .logic "" 1,
        .iterate notified.heap notified.senderIteration.2] notified.senderIteration.1 := by
  refine ⟨rfl, by decide, (run_not_lost_iff rfl).mpr ?_⟩
  have h₁ : Lts.Run (Lts.Only ThreadStep fun n e => ¬ n.SilentPush e) listener
      [.iterate listener.heap listener.senderIteration.2] asleep := .single ⟨.iterate (.inl rfl), id⟩
  have h₂ := h₁.snoc ⟨.broadcast2Room (n := asleep) "r" "hi" .logic "" 1, id⟩
  exact h₂.snoc ⟨.iterate (n := notified) (.inr rfl), id⟩

/-- The thread goes to sleep, and the message that arrives is pushed without waking it. -/
theorem exists_lost : ∃ tr n, Lts.Run ThreadStep listener tr n ∧ n.Lost :=
  ⟨_, _, (Lts.Run.single (.iterate (.inl rfl))).snoc (.receive hello 2 rfl), by decide, by decide⟩

end Yamb
