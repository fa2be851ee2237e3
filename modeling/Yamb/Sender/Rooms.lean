import Yamb.Sender.Thread

/-!
# Tasks and the rooms they belong to

* `RoomEvent`, `RoomStep`: the steps of `Thread` together with joining and leaving rooms;
* `StaleFree`: every queued task belongs to a joined room;
* `Careful`: a room is left with none of its tasks queued, and without peers;
* `run_staleFree_iff`: careful runs are those that surely stay free of stale tasks;
* **`run_sender_alive`**: in a careful run the sender thread never asks for a room that is gone;
* **`stale_kills`**: a stale task that is left to the sender thread ends it.
-/

set_option autoImplicit false

namespace Yamb

inductive RoomEvent
  | joinRoom (roomId : RoomId) (junk : ℕ → Hash)
  | leaveRoom (roomId : RoomId)
  | thread (e : ThreadEvent)

/-- Where the behaviour of `leaveRoom` is undefined, any node may follow. -/
inductive RoomStep (n : Node) : RoomEvent → Node → Prop
  | joinRoom (roomId : RoomId) (junk : ℕ → Hash) :
      RoomStep n (.joinRoom roomId junk) (n.joinRoom roomId junk)
  | leaveRoom (roomId : RoomId) (h : (n.leaveRoom roomId).2 ≠ .error .useAfterFree) :
      RoomStep n (.leaveRoom roomId) (n.leaveRoom roomId).1
  | undefined (roomId : RoomId) (h : (n.leaveRoom roomId).2 = .error .useAfterFree) (n' : Node) :
      RoomStep n (.leaveRoom roomId) n'
  | thread {e : ThreadEvent} {n' : Node} (h : ThreadStep n e n') : RoomStep n (.thread e) n'

namespace Node

def StaleFree (n : Node) : Prop := ∀ t ∈ n.sMq, t.msg.roomId ∈ n.roomManager

/-- A room is left while none of its tasks is queued and none of its peers is listed. -/
def Careful (n : Node) : RoomEvent → Prop
  | .leaveRoom roomId => roomId ∈ n.rooms →
      (∀ t ∈ n.sMq, t.msg.roomId ≠ roomId) ∧
        ∀ RU, n.roomManager[roomId]? = some RU → RU.peersInRoom = ∅
  | _ => True

theorem StaleFree.push {n : Node} (h : n.StaleFree) {task : SendMsgT}
    (ht : task.msg.roomId ∈ n.roomManager) : (n.push task).StaleFree := by
  intro t hm
  rcases List.mem_append.mp hm with hm | hm
  · exact h t hm
  · obtain rfl := List.mem_singleton.mp hm
    exact ht

theorem StaleFree.setRoom {n : Node} (h : n.StaleFree) (roomId : RoomId) (RU : RoomUnit) :
    (n.setRoom roomId RU).StaleFree := by
  intro t ht
  rw [setRoom_roomManager, Std.ExtTreeMap.mem_insert]
  exact .inr (h t ht)

theorem mem_setRoom (n : Node) (roomId : RoomId) (RU : RoomUnit) :
    roomId ∈ (n.setRoom roomId RU).roomManager :=
  Std.ExtTreeMap.mem_insert_self

theorem StaleFree.queueOwn {n : Node} (h : n.StaleFree) (RU : RoomUnit) {roomId : RoomId}
    {task : SendMsgT} (ht : task.msg.roomId = roomId) : (n.queueOwn RU roomId task).StaleFree := by
  have hroom : task.msg.roomId ∈
      (n.setRoom roomId (RU.putHash task.msg.type task.msg.hash)).roomManager :=
    ht ▸ n.mem_setRoom _ _
  exact (h.setRoom roomId (RU.putHash task.msg.type task.msg.hash)).push hroom

theorem StaleFree.broadcast2Room {n : Node} (h : n.StaleFree) (roomId : RoomId) (j : String)
    (t : MessageType) (except : PeerId) (now : ℕ) :
    (n.broadcast2Room roomId j t except now).1.StaleFree := by
  unfold Node.broadcast2Room
  split
  · exact h
  · exact h.queueOwn _ rfl

theorem StaleFree.send2client {n : Node} (h : n.StaleFree) (peerId : PeerId) (roomId : RoomId)
    (j : String) (t : MessageType) (now : ℕ) :
    (n.send2client peerId roomId j t now).1.StaleFree := by
  unfold Node.send2client
  split
  · exact h
  · exact h.queueOwn _ rfl

theorem StaleFree.handleWebrtcNodeMessageLogic {n : Node} (h : n.StaleFree) (p : Message)
    (now : ℕ) : (n.handleWebrtcNodeMessageLogic p now).1.StaleFree := by
  have hpush : ∀ (RU : RoomUnit) (type : SendType), ((n.setRoom p.roomId RU).push
      { type := type, except := "", msg := n.relayMessage p now }).StaleFree := by
    intro RU type
    refine (h.setRoom p.roomId RU).push ?_
    rw [relayMessage_eq]
    exact n.mem_setRoom _ _
  unfold Node.handleWebrtcNodeMessageLogic
  split
  · exact h
  · split_ifs
    · exact h
    · split
      · split_ifs
        · exact hpush _ _
        · exact h.setRoom _ _
      · exact hpush _ _

theorem StaleFree.senderIteration {n : Node} (h : n.StaleFree) :
    n.senderIteration.1.StaleFree := by
  have htail : ∀ {smT : SendMsgT} {rest : List SendMsgT}, n.sMq = smT :: rest →
      ∀ t ∈ rest, t.msg.roomId ∈ n.roomManager := fun hq t ht => h t (by simp [hq, ht])
  generalize hr : n.senderIteration = r
  cases hr ▸ n.senderIteration_case with
  | idle => exact h
  | stop => exact h
  | stale smT rest hq => exact htail hq
  | fault smT rest RU f hq => exact htail hq
  | done smT rest RU tasks sends hq hRU hp =>
    intro t ht
    rcases List.mem_append.mp ht with ht | ht
    · exact htail hq t ht
    · rw [processTask_roomId hp t ht]
      exact h smT (by simp [hq])

theorem StaleFree.threadStep {n n' : Node} {e : ThreadEvent} (h : n.StaleFree)
    (hs : ThreadStep n e n') : n'.StaleFree := by
  cases hs with
  | broadcast2Room => exact h.broadcast2Room _ _ _ _ _
  | send2client => exact h.send2client _ _ _ _ _
  | receive => exact h.handleWebrtcNodeMessageLogic _ _
  | iterate => exact h.senderIteration
  | wake => exact h
  | channels => exact h

theorem StaleFree.joinRoom {n : Node} (h : n.StaleFree) (roomId : RoomId) (junk : ℕ → Hash) :
    (n.joinRoom roomId junk).StaleFree := by
  unfold Node.joinRoom joinRoomWS
  split_ifs
  · exact h
  · intro t ht
    exact Std.ExtTreeMap.mem_insertIfNew.mpr (.inr (h t ht))

/-- Leaving a room is defined when the room is not joined or lists no peer. -/
theorem leaveRoom_undefined_iff (n : Node) (roomId : RoomId) :
    (n.leaveRoom roomId).2 = .error .useAfterFree ↔ roomId ∈ n.rooms ∧
      ∃ RU, n.roomManager[roomId]? = some RU ∧ RU.peersInRoom ≠ ∅ := by
  unfold leaveRoom leaveRoomWS
  by_cases hr : roomId ∈ n.rooms
  · cases hRU : n.roomManager[roomId]? with
    | none => simp [hr]
    | some RU =>
      by_cases he : RU.peersInRoom = ∅
      · unfold PointerCollection.get
        cases n.callbacksMutexes[roomId]? <;> simp [hr, he]
      · simp [hr, he]
  · simp [hr]

/-- What a defined `leaveRoom` of a joined room leaves of queue and rooms. -/
theorem leaveRoom_fields {n : Node} {roomId : RoomId}
    (h : (n.leaveRoom roomId).2 ≠ .error .useAfterFree) (hr : roomId ∈ n.rooms) :
    (n.leaveRoom roomId).1.sMq = n.sMq ∧
      (n.leaveRoom roomId).1.roomManager = n.roomManager.erase roomId := by
  unfold leaveRoom leaveRoomWS at h ⊢
  rw [if_pos hr] at h ⊢
  cases hRU : n.roomManager[roomId]? with
  | none =>
    refine ⟨rfl, ?_⟩
    have : n.roomManager.erase roomId = n.roomManager :=
      Std.ExtTreeMap.ext_getElem? fun k => by
        rw [Std.ExtTreeMap.getElem?_erase]
        split_ifs with hk
        · rw [← hRU, Std.LawfulEqCmp.eq_of_compare hk]
        · rfl
    exact this.symm
  | some RU =>
    rw [hRU] at h
    by_cases he : RU.peersInRoom.isEmpty = true
    · simp only [he, if_true]
      split <;> exact ⟨rfl, rfl⟩
    · simp [he] at h

theorem leaveRoom_not_joined {n : Node} {roomId : RoomId} (hr : roomId ∉ n.rooms) :
    n.leaveRoom roomId = (n, .ok ()) := by
  unfold leaveRoom leaveRoomWS
  rw [if_neg hr]

/-- Leaving a room makes its queued tasks stale, and no others. -/
theorem StaleFree.leaveRoom_iff {n : Node} (h : n.StaleFree) {roomId : RoomId}
    (hd : (n.leaveRoom roomId).2 ≠ .error .useAfterFree) :
    (n.leaveRoom roomId).1.StaleFree ↔
      (roomId ∈ n.rooms → ∀ t ∈ n.sMq, t.msg.roomId ≠ roomId) := by
  by_cases hr : roomId ∈ n.rooms
  · obtain ⟨hq, hm⟩ := leaveRoom_fields hd hr
    simp only [StaleFree, hq, hm, Std.ExtTreeMap.mem_erase, hr, true_imp_iff]
    constructor
    · intro hs t ht heq
      exact (hs t ht).1 (by rw [heq]; exact Std.ReflCmp.compare_self)
    · intro hne t ht
      exact ⟨fun heq => hne t ht (Std.LawfulEqCmp.eq_of_compare heq).symm, h t ht⟩
  · rw [leaveRoom_not_joined hr]
    exact iff_of_true h fun hc => absurd hc hr

end Node

/-- A node with a stale task: where the behaviour is undefined, it may follow. -/
def staleNode : Node :=
  { Node.new "" String.length with
    sMq := [⟨.broadcast, "", ⟨"", "", none, .logic, 0, "", 0⟩⟩] }

theorem staleNode_not_staleFree : ¬ staleNode.StaleFree := by
  intro h
  have := h _ List.mem_cons_self
  simp [staleNode, Node.new] at this

/-- **Careful steps are those that surely leave no stale task.** -/
theorem surely_staleFree_iff {n n' : Node} {e : RoomEvent} (h : n.StaleFree)
    (hs : RoomStep n e n') : (∀ t, RoomStep n e t → t.StaleFree) ↔ n.Careful e := by
  cases hs with
  | joinRoom roomId junk =>
    refine iff_of_true (fun t ht => ?_) trivial
    cases ht
    exact h.joinRoom _ _
  | thread hs =>
    refine iff_of_true (fun t ht => ?_) trivial
    cases ht with
    | thread ht => exact h.threadStep ht
  | leaveRoom roomId hd =>
    have hno := hd
    rw [Ne, Node.leaveRoom_undefined_iff] at hno
    push Not at hno
    constructor
    · intro hall hr
      exact ⟨(h.leaveRoom_iff hd).mp (hall _ (.leaveRoom roomId hd)) hr, hno hr⟩
    · intro hc t ht
      cases ht with
      | leaveRoom _ _ => exact (h.leaveRoom_iff hd).mpr fun hr => (hc hr).1
      | undefined _ hu => exact absurd hu hd
  | undefined roomId hu n' =>
    refine iff_of_false (fun hall => ?_) fun hc => ?_
    · exact staleNode_not_staleFree (hall _ (.undefined roomId hu staleNode))
    · obtain ⟨hr, RU, hRU, hne⟩ := (Node.leaveRoom_undefined_iff _ _).mp hu
      exact hne ((hc hr).2 RU hRU)

/-- **The queue surely stays free of stale tasks if and only if the run is careful.** -/
theorem run_staleFree_iff {n₀ n : Node} {tr : List RoomEvent} (h₀ : n₀.StaleFree) :
    Lts.Run (Lts.Surely RoomStep Node.StaleFree) n₀ tr n ↔
      Lts.Run (Lts.Only RoomStep Node.Careful) n₀ tr n :=
  Lts.run_surely_iff h₀ (fun _ _ _ h hs => surely_staleFree_iff h hs) fun _ _ _ h hs hc =>
    (surely_staleFree_iff h hs).mpr hc _ hs

namespace Node

theorem senderIteration_sender {n : Node} (h : n.StaleFree) :
    n.senderIteration.1.sender ≠ .crashed .notFound := by
  generalize hr : n.senderIteration = r
  cases hr ▸ n.senderIteration_case with
  | idle =>
    simp only
    split_ifs <;> exact SenderState.noConfusion
  | stop => exact SenderState.noConfusion
  | stale smT rest hq hRU =>
    have := h smT (by simp [hq])
    rw [Std.ExtTreeMap.mem_iff_isSome_getElem?, hRU] at this
    exact absurd this (by simp)
  | fault smT rest RU f hq hRU hp =>
    intro hf
    obtain rfl : f = .notFound := by simpa using hf
    exact processTask_ne_notFound hp
  | done => exact SenderState.noConfusion

theorem queueOwn_sender_ne {n : Node} {f : Fault} (h : n.sender ≠ .crashed f) (RU : RoomUnit)
    (roomId : RoomId) (task : SendMsgT) : (n.queueOwn RU roomId task).sender ≠ .crashed f := by
  show (if n.sender = .waiting then SenderState.woken else n.sender) ≠ _
  split_ifs
  · exact SenderState.noConfusion
  · exact h

theorem threadStep_sender_ne {n n' : Node} {e : ThreadEvent} (hf : n.StaleFree)
    (h : n.sender ≠ .crashed .notFound) (hs : ThreadStep n e n') :
    n'.sender ≠ .crashed .notFound := by
  cases hs with
  | broadcast2Room =>
    unfold Node.broadcast2Room
    split
    · exact h
    · exact queueOwn_sender_ne h _ _ _
  | send2client =>
    unfold Node.send2client
    split
    · exact h
    · exact queueOwn_sender_ne h _ _ _
  | receive =>
    rw [handleWebrtcNodeMessageLogic_sender]
    exact h
  | iterate => exact senderIteration_sender hf
  | wake => exact SenderState.noConfusion
  | channels => exact h

theorem joinRoom_sender (n : Node) (roomId : RoomId) (junk : ℕ → Hash) :
    (n.joinRoom roomId junk).sender = n.sender := by
  unfold joinRoom joinRoomWS
  split_ifs <;> rfl

theorem leaveRoom_sender (n : Node) (roomId : RoomId) :
    (n.leaveRoom roomId).1.sender = n.sender := by
  unfold leaveRoom leaveRoomWS
  split_ifs
  · split
    · rfl
    · split_ifs
      · split <;> rfl
      · rfl
  · rfl

end Node

/-- **In a careful run the sender thread never asks for a room that is gone.** -/
theorem run_sender_alive {n₀ n : Node} {tr : List RoomEvent} (hq : n₀.StaleFree)
    (h₀ : n₀.sender = .running) (h : Lts.Run (Lts.Only RoomStep Node.Careful) n₀ tr n) :
    n.sender ≠ .crashed .notFound := by
  refine (h.invariant (I := fun n => n.StaleFree ∧ n.sender ≠ .crashed .notFound)
    ⟨hq, by simp [h₀]⟩ fun n e n' hn hs => ?_).2
  obtain ⟨hs, hc⟩ := hs
  refine ⟨(surely_staleFree_iff hn.1 hs).mpr hc _ hs, ?_⟩
  cases hs with
  | joinRoom =>
    rw [Node.joinRoom_sender]
    exact hn.2
  | leaveRoom =>
    rw [Node.leaveRoom_sender]
    exact hn.2
  | undefined roomId hu =>
    obtain ⟨hr, RU, hRU, hne⟩ := (Node.leaveRoom_undefined_iff _ _).mp hu
    exact absurd ((hc hr).2 RU hRU) hne
  | thread hs => exact Node.threadStep_sender_ne hn.1 hn.2 hs

/-- A node in no room. -/
def visitor : Node := Node.new "u" String.length

/-- A node joins a room, sends a message, and leaves the room once the message is sent. -/
theorem visitor_alive :
    (((visitor.joinRoom "r" fun _ => 0).broadcast2Room "r" "hi" .logic "" 1).1.senderIteration.1.leaveRoom
      "r").1.sender ≠ .crashed .notFound := by
  refine @run_sender_alive visitor _ _ (by simp [Node.StaleFree, visitor, Node.new]) rfl
    ((((Lts.Run.single ⟨.joinRoom "r" fun _ => 0, trivial⟩).snoc
      ⟨.thread (.broadcast2Room "r" "hi" .logic "" 1), trivial⟩).snoc
      ⟨.thread (.iterate (.inl rfl)), trivial⟩).snoc ⟨.leaveRoom "r" ?_, fun _ => ⟨?_, ?_⟩⟩)
  · intro h
    cases h
  · decide
  · intro RU h
    cases h
    rfl

/-- The room is left before the message is sent: the thread does not find it. -/
theorem exists_stale : ∃ tr n, Lts.Run RoomStep visitor tr n ∧ n.sender = .crashed .notFound :=
  ⟨_, _, (((Lts.Run.single (.joinRoom "r" fun _ => 0)).snoc
    (.thread (.broadcast2Room "r" "hi" .logic "" 1))).snoc
    (.leaveRoom "r" (by intro h; cases h))).snoc (.thread (.iterate (.inl rfl))), by decide⟩

/-- The tasks before a stale one are taken first; each of them is replaced at the end of the queue,
or ends the thread already. -/
theorem stale_kills_aux : ∀ (pre : List SendMsgT) {n : Node} {t : SendMsgT} {post : List SendMsgT},
    n.sMq = pre ++ t :: post → t.msg.roomId ∉ n.roomManager → n.stopping = false →
      n.sender = .running ∨ n.sender = .woken →
        ∃ tr n' f, Lts.Run RoomStep n tr n' ∧ n'.sender = .crashed f := by
  intro pre
  induction pre with
  | nil =>
    intro n t post hq ht hst hs
    refine ⟨_, _, .notFound, .single (.thread (.iterate hs)), ?_⟩
    generalize hr : n.senderIteration = r
    cases hr ▸ n.senderIteration_case with
    | idle hq' => simp [hq'] at hq
    | stop hst' => simp [hst'] at hst
    | stale => rfl
    | fault smT rest RU f hq' hRU =>
      obtain ⟨rfl, rfl⟩ := List.cons.inj (hq'.symm.trans hq)
      exact absurd (Std.ExtTreeMap.mem_iff_isSome_getElem?.mpr (by simp [hRU])) ht
    | done smT rest RU tasks sends hq' hRU =>
      obtain ⟨rfl, rfl⟩ := List.cons.inj (hq'.symm.trans hq)
      exact absurd (Std.ExtTreeMap.mem_iff_isSome_getElem?.mpr (by simp [hRU])) ht
  | cons smT pre ih =>
    intro n t post hq ht hst hs
    have hstep : RoomStep n _ n.senderIteration.1 := .thread (.iterate hs)
    generalize hr : n.senderIteration = r at hstep
    cases hr ▸ n.senderIteration_case with
    | idle hq' => simp [hq'] at hq
    | stop hst' => simp [hst'] at hst
    | stale => exact ⟨_, _, .notFound, .single hstep, rfl⟩
    | fault smT' rest RU f => exact ⟨_, _, f, .single hstep, rfl⟩
    | done smT' rest RU tasks sends hq' =>
      obtain ⟨-, rfl⟩ := List.cons.inj (hq'.symm.trans hq)
      obtain ⟨tr, n', f, hrun, hf⟩ := @ih { n with
        sMq := (pre ++ t :: post) ++ tasks
        sender := .running } t (post ++ tasks) (by simp) ht hst (.inl rfl)
      exact ⟨_, n', f, hrun.cons hstep, hf⟩

/-- **A stale task ends the sender thread** when the thread is left to work off its queue. -/
theorem stale_kills {n : Node} (h : ¬ n.StaleFree) (hst : n.stopping = false)
    (hs : n.sender = .running ∨ n.sender = .woken ∨ n.sender = .waiting) :
    ∃ tr n' f, Lts.Run RoomStep n tr n' ∧ n'.sender = .crashed f := by
  unfold Node.StaleFree at h
  push Not at h
  obtain ⟨t, ht, hroom⟩ := h
  obtain ⟨pre, post, hq⟩ := List.append_of_mem ht
  rcases hs with hs | hs | hs
  · exact stale_kills_aux pre hq hroom hst (.inl hs)
  · exact stale_kills_aux pre hq hroom hst (.inr hs)
  · obtain ⟨tr, n', f, hrun, hf⟩ := stale_kills_aux pre (n := { n with sender := .woken }) hq hroom
      hst (.inr rfl)
    exact ⟨_, n', f, hrun.cons (.thread (.wake hs)), hf⟩

end Yamb
