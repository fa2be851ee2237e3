import Yamb.Sender.Thread

/-!
# What the sender thread makes of its tasks

The thread works off a list of tasks while the data channels open and close.

* `Internal`: the events of the thread and of the channels; `sends`, `heaps`: what a trace sent, and
  the channels that its iterations found;
* `copies`: the messages that a task is to become, given the channels at the iteration that takes it;
* `processTask_copies`: one iteration sends some of them and queues the rest;
* **`run_sends_perm`**: once the queue is empty, exactly those messages have been sent.
-/

set_option autoImplicit false

namespace Yamb

namespace ThreadEvent

def Internal : ThreadEvent → Prop
  | iterate _ _ | wake | channels _ => True
  | _ => False

def sent : ThreadEvent → List Send
  | iterate _ sends => sends
  | _ => []

def found : ThreadEvent → Option (Ptr → Option Peer)
  | iterate heap _ => some heap
  | _ => none

end ThreadEvent

/-- Everything a trace sent. -/
def sends (tr : List ThreadEvent) : List Send := tr.flatMap ThreadEvent.sent

/-- The peers as the iterations of a trace found them. -/
def heaps (tr : List ThreadEvent) : List (Ptr → Option Peer) := tr.filterMap ThreadEvent.found

/-- The messages of a task: a broadcast goes to every addressed peer of the room, to the peers with
a closed channel with the member `to` set; a direct task goes to its target. -/
def copies (rooms : PointerCollection RoomUnit) (heap : Ptr → Option Peer) (smT : SendMsgT) :
    List Send :=
  match rooms[smT.msg.roomId]? with
  | none => []
  | some RU =>
    match smT.type with
    | .broadcast => (Node.addressed smT RU.peersInRoom.toList).map fun e =>
        (e.1, if Node.closedAt heap e then { smT.msg with to' := some e.1 } else smT.msg)
    | .direct =>
      match smT.msg.to' with
      | none => []
      | some to' => [(to', smT.msg)]

/-- The room of the task is joined, its peers are live, and a direct task has a target in it. -/
def Deliverable (rooms : PointerCollection RoomUnit) (heap : Ptr → Option Peer) (smT : SendMsgT) :
    Prop :=
  ∃ RU, rooms[smT.msg.roomId]? = some RU ∧ Node.LivePeers heap RU ∧
    (smT.type = .direct → ∃ to', smT.msg.to' = some to' ∧ to' ∈ RU.peersInRoom)

theorem Deliverable.of_samePeers {rooms : PointerCollection RoomUnit} {heap heap' : Ptr → Option Peer}
    {smT : SendMsgT} (h : Deliverable rooms heap smT) (hs : SamePeers heap heap') :
    Deliverable rooms heap' smT := by
  obtain ⟨RU, hRU, hlive, hto⟩ := h
  refine ⟨RU, hRU, fun k p hp => ?_, hto⟩
  obtain ⟨peer, hpeer, rfl⟩ := hlive k p hp
  have := hs p
  rw [hpeer] at this
  exact Option.map_eq_some_iff.mp this

theorem copies_direct {rooms : PointerCollection RoomUnit} {RU : RoomUnit} {smT : SendMsgT}
    {to' : PeerId} (hRU : rooms[smT.msg.roomId]? = some RU) (ht : smT.type = .direct)
    (hto : smT.msg.to' = some to') (heap : Ptr → Option Peer) :
    copies rooms heap smT = [(to', smT.msg)] := by
  simp only [copies, hRU, ht, hto]

theorem copies_directCopy {rooms : PointerCollection RoomUnit} {RU : RoomUnit} {m : Msg}
    (hRU : rooms[m.roomId]? = some RU) (heap : Ptr → Option Peer) (peerid : PeerId) :
    copies rooms heap (Node.directCopy m peerid) = [(peerid, { m with to' := some peerid })] :=
  @copies_direct rooms RU (Node.directCopy m peerid) peerid hRU rfl rfl heap

/-- The messages of a direct task do not depend on the channels. -/
theorem copies_eq_of_direct {rooms : PointerCollection RoomUnit} {smT : SendMsgT}
    (ht : smT.type = .direct) (heap heap' : Ptr → Option Peer) :
    copies rooms heap smT = copies rooms heap' smT := by
  simp only [copies, ht]

/-- What is pushed back and what is sent, as the one list that was to be sent. -/
theorem perm_split {α β : Type} (p : α → Bool) (f g : α → β) (l : List α) :
    ((l.filter fun a => !p a).map g ++ (l.filter p).map f).Perm
      (l.map fun a => if p a then f a else g a) := by
  induction l with
  | nil => exact .nil
  | cons a l ih =>
    cases hp : p a with
    | true =>
      simp only [hp, Bool.not_true, List.filter_cons, Bool.false_eq_true, if_false, if_true,
        List.map_cons]
      exact List.perm_middle.trans (ih.cons _)
    | false =>
      simp only [hp, Bool.not_false, List.filter_cons, Bool.false_eq_true, if_false, if_true,
        List.map_cons, List.cons_append]
      exact ih.cons _

/-- **One task**: what is sent and what the pushed tasks stand for are the messages of the task. -/
theorem processTask_copies {n : Node} {smT : SendMsgT}
    (h : Deliverable n.roomManager n.heap smT) :
    ∃ RU tasks sends, n.roomManager[smT.msg.roomId]? = some RU ∧
      n.processTask RU smT = .ok (tasks, sends) ∧
      (∀ t ∈ tasks, t.type = .direct ∧ Deliverable n.roomManager n.heap t) ∧
      (sends ++ tasks.flatMap (copies n.roomManager n.heap)).Perm
        (copies n.roomManager n.heap smT) := by
  obtain ⟨RU, hRU, hlive, hto⟩ := h
  cases ht : smT.type with
  | broadcast =>
    have hall := @Node.visitAll_live n smT RU.peersInRoom.toList
      fun e he => hlive e.1 e.2 (Std.ExtTreeMap.mem_toList_iff_getElem?_eq_some.mp he)
    refine ⟨RU, _, _, hRU, by simp only [Node.processTask, ht, hall]; rfl, ?_, ?_⟩
    · intro t htm
      obtain ⟨e, he, rfl⟩ := List.mem_map.mp htm
      have hmem := List.mem_of_mem_filter (List.mem_of_mem_filter he)
      refine ⟨rfl, RU, hRU, hlive, fun _ => ⟨e.1, rfl, ?_⟩⟩
      rw [Std.ExtTreeMap.mem_iff_isSome_getElem?,
        Std.ExtTreeMap.mem_toList_iff_getElem?_eq_some.mp hmem]
      rfl
    · have hcopies : ∀ l : List (PeerId × Ptr), (l.map fun e => Node.directCopy smT.msg e.1).flatMap
          (copies n.roomManager n.heap) =
            l.map fun e => (e.1, { smT.msg with to' := some e.1 }) := by
        intro l
        induction l with
        | nil => rfl
        | cons e l ih =>
          rw [List.map_cons, List.flatMap_cons, ih, copies_directCopy hRU]
          rfl
      rw [hcopies]
      simp only [copies, hRU, ht]
      refine (perm_split (Node.closedAt n.heap) _ _ _).trans (.of_eq (List.map_congr_left ?_))
      intro e _
      split_ifs <;> rfl
  | direct =>
    obtain ⟨to', hto', hmem⟩ := hto ht
    obtain ⟨p, hp⟩ := Option.isSome_iff_exists.mp (Std.ExtTreeMap.mem_iff_isSome_getElem?.mp hmem)
    obtain ⟨peer, hpeer, hid⟩ := hlive to' p hp
    have hcopies := copies_direct hRU ht hto' n.heap
    cases hch : peer.getDataChannel with
    | none =>
      refine ⟨RU, [smT], [], hRU, by simp only [Node.processTask, ht, hto', hp, hpeer, hch], ?_, ?_⟩
      · intro t htm
        obtain rfl := List.mem_singleton.mp htm
        exact ⟨ht, RU, hRU, hlive, hto⟩
      · simp
    | some ch =>
      refine ⟨RU, [], [(peer.peerid, smT.msg)], hRU,
        by simp only [Node.processTask, ht, hto', hp, hpeer, hch], by simp, ?_⟩
      rw [hcopies, hid]
      exact .refl _

/-! ### Runs -/

/-- The invariant: what is queued are the tasks not taken yet, and direct tasks that stand for the
messages not sent yet. -/
structure Working (n₀ : Node) (tr : List ThreadEvent) (n : Node) : Prop where
  rooms : n.roomManager = n₀.roomManager
  going : n.stopping = false
  deliverable : ∀ t ∈ n.sMq, Deliverable n.roomManager n.heap t
  queue : ∃ D, n.sMq = n₀.sMq.drop (heaps tr).length ++ D ∧ (∀ t ∈ D, t.type = .direct) ∧
    (sends tr ++ D.flatMap (copies n₀.roomManager n₀.heap)).Perm
      ((n₀.sMq.zip (heaps tr)).flatMap fun x => copies n₀.roomManager x.2 x.1)

theorem zip_snoc {α β : Type} (y : β) : ∀ (l : List α) (ys : List β),
    l.zip (ys ++ [y]) = l.zip ys ++ ((l.drop ys.length).head?.map fun x => (x, y)).toList
  | [], ys => by simp
  | x :: l, [] => by simp
  | x :: l, y' :: ys => by simp [zip_snoc y l ys]

theorem sends_snoc (tr : List ThreadEvent) (e : ThreadEvent) :
    sends (tr ++ [e]) = sends tr ++ e.sent := by
  simp [sends]

theorem heaps_snoc_iterate (tr : List ThreadEvent) (heap : Ptr → Option Peer) (s : List Send) :
    heaps (tr ++ [.iterate heap s]) = heaps tr ++ [heap] := by
  simp [heaps, ThreadEvent.found]

theorem flatMap_copies_of_direct {rooms : PointerCollection RoomUnit} {D : List SendMsgT}
    (hD : ∀ t ∈ D, t.type = .direct) (heap heap' : Ptr → Option Peer) :
    D.flatMap (copies rooms heap) = D.flatMap (copies rooms heap') :=
  List.flatMap_congr fun t ht => copies_eq_of_direct (hD t ht) heap heap'

/-- The task at the head of the queue is the next of the given ones, or one that was pushed back. -/
theorem take_next (rooms : PointerCollection RoomUnit) {l rest D : List SendMsgT} {smT : SendMsgT}
    {hs : List (Ptr → Option Peer)} (hq : smT :: rest = l.drop hs.length ++ D)
    (hD : ∀ t ∈ D, t.type = .direct) (heap heap₀ : Ptr → Option Peer) :
    ∃ E, rest = l.drop (hs.length + 1) ++ E ∧ (∀ t ∈ E, t.type = .direct) ∧
      (copies rooms heap smT ++ E.flatMap (copies rooms heap₀) ++
          (l.zip hs).flatMap fun x => copies rooms x.2 x.1).Perm
        (D.flatMap (copies rooms heap₀) ++
          (l.zip (hs ++ [heap])).flatMap fun x => copies rooms x.2 x.1) := by
  cases hdrop : l.drop hs.length with
  | nil =>
    -- every given task has been taken
    rw [hdrop, List.nil_append] at hq
    subst hq
    refine ⟨rest, ?_, fun t ht => hD t (List.mem_cons_of_mem _ ht), ?_⟩
    · rw [← List.drop_drop, hdrop, List.drop_nil, List.nil_append]
    · rw [zip_snoc, hdrop, copies_eq_of_direct (hD smT List.mem_cons_self) heap heap₀]
      simp
  | cons t ts =>
    rw [hdrop, List.cons_append] at hq
    obtain ⟨rfl, rfl⟩ := List.cons.inj hq
    refine ⟨D, ?_, hD, ?_⟩
    · rw [← List.drop_drop, hdrop, List.drop_one, List.tail_cons]
    · rw [zip_snoc, hdrop, List.perm_iff_count]
      intro a
      simp only [List.count_append, List.flatMap_append, List.head?_cons, Option.map_some,
        Option.toList_some, List.flatMap_cons, List.flatMap_nil, List.append_nil]
      omega

/-- An event that neither sends, nor takes a task, nor touches queue and rooms. -/
theorem Working.frame {n₀ n n' : Node} {tr : List ThreadEvent} {e : ThreadEvent}
    (h : Working n₀ tr n) (hsent : e.sent = []) (hfound : e.found = none)
    (hrooms : n'.roomManager = n.roomManager) (hgoing : n'.stopping = n.stopping)
    (hq : n'.sMq = n.sMq) (hs : SamePeers n.heap n'.heap) : Working n₀ (tr ++ [e]) n' := by
  have hheaps : heaps (tr ++ [e]) = heaps tr := by simp [heaps, hfound]
  refine ⟨hrooms.trans h.rooms, hgoing.trans h.going, fun t ht => ?_, ?_⟩
  · rw [hrooms]
    exact (h.deliverable t (hq ▸ ht)).of_samePeers hs
  · rw [hheaps, sends_snoc, hsent, List.append_nil, hq]
    exact h.queue

theorem Working.iterate {n₀ n : Node} {tr : List ThreadEvent} (h : Working n₀ tr n) :
    Working n₀ (tr ++ [.iterate n.heap n.senderIteration.2]) n.senderIteration.1 := by
  obtain ⟨D, hq, hD, hperm⟩ := h.queue
  generalize hr : n.senderIteration = r
  cases hr ▸ n.senderIteration_case with
  | idle hempty =>
    rw [hempty, eq_comm, List.append_eq_nil_iff] at hq
    obtain ⟨hdrop, rfl⟩ := hq
    refine ⟨h.rooms, h.going, h.deliverable, [], ?_, by simp, ?_⟩
    · rw [heaps_snoc_iterate, List.length_append, ← List.drop_drop, hdrop]
      simpa using hempty
    · rw [sends_snoc, heaps_snoc_iterate, zip_snoc, hdrop]
      simpa [ThreadEvent.sent] using hperm
  | stop hst => exact absurd hst (by simp [h.going])
  | stale smT rest hqn hRU =>
    obtain ⟨RU, hRU', -⟩ := h.deliverable smT (by simp [hqn])
    rw [hRU] at hRU'
    cases hRU'
  | fault smT rest RU f hqn hRU hp =>
    obtain ⟨RU', tasks, sends, hRU', hp', -⟩ :=
      processTask_copies (h.deliverable smT (by simp [hqn]))
    obtain rfl := Option.some.inj (hRU.symm.trans hRU')
    rw [hp] at hp'
    cases hp'
  | done smT rest RU tasks sent hqn hRU hp =>
    obtain ⟨RU', tasks', sent', hRU', hp', htasks, hcopies⟩ :=
      processTask_copies (h.deliverable smT (by simp [hqn]))
    obtain rfl := Option.some.inj (hRU.symm.trans hRU')
    obtain ⟨rfl, rfl⟩ := Prod.mk.inj (Except.ok.inj (hp.symm.trans hp'))
    have hdirect : ∀ t ∈ tasks, t.type = .direct := fun t ht => (htasks t ht).1
    refine ⟨h.rooms, h.going, fun t ht => ?_, ?_⟩
    · rcases List.mem_append.mp ht with ht | ht
      · exact h.deliverable t (by simp [hqn, ht])
      · exact (htasks t ht).2
    rw [flatMap_copies_of_direct hdirect n.heap n₀.heap, h.rooms] at hcopies
    obtain ⟨E, hrest, hE, hnext⟩ :=
      take_next n₀.roomManager (hqn.symm.trans hq) hD n.heap n₀.heap
    refine ⟨E ++ tasks, ?_, ?_, ?_⟩
    · rw [heaps_snoc_iterate, List.length_append, List.length_singleton, hrest, List.append_assoc]
    · intro t ht
      rcases List.mem_append.mp ht with ht | ht
      · exact hE t ht
      · exact hdirect t ht
    · rw [sends_snoc, heaps_snoc_iterate]
      rw [List.perm_iff_count] at hperm hcopies hnext ⊢
      intro a
      have h₁ := hperm a
      have h₂ := hcopies a
      have h₃ := hnext a
      simp only [ThreadEvent.sent, List.count_append, List.flatMap_append] at h₁ h₂ h₃ ⊢
      omega

theorem run_working {n₀ n : Node} {tr : List ThreadEvent} (hst : n₀.stopping = false)
    (hdel : ∀ t ∈ n₀.sMq, Deliverable n₀.roomManager n₀.heap t)
    (h : Lts.Run (Lts.Only ThreadStep fun _ e => e.Internal) n₀ tr n) : Working n₀ tr n := by
  refine h.trace_invariant ⟨rfl, hst, hdel, [], by simp [heaps], by simp, by simp [sends, heaps]⟩ ?_
  rintro tr n e n' hw ⟨hs, hint⟩
  cases hs with
  | broadcast2Room => exact hint.elim
  | send2client => exact hint.elim
  | receive => exact hint.elim
  | iterate => exact hw.iterate
  | wake => exact hw.frame rfl rfl rfl rfl rfl fun _ => rfl
  | channels heap hh => exact hw.frame rfl rfl rfl rfl rfl hh

/-- **Every task is carried out**: once the queue is empty, every task has been taken by an
iteration of its own, and what has been sent are the messages of the tasks, each with the channels
that its iteration found. -/
theorem run_sends_perm {n₀ n : Node} {tr : List ThreadEvent} (hst : n₀.stopping = false)
    (hdel : ∀ t ∈ n₀.sMq, Deliverable n₀.roomManager n₀.heap t)
    (h : Lts.Run (Lts.Only ThreadStep fun _ e => e.Internal) n₀ tr n) (hq : n.sMq = []) :
    n₀.sMq.length ≤ (heaps tr).length ∧
      (sends tr).Perm
        ((n₀.sMq.zip (heaps tr)).flatMap fun x => copies n₀.roomManager x.2 x.1) := by
  obtain ⟨D, hD, -, hperm⟩ := (run_working hst hdel h).queue
  rw [hq, eq_comm, List.append_eq_nil_iff] at hD
  obtain ⟨hdrop, rfl⟩ := hD
  exact ⟨List.drop_eq_nil_iff.mp hdrop, by simpa using hperm⟩

/-- A node with a queued broadcast and one peer, whose data channel is not open yet. -/
def talker : Node :=
  ((((Node.new "u" String.length).joinRoomWS "r" fun _ => 0).createPC "vr" .answer "r").1.broadcast2Room
    "r" "hi" .logic "" 1).1

/-- The same peer with an open channel. -/
def opened : Ptr → Option Peer :=
  Function.update talker.heap 0 (some { Peer.new "vr" .answer "r" with remoteChannel := some true })

theorem talker_live : ∀ RU, talker.roomManager["r"]? = some RU → Node.LivePeers talker.heap RU := by
  intro RU hRU k p hp
  cases hRU
  change ((∅ : PointerCollection Ptr).insertIfNew "vr" 0)[k]? = some p at hp
  rw [Std.ExtTreeMap.getElem?_insertIfNew] at hp
  split_ifs at hp with hk
  · obtain rfl := Option.some.inj hp
    exact ⟨_, rfl, (Std.LawfulEqCmp.eq_of_compare hk.1)⟩
  · simp at hp

theorem talker_deliverable : ∀ t ∈ talker.sMq, Deliverable talker.roomManager talker.heap t := by
  intro t ht
  obtain rfl := List.mem_singleton.mp ht
  exact ⟨_, rfl, talker_live _ rfl, fun h => SendType.noConfusion h⟩

theorem opened_samePeers (n : Node) (hn : n.heap = talker.heap) : SamePeers n.heap opened := by
  intro p
  rw [hn]
  unfold opened
  by_cases hp : p = 0
  · subst hp
    rfl
  · rw [Function.update_of_ne hp]

/-- The thread takes the broadcast, the channel opens, and the thread takes the copy. -/
def talkerEnd : Node :=
  { talker.senderIteration.1 with heap := opened }.senderIteration.1

def talkerTrace : List ThreadEvent :=
  [.iterate talker.heap talker.senderIteration.2, .channels opened,
    .iterate opened { talker.senderIteration.1 with heap := opened }.senderIteration.2]

theorem talker_run :
    Lts.Run (Lts.Only ThreadStep fun _ e => e.Internal) talker talkerTrace talkerEnd :=
  ((Lts.Run.single ⟨.iterate (.inl rfl), trivial⟩).snoc
    ⟨.channels opened (opened_samePeers _ rfl), trivial⟩).snoc ⟨.iterate (.inl rfl), trivial⟩

theorem talker_sends_perm : talker.sMq.length ≤ (heaps talkerTrace).length ∧
    (sends talkerTrace).Perm ((talker.sMq.zip (heaps talkerTrace)).flatMap fun x =>
      copies talker.roomManager x.2 x.1) :=
  run_sends_perm rfl talker_deliverable talker_run (by decide)

/-- The broadcast reaches the peer, but not as the JSON of the task. -/
theorem broadcast_altered : ¬ ∀ n₀ n tr, n₀.stopping = false →
    (∀ t ∈ n₀.sMq, Deliverable n₀.roomManager n₀.heap t) →
    Lts.Run (Lts.Only ThreadStep fun _ e => e.Internal) n₀ tr n → n.sMq = [] →
    ∀ t ∈ n₀.sMq, t.type = .broadcast → ∀ RU, n₀.roomManager[t.msg.roomId]? = some RU →
      ∀ k ∈ RU.peersInRoom, k ≠ t.except → (k, t.msg) ∈ sends tr := by
  intro h
  have := h talker talkerEnd talkerTrace rfl talker_deliverable talker_run (by decide) _
    List.mem_cons_self rfl _ rfl "vr" (by decide) (by decide)
  revert this
  decide

end Yamb
