import Yamb.Node.Types

/-!
# One iteration of the `message_sender` thread

* `visit`, `visitAll`: the loop over `peers_in_room` for a broadcast task;
* `processTask`: what becomes of one task: the tasks pushed back and the messages sent;
* `senderIteration`: the iteration with its checks, taken as one step; `IterationCase`: its cases;
* `visitAll_live`: the loop over the peers of a room that are all live.

An iteration whose error leaves the thread ends in `SenderState.crashed`.
-/

set_option autoImplicit false

namespace Yamb

/-- A message handed to the data channel of a peer. -/
abbrev Send : Type := PeerId × Msg

namespace Node

/-- The copy a broadcast leaves for a peer whose channel is closed. -/
def directCopy (m : Msg) (peerid : PeerId) : SendMsgT where
  type := .direct
  except := ""
  msg := { m with to' := some peerid }

/-- One turn of the loop over the peers of the room: tasks pushed, messages sent. `addNode` never
stores a null pointer, so the test for one is left out. -/
def visit (n : Node) (smT : SendMsgT) (entry : PeerId × Ptr) :
    Except Fault (List SendMsgT × List Send) :=
  if smT.except ≠ "" ∧ entry.1 = smT.except then .ok ([], [])
  else
    match n.heap entry.2 with
    | none => .error .useAfterFree
    | some p =>
      match p.getDataChannel with
      | none => .ok ([directCopy smT.msg p.peerid], [])
      | some _ => .ok ([], [(p.peerid, smT.msg)])

def visitAll (n : Node) (smT : SendMsgT) :
    List (PeerId × Ptr) → Except Fault (List SendMsgT × List Send)
  | [] => .ok ([], [])
  | entry :: entries =>
    match n.visit smT entry with
    | .error f => .error f
    | .ok (tasks, sends) =>
      match n.visitAll smT entries with
      | .error f => .error f
      | .ok (tasks', sends') => .ok (tasks ++ tasks', sends ++ sends')

/-- A direct task whose target is not in the room is dropped. -/
def processTask (n : Node) (RU : RoomUnit) (smT : SendMsgT) :
    Except Fault (List SendMsgT × List Send) :=
  match smT.type with
  | .broadcast => n.visitAll smT RU.peersInRoom.toList
  | .direct =>
    match smT.msg.to' with
    | none => .error .typeError
    | some to' =>
      match RU.peersInRoom[to']? with
      | none => .ok ([], [])
      | some p =>
        match n.heap p with
        | none => .error .useAfterFree
        | some p =>
          match p.getDataChannel with
          | none => .ok ([smT], [])
          | some _ => .ok ([], [(p.peerid, smT.msg)])

/-- One iteration: on an empty queue the thread returns or waits, else it takes a task. -/
def senderIteration (n : Node) : Node × List Send :=
  match n.sMq with
  | [] => ({ n with sender := if n.stopping then .exited else .waiting }, [])
  | smT :: rest =>
    if n.stopping then ({ n with sender := .exited }, [])
    else
      match n.roomManager.get smT.msg.roomId with
      | .error f => ({ n with sMq := rest, sender := .crashed f }, [])
      | .ok RU =>
        match n.processTask RU smT with
        | .error f => ({ n with sMq := rest, sender := .crashed f }, [])
        | .ok (tasks, sends) => ({ n with sMq := rest ++ tasks, sender := .running }, sends)

/-- What an iteration can do. -/
inductive IterationCase (n : Node) : Node × List Send → Prop
  | idle (hq : n.sMq = []) :
      IterationCase n ({ n with sender := if n.stopping then .exited else .waiting }, [])
  | stop (hs : n.stopping = true) : IterationCase n ({ n with sender := .exited }, [])
  | stale (smT : SendMsgT) (rest : List SendMsgT) (hq : n.sMq = smT :: rest)
      (hRU : n.roomManager[smT.msg.roomId]? = none) :
      IterationCase n ({ n with sMq := rest, sender := .crashed .notFound }, [])
  | fault (smT : SendMsgT) (rest : List SendMsgT) (RU : RoomUnit) (f : Fault)
      (hq : n.sMq = smT :: rest) (hRU : n.roomManager[smT.msg.roomId]? = some RU)
      (hp : n.processTask RU smT = .error f) :
      IterationCase n ({ n with sMq := rest, sender := .crashed f }, [])
  | done (smT : SendMsgT) (rest : List SendMsgT) (RU : RoomUnit) (tasks : List SendMsgT)
      (sends : List Send) (hq : n.sMq = smT :: rest)
      (hRU : n.roomManager[smT.msg.roomId]? = some RU)
      (hp : n.processTask RU smT = .ok (tasks, sends)) :
      IterationCase n ({ n with sMq := rest ++ tasks, sender := .running }, sends)

theorem senderIteration_case (n : Node) : IterationCase n n.senderIteration := by
  unfold senderIteration
  split
  · exact .idle ‹_›
  · split_ifs with hs
    · exact .stop hs
    · rename_i smT rest hq
      unfold PointerCollection.get
      cases hRU : n.roomManager[smT.msg.roomId]? with
      | none => exact .stale smT rest hq hRU
      | some RU =>
        simp only
        split
        · exact .fault smT rest RU _ hq hRU ‹_›
        · exact .done smT rest RU _ _ hq hRU ‹_›

theorem visit_roomId {n : Node} {smT : SendMsgT} {entry : PeerId × Ptr} {tasks : List SendMsgT}
    {sends : List Send} (h : n.visit smT entry = .ok (tasks, sends)) :
    ∀ t ∈ tasks, t.msg.roomId = smT.msg.roomId := by
  unfold visit at h
  split_ifs at h
  · cases h
    simp
  · split at h
    · cases h
    · split at h
      · cases h
        simp [directCopy]
      · cases h
        simp

theorem visitAll_roomId {n : Node} {smT : SendMsgT} : ∀ {entries : List (PeerId × Ptr)}
    {tasks : List SendMsgT} {sends : List Send}, n.visitAll smT entries = .ok (tasks, sends) →
      ∀ t ∈ tasks, t.msg.roomId = smT.msg.roomId
  | [], _, _, h => by
    cases h
    simp
  | entry :: entries, tasks, sends, h => by
    unfold visitAll at h
    split at h
    · cases h
    · split at h
      · cases h
      · cases h
        intro t ht
        rcases List.mem_append.mp ht with ht | ht
        · exact visit_roomId ‹_› t ht
        · exact visitAll_roomId ‹_› t ht

/-- A task is only replaced by tasks of its room. -/
theorem processTask_roomId {n : Node} {RU : RoomUnit} {smT : SendMsgT} {tasks : List SendMsgT}
    {sends : List Send} (h : n.processTask RU smT = .ok (tasks, sends)) :
    ∀ t ∈ tasks, t.msg.roomId = smT.msg.roomId := by
  unfold processTask at h
  split at h
  · exact visitAll_roomId h
  · split at h
    · cases h
    · split at h
      · cases h
        simp
      · split at h
        · cases h
        · split at h <;> cases h <;> simp

theorem visitAll_ne_notFound {n : Node} {smT : SendMsgT} : ∀ {entries : List (PeerId × Ptr)},
    n.visitAll smT entries ≠ .error .notFound
  | [] => by simp [visitAll]
  | entry :: entries => by
    unfold visitAll
    split
    · rename_i f hv
      unfold visit at hv
      split_ifs at hv
      split at hv
      · cases hv
        simp
      · split at hv <;> cases hv
    · split
      · rename_i f hv
        intro hf
        cases hf
        exact visitAll_ne_notFound hv
      · simp

/-- Once the room is found, nothing that goes wrong is a missing item. -/
theorem processTask_ne_notFound {n : Node} {RU : RoomUnit} {smT : SendMsgT} :
    n.processTask RU smT ≠ .error .notFound := by
  unfold processTask
  split
  · exact visitAll_ne_notFound
  · split
    · simp
    · split
      · simp
      · split
        · simp
        · split <;> simp

/-! ### Rooms whose peers are live -/

/-- The channel of a live peer is closed. -/
def closedAt (heap : Ptr → Option Peer) (entry : PeerId × Ptr) : Bool :=
  ((heap entry.2).bind Peer.getDataChannel).isNone

/-- Every pointer of the room points to a live peer with the id it is stored under. -/
def LivePeers (heap : Ptr → Option Peer) (RU : RoomUnit) : Prop :=
  ∀ k p, RU.peersInRoom[k]? = some p → ∃ peer, heap p = some peer ∧ peer.peerid = k

theorem visit_live {n : Node} {smT : SendMsgT} {entry : PeerId × Ptr} {peer : Peer}
    (hp : n.heap entry.2 = some peer) (hid : peer.peerid = entry.1) :
    n.visit smT entry =
      if smT.except ≠ "" ∧ entry.1 = smT.except then .ok ([], [])
      else if closedAt n.heap entry then .ok ([directCopy smT.msg entry.1], [])
      else .ok ([], [(entry.1, smT.msg)]) := by
  unfold visit closedAt
  split_ifs with _ hcl
  · rfl
  · rw [hp] at hcl ⊢
    simp only [Option.bind_some, Option.isNone_iff_eq_none] at hcl
    simp only [hcl, hid]
  · rw [hp] at hcl ⊢
    simp only [Option.bind_some, Option.isNone_iff_eq_none] at hcl
    cases hch : peer.getDataChannel with
    | none => exact absurd hch hcl
    | some ch => simp only [hid, hch]

/-- The peers a broadcast task addresses. -/
def addressed (smT : SendMsgT) (entries : List (PeerId × Ptr)) : List (PeerId × Ptr) :=
  entries.filter fun e => !decide (smT.except ≠ "" ∧ e.1 = smT.except)

theorem addressed_cons_of_except {smT : SendMsgT} {entry : PeerId × Ptr}
    (h : smT.except ≠ "" ∧ entry.1 = smT.except) (entries : List (PeerId × Ptr)) :
    addressed smT (entry :: entries) = addressed smT entries :=
  List.filter_cons_of_neg (by simp only [decide_eq_true h, Bool.not_true, Bool.false_eq_true,
    not_false_eq_true])

theorem addressed_cons {smT : SendMsgT} {entry : PeerId × Ptr}
    (h : ¬ (smT.except ≠ "" ∧ entry.1 = smT.except)) (entries : List (PeerId × Ptr)) :
    addressed smT (entry :: entries) = entry :: addressed smT entries :=
  List.filter_cons_of_pos (by simp only [decide_eq_false h, Bool.not_false])

/-- **The broadcast loop** over live peers: a copy is pushed for every addressed peer with a closed
channel, the message is sent to every other one, in the order of the map. -/
theorem visitAll_live {n : Node} {smT : SendMsgT} : ∀ {entries : List (PeerId × Ptr)},
    (∀ e ∈ entries, ∃ peer, n.heap e.2 = some peer ∧ peer.peerid = e.1) →
      n.visitAll smT entries =
        .ok (((addressed smT entries).filter (closedAt n.heap)).map fun e => directCopy smT.msg e.1,
          ((addressed smT entries).filter fun e => !closedAt n.heap e).map fun e => (e.1, smT.msg))
  | [], _ => rfl
  | entry :: entries, h => by
    obtain ⟨peer, hp, hid⟩ := h entry List.mem_cons_self
    have ih := @visitAll_live n smT entries fun e he => h e (List.mem_cons_of_mem _ he)
    simp only [visitAll, visit_live hp hid, ih]
    by_cases hex : smT.except ≠ "" ∧ entry.1 = smT.except
    · simp only [addressed_cons_of_except hex, if_pos hex, List.nil_append]
    · rw [addressed_cons hex]
      by_cases hcl : closedAt n.heap entry = true
      · simp [hex, hcl]
      · simp [hex, hcl]

end Node

end Yamb
