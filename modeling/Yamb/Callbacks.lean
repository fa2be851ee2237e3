import Yamb.Lib.Lts
import Yamb.Node.Registry

/-!
# The callbacks of a room

The list of callbacks is made by the first `addCallback` for a room, and no call takes it away:
`leaveRoomWS` removes the list of a room that has none.

* `CallbackStep`: joining, leaving, adding, removing and incoming user messages;
* `CallbackHistory`: which callbacks the calls so far have added before and after the last join;
* `Dispatches`: a message to a joined room is dropped, passed on, or calls what was added since the
  last join;
* **`run_dispatches_iff`**: so it is for every message of a run exactly when every message finds the
  callbacks of earlier joins removed, and `addCallback` called before.
-/

set_option autoImplicit false

namespace Yamb

inductive CallbackEvent
  | joinRoomWS (roomId : RoomId) (junk : ℕ → Hash)
  | leaveRoomWS (roomId : RoomId)
  | addCallback (roomId : RoomId) (callback : Callback)
  | removeCallback (roomId : RoomId) (callback : Callback)
  | logic (pMsg : Message) (now : ℕ)

/-- Callbacks are added and removed for rooms that have been joined at least once, which have a
mutex. -/
inductive CallbackStep (n : Node) : CallbackEvent → Node → Prop
  | joinRoomWS (roomId : RoomId) (junk : ℕ → Hash) :
      CallbackStep n (.joinRoomWS roomId junk) (n.joinRoomWS roomId junk)
  | leaveRoomWS (roomId : RoomId) (h : (n.leaveRoomWS roomId).2 ≠ .error .useAfterFree) :
      CallbackStep n (.leaveRoomWS roomId) (n.leaveRoomWS roomId).1
  | addCallback (roomId : RoomId) (callback : Callback) (h : roomId ∈ n.callbacksMutexes) :
      CallbackStep n (.addCallback roomId callback) (n.addCallback roomId callback).1
  | removeCallback (roomId : RoomId) (callback : Callback) (h : roomId ∈ n.callbacksMutexes) :
      CallbackStep n (.removeCallback roomId callback) (n.removeCallback roomId callback).1
  | logic (pMsg : Message) (now : ℕ) :
      CallbackStep n (.logic pMsg now) (n.handleWebrtcNodeMessageLogic pMsg now).1

/-- What the calls of a run have asked for: the callbacks of each room that were added since its
last join, those added before it, both without what was removed since, and whether any was ever
added. -/
structure CallbackHistory where
  sinceJoin : RoomId → List Callback
  earlier : RoomId → List Callback
  ever : RoomId → Bool

namespace CallbackHistory

def empty : CallbackHistory := ⟨fun _ => [], fun _ => [], fun _ => false⟩

/-- A room that is joined already is not joined again. -/
def record (h : CallbackHistory) (n : Node) : CallbackEvent → CallbackHistory
  | .joinRoomWS roomId _ =>
    if roomId ∈ n.rooms then h
    else { h with
      earlier := Function.update h.earlier roomId (h.earlier roomId ++ h.sinceJoin roomId)
      sinceJoin := Function.update h.sinceJoin roomId [] }
  | .addCallback roomId callback => { h with
    sinceJoin := Function.update h.sinceJoin roomId (h.sinceJoin roomId ++ [callback])
    ever := Function.update h.ever roomId true }
  | .removeCallback roomId callback => { h with
    earlier := Function.update h.earlier roomId ((h.earlier roomId).filter fun x => x ≠ callback)
    sinceJoin :=
      Function.update h.sinceJoin roomId ((h.sinceJoin roomId).filter fun x => x ≠ callback) }
  | .leaveRoomWS _ | .logic _ _ => h

end CallbackHistory

/-- The steps, with their history. -/
def RecordedStep (s : Node × CallbackHistory) (e : CallbackEvent) (s' : Node × CallbackHistory) :
    Prop := CallbackStep s.1 e s'.1 ∧ s'.2 = s.2.record s.1 e

/-- **A user message to a joined room** ends before the dispatch, as one that was seen before or is
for another node, or calls what was added since the last join, in that order. -/
def Dispatches (s : Node × CallbackHistory) : CallbackEvent → Prop
  | .logic pMsg now => pMsg.roomId ∈ s.1.rooms →
    (s.1.handleWebrtcNodeMessageLogic pMsg now).2 = .ok none ∨
      (s.1.handleWebrtcNodeMessageLogic pMsg now).2 = .ok (some (s.2.sinceJoin pMsg.roomId))
  | _ => True

/-- The message is new, and for this node or for all. -/
def Node.Reaches (n : Node) (pMsg : Message) : Prop :=
  ∃ RU, n.roomManager[pMsg.roomId]? = some RU ∧
    RU.logicMsgHashesBuffer.isExists pMsg.hash = false ∧
    ∀ to', pMsg.json.to' = some to' → cstr to' = n.myIdInRoom pMsg.roomId

/-- A message that is to be dispatched in a joined room comes after an `addCallback` for the room,
and every callback added before the last join has been removed. -/
def Fresh (s : Node × CallbackHistory) : CallbackEvent → Prop
  | .logic pMsg _ => pMsg.roomId ∈ s.1.rooms → s.1.Reaches pMsg →
    s.2.ever pMsg.roomId = true ∧ s.2.earlier pMsg.roomId = []
  | _ => True

/-! ### What the list holds -/

/-- The list of a room holds all that was added and not removed, and a joined room has a mutex. -/
structure Kept (s : Node × CallbackHistory) : Prop where
  mutexes : ∀ roomId ∈ s.1.rooms, roomId ∈ s.1.callbacksMutexes
  callbacks : ∀ roomId : RoomId, s.1.callbacks[roomId]? =
    if s.2.ever roomId then some (s.2.earlier roomId ++ s.2.sinceJoin roomId) else none
  never : ∀ roomId, s.2.ever roomId = false →
    s.2.earlier roomId = [] ∧ s.2.sinceJoin roomId = []

variable {s s' : Node × CallbackHistory} {e : CallbackEvent} {tr : List CallbackEvent}

theorem kept_new (user : String) (hasher : String → Hash) :
    Kept (.new user hasher, .empty) where
  mutexes := fun _ h => absurd h List.not_mem_nil
  callbacks := fun roomId => by simp [Node.new, CallbackHistory.empty]
  never := fun _ _ => ⟨rfl, rfl⟩

namespace Node

variable (n : Node) (roomId : RoomId)

theorem leaveRoomWS_keeps : (n.leaveRoomWS roomId).1.callbacks = n.callbacks ∧
    (n.leaveRoomWS roomId).1.callbacksMutexes = n.callbacksMutexes ∧
    ∀ r ∈ (n.leaveRoomWS roomId).1.rooms, r ∈ n.rooms := by
  unfold leaveRoomWS
  split_ifs
  · have hsub : ∀ r ∈ n.rooms.erase roomId, r ∈ n.rooms := fun _ => List.mem_of_mem_erase
    split
    · exact ⟨rfl, rfl, hsub⟩
    · split_ifs
      · split <;> exact ⟨rfl, rfl, hsub⟩
      · exact ⟨rfl, rfl, hsub⟩
  · exact ⟨rfl, rfl, fun _ hr => hr⟩

theorem removeCallback_getElem? {roomId : RoomId} (hin : roomId ∈ n.callbacksMutexes)
    (callback : Callback) (r : RoomId) : (n.removeCallback roomId callback).1.callbacks[r]? =
      if roomId = r then n.callbacks[r]?.map (List.filter fun x => x ≠ callback)
      else n.callbacks[r]? := by
  unfold removeCallback
  rw [if_neg (not_not.mpr hin)]
  cases hl : n.callbacks[roomId]? with
  | none =>
    split_ifs with hrr
    · subst hrr
      rw [hl, Option.map_none]
    · rfl
  | some call_vec =>
    simp only [PointerCollection.getElem?_insert]
    split_ifs with hrr
    · subst hrr
      rw [hl, Option.map_some]
    · rfl

theorem removeCallback_keeps (callback : Callback) :
    (n.removeCallback roomId callback).1.callbacksMutexes = n.callbacksMutexes ∧
      (n.removeCallback roomId callback).1.rooms = n.rooms := by
  unfold removeCallback
  by_cases hin : roomId ∈ n.callbacksMutexes
  · rw [if_neg (not_not.mpr hin)]
    split <;> exact ⟨rfl, rfl⟩
  · rw [if_pos hin]
    exact ⟨rfl, rfl⟩

theorem handleWebrtcNodeMessageLogic_keeps (pMsg : Message) (now : ℕ) :
    (n.handleWebrtcNodeMessageLogic pMsg now).1.callbacks = n.callbacks ∧
    (n.handleWebrtcNodeMessageLogic pMsg now).1.callbacksMutexes = n.callbacksMutexes ∧
    (n.handleWebrtcNodeMessageLogic pMsg now).1.rooms = n.rooms := by
  unfold handleWebrtcNodeMessageLogic
  split
  · exact ⟨rfl, rfl, rfl⟩
  · split_ifs
    · exact ⟨rfl, rfl, rfl⟩
    · split
      · split_ifs <;> exact ⟨rfl, rfl, rfl⟩
      · exact ⟨rfl, rfl, rfl⟩

end Node

theorem Kept.congr {n n' : Node} {h : CallbackHistory} (hs : Kept (n, h))
    (hc : n'.callbacks = n.callbacks) (hm : n'.callbacksMutexes = n.callbacksMutexes)
    (hr : ∀ r ∈ n'.rooms, r ∈ n.rooms) : Kept (n', h) where
  mutexes := fun r hin => by
    show r ∈ n'.callbacksMutexes
    rw [hm]
    exact hs.mutexes r (hr r hin)
  callbacks := fun r => by
    show n'.callbacks[r]? = _
    rw [hc]
    exact hs.callbacks r
  never := hs.never

theorem Kept.joinRoomWS {n : Node} {h : CallbackHistory} (hs : Kept (n, h)) (roomId : RoomId)
    (junk : ℕ → Hash) : Kept (n.joinRoomWS roomId junk, h.record n (.joinRoomWS roomId junk)) := by
  by_cases hr : roomId ∈ n.rooms
  · simp only [Node.joinRoomWS, CallbackHistory.record, if_pos hr]
    exact hs
  · simp only [Node.joinRoomWS, CallbackHistory.record, if_neg hr]
    constructor
    · intro r hin
      show r ∈ n.callbacksMutexes.insertIfNew roomId ()
      rw [Std.ExtTreeMap.mem_insertIfNew, Std.LawfulEqCmp.compare_eq_iff_eq]
      rcases List.mem_append.mp hin with hin | hin
      · exact .inr (hs.mutexes r hin)
      · exact .inl (List.mem_singleton.mp hin).symm
    · intro r
      show n.callbacks[r]? = _
      rw [hs.callbacks r]
      by_cases hrr : r = roomId
      · subst hrr
        simp only [Function.update_self, List.append_nil]
      · simp only [Function.update_of_ne hrr]
    · intro r hever
      obtain ⟨he, hj⟩ : h.earlier r = [] ∧ h.sinceJoin r = [] := hs.never r hever
      by_cases hrr : r = roomId
      · subst hrr
        simp only [Function.update_self, he, hj, List.append_nil, and_self]
      · simp only [Function.update_of_ne hrr, he, hj, and_self]

theorem Kept.addCallback {n : Node} {h : CallbackHistory} (hs : Kept (n, h)) {roomId : RoomId}
    (callback : Callback) (hin : roomId ∈ n.callbacksMutexes) :
    Kept ((n.addCallback roomId callback).1, h.record n (.addCallback roomId callback)) := by
  obtain ⟨_, hm⟩ := PointerCollection.exists_of_mem hin
  have hlist : n.callbacks.getD roomId [] = h.earlier roomId ++ h.sinceJoin roomId := by
    rw [Std.ExtTreeMap.getD_eq_getD_getElem?, hs.callbacks roomId]
    cases hever : h.ever roomId with
    | true => rfl
    | false =>
      obtain ⟨he, hj⟩ := hs.never roomId hever
      rw [he, hj]
      rfl
  simp only [Node.addCallback, PointerCollection.get_of_mem hm, CallbackHistory.record]
  refine ⟨hs.mutexes, fun r => ?_, fun r hever => ?_⟩
  · simp only [PointerCollection.getElem?_insert]
    by_cases hrr : roomId = r
    · subst hrr
      simp only [if_true, Function.update_self, hlist, List.append_assoc]
    · rw [if_neg hrr]
      simp only [Function.update_of_ne (Ne.symm hrr)]
      exact hs.callbacks r
  · by_cases hrr : r = roomId
    · subst hrr
      simp only [Function.update_self] at hever
      cases hever
    · simp only [Function.update_of_ne hrr] at hever ⊢
      exact hs.never r hever

theorem Kept.removeCallback {n : Node} {h : CallbackHistory} (hs : Kept (n, h)) {roomId : RoomId}
    (callback : Callback) (hin : roomId ∈ n.callbacksMutexes) :
    Kept ((n.removeCallback roomId callback).1, h.record n (.removeCallback roomId callback)) := by
  obtain ⟨hm, hrooms⟩ := n.removeCallback_keeps roomId callback
  constructor
  · intro r hr
    show r ∈ (n.removeCallback roomId callback).1.callbacksMutexes
    rw [hm]
    exact hs.mutexes r (hrooms ▸ hr)
  · intro r
    show (n.removeCallback roomId callback).1.callbacks[r]? = if h.ever r then
      some (Function.update h.earlier roomId ((h.earlier roomId).filter fun x => x ≠ callback) r ++
        Function.update h.sinceJoin roomId ((h.sinceJoin roomId).filter fun x => x ≠ callback) r)
      else none
    rw [n.removeCallback_getElem? hin, hs.callbacks r]
    by_cases hrr : roomId = r
    · subst hrr
      by_cases hever : h.ever roomId = true
      · rw [if_pos rfl, if_pos hever, if_pos hever]
        simp only [Option.map_some, List.filter_append, Function.update_self]
      · rw [if_pos rfl, if_neg hever, if_neg hever, Option.map_none]
    · simp only [if_neg hrr, Function.update_of_ne (Ne.symm hrr)]
  · intro r hever
    obtain ⟨he, hj⟩ : h.earlier r = [] ∧ h.sinceJoin r = [] := hs.never r hever
    simp only [CallbackHistory.record]
    by_cases hrr : r = roomId
    · subst hrr
      simp only [Function.update_self, he, hj, List.filter_nil, and_self]
    · simp only [Function.update_of_ne hrr, he, hj, and_self]

theorem RecordedStep.kept (h : RecordedStep s e s') (hs : Kept s) : Kept s' := by
  obtain ⟨n, h₀⟩ := s
  obtain ⟨n', h'⟩ := s'
  obtain ⟨he, rfl⟩ : CallbackStep n e n' ∧ h' = h₀.record n e := h
  cases he with
  | joinRoomWS roomId junk => exact hs.joinRoomWS roomId junk
  | leaveRoomWS roomId hd =>
    obtain ⟨hc, hm, hr⟩ := n.leaveRoomWS_keeps roomId
    exact hs.congr hc hm hr
  | addCallback roomId callback hin => exact hs.addCallback callback hin
  | removeCallback roomId callback hin => exact hs.removeCallback callback hin
  | logic pMsg now =>
    obtain ⟨hc, hm, hr⟩ := n.handleWebrtcNodeMessageLogic_keeps pMsg now
    exact hs.congr hc hm fun r hin => hr ▸ hin

/-! ### What is called -/

/-- A message that is to be dispatched gets to the dispatch, any other one does not. -/
theorem handleWebrtcNodeMessageLogic_cases (n : Node) (pMsg : Message) (now : ℕ) :
    n.Reaches pMsg ∧ (n.handleWebrtcNodeMessageLogic pMsg now).2 = (n.dispatch pMsg.roomId).map some ∨
      ¬ n.Reaches pMsg ∧ (n.handleWebrtcNodeMessageLogic pMsg now).2 = .ok none := by
  unfold Node.handleWebrtcNodeMessageLogic Node.Reaches
  cases hRU : n.roomManager[pMsg.roomId]? with
  | none => exact .inr ⟨by simp, rfl⟩
  | some RU =>
    simp only [Option.some.injEq, exists_eq_left']
    by_cases hdup : RU.logicMsgHashesBuffer.isExists pMsg.hash = true
    · exact .inr ⟨by simp [hdup], by simp [hdup]⟩
    · rw [Bool.not_eq_true] at hdup
      simp only [hdup, Bool.false_eq_true, if_false, true_and]
      cases hto : pMsg.json.to' with
      | none => exact .inl ⟨by simp, rfl⟩
      | some to' =>
        by_cases hme : cstr to' = n.myIdInRoom pMsg.roomId
        · exact .inl ⟨by simpa using hme, by simp [hme]⟩
        · exact .inr ⟨by simpa using hme, by simp [hme]⟩

/-- **One message.** -/
theorem dispatches_iff (hs : Kept s) : Dispatches s e ↔ Fresh s e := by
  cases e with
  | logic pMsg now =>
    refine forall_congr' fun hin => ?_
    rcases handleWebrtcNodeMessageLogic_cases s.1 pMsg now with ⟨hr, heq⟩ | ⟨hr, heq⟩
    · obtain ⟨_, hm⟩ := PointerCollection.exists_of_mem (hs.mutexes _ hin)
      rw [heq, Node.dispatch, PointerCollection.get_of_mem hm, PointerCollection.get,
        hs.callbacks pMsg.roomId]
      cases hever : s.2.ever pMsg.roomId with
      | true => simp [Except.map, hr]
      | false => simp [Except.map, hr]
    · exact iff_of_true (.inl heq) fun hc => absurd hc hr
  | _ => exact Iff.rfl

/-- **Every message of a run finds the callbacks of its room** exactly when every one of them finds
the list made, and emptied of the callbacks of earlier joins. -/
theorem run_dispatches_iff {user : String} {hasher : String → Hash} :
    Lts.Run (Lts.Only RecordedStep Dispatches) (.new user hasher, .empty) tr s ↔
      Lts.Run (Lts.Only RecordedStep Fresh) (.new user hasher, .empty) tr s := by
  exact Lts.run_only_congr (I := Kept) (kept_new user hasher) (fun _ _ _ hs he => he.kept hs)
    fun _ _ hs => dispatches_iff hs

/-- A message that comes before any callback: the dispatch throws. -/
theorem not_dispatches_before_addCallback : ¬ ∀ user hasher tr s,
    Lts.Run RecordedStep (.new user hasher, .empty) tr s → ∀ pMsg now,
      Dispatches s (.logic pMsg now) := by
  intro h
  let n : Node := (Node.new "u" String.length).joinRoomWS "r" fun _ => 0
  let s : Node × CallbackHistory :=
    (n, CallbackHistory.empty.record (.new "u" String.length) (.joinRoomWS "r" fun _ => 0))
  let pMsg : Message := .parse ⟨"r", "vr", none, .logic, 1, "", 1⟩
  have hroom : pMsg.roomId = "r" := by decide
  have hstep : RecordedStep (.new "u" String.length, .empty) (.joinRoomWS "r" fun _ => 0) s :=
    ⟨.joinRoomWS "r" fun _ => 0, rfl⟩
  have hreaches : s.1.Reaches pMsg := by
    refine ⟨createRoomUnit fun _ => 0, ?_, rfl, fun _ hto => by cases hto⟩
    rw [hroom]
    rfl
  have hs := hstep.kept (kept_new "u" String.length)
  have hfresh := (dispatches_iff hs).mp (h _ _ _ _ (Lts.Run.single hstep) pMsg 0)
  cases (hfresh (by rw [hroom]; decide) hreaches).1

end Yamb
