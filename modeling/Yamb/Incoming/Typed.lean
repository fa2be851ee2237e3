import Yamb.Incoming.Accepts

/-!
# Messages of well-behaved neighbours

The JSON of the messages that nodes build is handled as the typed messages and maps of the other
modules are.

* `Msg.toJson`, **`processWebRTCMessage_toJson`**: a user message;
* `NodesMapDiffUnit.toJson`, `lvlsJson`, `mapJson`, `readLvls_lvlsJson`: the units of a map;
* **`updateNodeMap_mapJson`**: a map.
-/

set_option autoImplicit false

namespace Yamb

/-- The enumerators of `MessageType`. -/
def MessageType.toInt : MessageType → ℤ
  | .announceWebrtc => 0
  | .logic => 1
  | .updateMap => 2
  | .data => 3
  | .system => 4
  | .stat => 5
  | .unknown => 6
  | .ping => 7
  | .pong => 8

/-- The object that `formMessage` builds; its members are in the order of their names. -/
def Msg.toJson (m : Msg) : JsonValue :=
  .obj ([("data", .str m.data), ("from", .str m.from'), ("hash", .num (.int m.hash)),
    ("msgId", .num (.int m.msgId)), ("roomId", .str m.roomId)] ++
    (m.to'.map fun to' => ("to", .str to')).toList ++ [("type", .num (.int m.type.toInt))])

def NodesMapDiffUnit.toJson (u : NodesMapDiffUnit) : JsonValue :=
  .obj [("Id", .str u.id), ("ParentIds", .arr (u.parentIds.map .str))]

/-- The levels of a map, by the texts of their names. -/
abbrev NamedLvls : Type := List (String × List NodesMapDiffUnit)

def lvlsJson (lvls : NamedLvls) : JsonValue :=
  .obj (lvls.map fun e => (e.1, .arr (e.2.map NodesMapDiffUnit.toJson)))

/-- A map that may lack a member. -/
def mapJson (connected disconnected : Option NamedLvls) : JsonValue :=
  .obj ((connected.map fun lvls => ("connectedBylvls", lvlsJson lvls)).toList ++
    (disconnected.map fun lvls => ("disconnectedBylvls", lvlsJson lvls)).toList)

namespace Incoming

variable {m : Msg} {now : ℕ}

/-! ### User messages -/

theorem messageType_toInt (t : MessageType) : messageType t.toInt = t := by
  cases t <;> rfl

theorem toInt_range (t : MessageType) : -2 ^ 31 ≤ t.toInt ∧ t.toInt < 2 ^ 31 := by
  cases t <;> decide

theorem find_type (m : Msg) : m.toJson.find "type" = some (.num (.int m.type.toInt)) := by
  obtain ⟨roomId, from', to' | to', type, msgId, data, hash⟩ := m
  · rfl
  · rfl

theorem find_to (m : Msg) : m.toJson.find "to" = m.to'.map .str := by
  obtain ⟨roomId, from', to' | to', type, msgId, data, hash⟩ := m
  · rfl
  · rfl

theorem typed_toJson (h : m.hash < 2 ^ 64) : Typed m.toJson (cstr m.roomId) m.hash m.type :=
  ⟨⟨m.roomId, rfl, rfl⟩, ⟨rfl, h⟩, m.type.toInt, find_type m, (toInt_range m.type).1,
    (toInt_range m.type).2, messageType_toInt m.type⟩

theorem relayMessage_toJson (h : m.hash < 2 ^ 64) (n : Node) (now : ℕ) :
    relayMessage n ⟨cstr m.roomId, m.toJson, m.hash, m.type⟩ (m.to'.map cstr) now =
      .ok (n.relayMessage (Yamb.Message.parse m) now) := by
  have hdata : member m.toJson "data" >>= getString = .ok (cstr m.data) := rfl
  have htype : member m.toJson "type" >>= getInt = .ok m.type.toInt :=
    bind_eq_ok.mpr ⟨_, member_eq_ok.mpr (find_type m), getInt_eq_ok.mpr ⟨rfl, toInt_range m.type⟩⟩
  have hhash : member m.toJson "hash" >>= getUint64 = .ok m.hash :=
    bind_eq_ok.mpr ⟨_, rfl, getUint64_eq_ok.mpr ⟨rfl, h⟩⟩
  refine bind_eq_ok.mpr ⟨_, hdata, bind_eq_ok.mpr ⟨_, htype, bind_eq_ok.mpr ⟨_, hhash, ?_⟩⟩⟩
  rw [messageType_toInt]
  unfold Node.relayMessage Yamb.Message.parse
  cases m.to' with
  | none => rfl
  | some to' => rfl

/-- **A user message** that a node has built is handled as `Node.handleWebrtcNodeMessageLogic` says. -/
theorem processWebRTCMessage_toJson (hm : m.type = .logic) (h : m.hash < 2 ^ 64)
    (parse : String → Option JsonValue) (N : MapNode) :
    processWebRTCMessage parse N m.toJson now =
      .ok (⟨(N.node.handleWebrtcNodeMessageLogic (.parse m) now).1, N.maps⟩,
        (N.node.handleWebrtcNodeMessageLogic (.parse m) now).2) := by
  refine processWebRTCMessage_eq_ok.mpr ⟨⟨m.data, rfl⟩, cstr m.roomId, m.hash, m.type,
    .typed (typed_toJson h), ?_⟩
  rw [if_neg (not_not.mpr hm)]
  unfold handleWebrtcNodeMessageLogic Node.handleWebrtcNodeMessageLogic
  simp only [Yamb.Message.parse]
  cases hRU : N.node.roomManager[cstr m.roomId]? with
  | none => rfl
  | some RU =>
    cases hseen : RU.logicMsgHashesBuffer.isExists m.hash with
    | true =>
      simp only [hseen, if_true]
    | false =>
      have hrelay := relayMessage_toJson h
        (N.node.setRoom (cstr m.roomId) (RU.putHash .logic m.hash)) now
      have hhas : hasMember m.toJson "to" = .ok (m.to'.map Json.str : Option JsonValue).isSome :=
        hasMember_eq_ok.mpr ⟨⟨_, rfl⟩, by rw [find_to]⟩
      simp only [hseen, Bool.false_eq_true, if_false]
      refine bind_eq_ok.mpr ⟨_, hhas, ?_⟩
      cases hto : m.to' with
      | none =>
        rw [hto] at hrelay
        exact bind_eq_ok.mpr ⟨_, hrelay, rfl⟩
      | some to' =>
        rw [hto] at hrelay
        have hs : member m.toJson "to" >>= getString = .ok (cstr to') :=
          memberString_eq_ok.mpr ⟨to', by rw [find_to, hto]; rfl, rfl⟩
        refine bind_eq_ok.mpr ⟨_, hs, ?_⟩
        have hid : (N.node.setRoom (cstr m.roomId) (RU.putHash .logic m.hash)).myIdInRoom
            (cstr m.roomId) = N.node.myIdInRoom (cstr m.roomId) := rfl
        dsimp only
        rw [hid]
        by_cases hme : cstr to' = N.node.myIdInRoom (cstr m.roomId)
        · simp only [ne_eq, hme, not_true, if_false]
          rfl
        · simp only [ne_eq, hme, not_false_eq_true, if_true]
          exact bind_eq_ok.mpr ⟨_, hrelay, rfl⟩

/-! ### Maps -/

/-- A unit as it is read: its texts are C strings. -/
def readText (u : NodesMapDiffUnit) : NodesMapDiffUnit := ⟨cstr u.id, u.parentIds.map cstr⟩

def readLvlsText (lvls : NamedLvls) : IncomingMap :=
  lvls.map fun e => (atoi e.1, e.2.map readText)

section maps

variable {root : NodeGraph}

theorem foldlM_liftGraph {σ α β γ : Type} {f : σ → α → Except MessageFault σ}
    {g : σ → β → Except GraphFault σ} {a : γ → α} {b : γ → β}
    (h : ∀ s e, f s (a e) = liftGraph (g s (b e))) (l : List γ) (s : σ) :
    (l.map a).foldlM f s = liftGraph ((l.map b).foldlM g s) := by
  induction l generalizing s with
  | nil => rfl
  | cons e l ih =>
    rw [List.map_cons, List.map_cons, List.foldlM_cons, List.foldlM_cons, h]
    cases g s (b e) with
    | error F => rfl
    | ok s' => exact ih s'

theorem readUnit_toJson {body : NodesMapDiff → NodesMapDiffUnit → Except GraphFault NodesMapDiff}
    (hown : ∀ nm_diff u, u.id = root.value.id → body nm_diff u = .ok nm_diff)
    (nm_diff : NodesMapDiff) (u : NodesMapDiffUnit) :
    readUnit root body nm_diff u.toJson = liftGraph (body nm_diff (readText u)) := by
  have hpids : parentIds u.toJson = .ok (u.parentIds.map cstr) :=
    parentIds_eq_ok.mpr ⟨u.parentIds, rfl, rfl⟩
  show (if cstr u.id = root.value.id then Except.ok nm_diff
    else parentIds u.toJson >>= fun inc_pids => liftGraph (body nm_diff ⟨cstr u.id, inc_pids⟩)) = _
  rw [hpids]
  split_ifs with hid
  · rw [hown nm_diff (readText u) hid]
    rfl
  · rfl

theorem readLvls_lvlsJson
    {body : ℕ → NodesMapDiff → NodesMapDiffUnit → Except GraphFault NodesMapDiff}
    (hown : ∀ lvl nm_diff u, u.id = root.value.id → body lvl nm_diff u = .ok nm_diff)
    (nm_diff : NodesMapDiff) (lvls : NamedLvls) :
    readLvls root body nm_diff (lvlsJson lvls) = liftGraph ((readLvlsText lvls).foldlM
      (fun nm_diff itr => itr.2.foldlM (body (clampLvl (itr.1 + 1))) nm_diff) nm_diff) :=
  foldlM_liftGraph (fun nm_diff e => foldlM_liftGraph (readUnit_toJson (hown _)) e.2 nm_diff) lvls
    nm_diff

theorem createDiffConnectedBylvls_lvlsJson (nm_diff : NodesMapDiff) (RU : RoomMap)
    (lvls : NamedLvls) : createDiffConnectedBylvls nm_diff RU (lvlsJson lvls) =
      liftGraph (Yamb.createDiffConnectedBylvls nm_diff RU (readLvlsText lvls)) :=
  readLvls_lvlsJson (fun _ _ _ hid => if_pos hid) nm_diff lvls

theorem createDiffDisconnectedBylvls_lvlsJson (nm_diff : NodesMapDiff) (RU : RoomMap)
    (lvls : NamedLvls) : createDiffDisconnectedBylvls nm_diff RU (lvlsJson lvls) =
      liftGraph (Yamb.createDiffDisconnectedBylvls nm_diff RU (readLvlsText lvls)) :=
  readLvls_lvlsJson (fun _ _ _ hid => if_pos hid) nm_diff lvls

/-- A missing map leaves the difference alone. -/
def createGiven (create : NodesMapDiff → IncomingMap → Except GraphFault NodesMapDiff)
    (nm_diff : NodesMapDiff) : Option IncomingMap → Except GraphFault NodesMapDiff
  | none => .ok nm_diff
  | some incoming => create nm_diff incoming

theorem createDiff_eq (RU : RoomMap) (connected disconnected : Option IncomingMap) :
    createDiff RU connected disconnected =
      createGiven (Yamb.createDiffConnectedBylvls · RU) .empty connected >>= fun nm_diff =>
        createGiven (Yamb.createDiffDisconnectedBylvls · RU) nm_diff disconnected := by
  cases connected <;> cases disconnected <;> rfl

theorem readGiven_connected (RU : RoomMap) (connected disconnected : Option NamedLvls) :
    readGiven (createDiffConnectedBylvls · RU) .empty (mapJson connected disconnected)
      "connectedBylvls" = liftGraph (createGiven (Yamb.createDiffConnectedBylvls · RU) .empty
        (connected.map readLvlsText)) := by
  cases connected with
  | none => cases disconnected <;> rfl
  | some lvls => exact createDiffConnectedBylvls_lvlsJson .empty RU lvls

theorem readGiven_disconnected (RU : RoomMap) (connected disconnected : Option NamedLvls)
    (nm_diff : NodesMapDiff) :
    readGiven (createDiffDisconnectedBylvls · RU) nm_diff (mapJson connected disconnected)
      "disconnectedBylvls" = liftGraph (createGiven (Yamb.createDiffDisconnectedBylvls · RU)
        nm_diff (disconnected.map readLvlsText)) := by
  cases disconnected with
  | none => cases connected <;> rfl
  | some lvls =>
    have hread := createDiffDisconnectedBylvls_lvlsJson nm_diff RU lvls
    cases connected with
    | none => exact hread
    | some lvls' => exact hread

/-- **A map** whose units have their members is applied as `MapNode.updateNodeMap` says. -/
theorem updateNodeMap_mapJson {N : MapNode} {roomId : RoomId}
    (hm : roomId ∈ N.node.peersInLvlMutexes) (hM : roomId ∈ N.maps) (fromWhomUpdate : PeerId)
    (connected disconnected : Option NamedLvls) :
    updateNodeMap N roomId fromWhomUpdate (mapJson connected disconnected) now =
      (liftGraph (N.updateNodeMap roomId fromWhomUpdate (connected.map readLvlsText)
        (disconnected.map readLvlsText) now)).map fun N' => (N', .ok none) := by
  obtain ⟨u, hu⟩ := PointerCollection.exists_of_mem hm
  obtain ⟨RU, hRU⟩ := PointerCollection.exists_of_mem hM
  unfold updateNodeMap MapNode.updateNodeMap Yamb.updateNodeMap
  rw [PointerCollection.get_of_mem hu]
  simp only [hRU]
  rw [if_neg (not_not.mpr hm), readGiven_connected, createDiff_eq]
  cases createGiven (Yamb.createDiffConnectedBylvls · RU) .empty (connected.map readLvlsText) with
  | error F => rfl
  | ok d₁ =>
    simp only [liftGraph, bind, Except.bind]
    rw [readGiven_disconnected]
    cases createGiven (Yamb.createDiffDisconnectedBylvls · RU) d₁
        (disconnected.map readLvlsText) with
    | error F => rfl
    | ok d₂ =>
      simp only [liftGraph]
      by_cases hempty : d₂ = .empty
      · rw [if_pos hempty, if_pos hempty]
        rfl
      rw [if_neg hempty, if_neg hempty]
      cases RU.onNodesMapDiff d₂ with
      | error F => rfl
      | ok RU' =>
        simp only [assert, decide_eq_true_eq]
        split_ifs
        · rfl
        · rfl

end maps

end Incoming

end Yamb
