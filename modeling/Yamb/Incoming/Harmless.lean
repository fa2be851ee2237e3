import Yamb.Incoming.Accepts
import Yamb.Incoming.Lonely
import Yamb.Topology.Update

/-!
# Messages that do no harm

* `Carries`, `Complete`: the members that a type of message requires;
* `Harmless`: a message is processed without a fault, and one that is not complete changes nothing;
* `updateNodeMap_eq_ok`, `run_exists_process_iff`: what is read without a fault;
* `lonely_step`, `run_lonely`: every state that a node reaches;
* `Meets`, **`run_harmless_iff`**: the messages that do no harm.
-/

set_option autoImplicit false

namespace Yamb

open RoseTree Incoming

/-! ### What a message is to carry -/

namespace Incoming

/-- What a type of message requires besides the header, with what is asked of the units of a map. -/
def Carries (parse : String → Option JsonValue) (C D : JsonValue → Prop) (j : JsonValue) :
    MessageType → Prop
  | .announceWebrtc => (∃ s, j.find "from" = some (.str s)) ∧
      ∃ t d m, j.find "data" = some (.str t) ∧ parse (cstr t) = some d ∧
        d.find "connectionsMap" = some m ∧ IsMap C D m
  | .updateMap => (∃ s, j.find "from" = some (.str s)) ∧
      ∃ t d, j.find "data" = some (.str t) ∧ parse (cstr t) = some d ∧ IsMap C D d
  | .logic => ∀ v, j.find "to" = some v → ∃ s, v = .str s
  | _ => True

/-- A unit with an id and the ids of parents. -/
def AnyUnit (val : JsonValue) : Prop := ∃ u, IsUnit val u

/-- No member that the type of the message requires is missing or ill-typed. -/
def Complete (parse : String → Option JsonValue) (j : JsonValue) : Prop :=
  (∃ t, j.find "data" = some (.str t)) ∧
    ∃ roomId hash type, Typed j roomId hash type ∧ Carries parse AnyUnit AnyUnit j type

/-- The last parent is there, and is not the node itself. -/
def Hangs (own : PeerId) (u : NodesMapDiffUnit) : Prop :=
  ∃ back, u.parentIds.getLast? = some back ∧ back ≠ own

/-- The own unit, or one that hangs on another. -/
def OwnOrHangs (own : PeerId) (val : JsonValue) : Prop :=
  ∃ u, IsUnit val u ∧ (u.id = own ∨ Hangs own u)

/-- Rooms (the windows, the peers and the topology) and the tasks of the sender are the same. -/
def Unchanged (N N' : MapNode) : Prop :=
  N'.node.roomManager = N.node.roomManager ∧ N'.maps = N.maps ∧ N'.node.sMq = N.node.sMq

/-- **Processing comes to its end**: no access to a member that is missing or of another type, no
failed assert; and a message that is not complete changes nothing. -/
def Harmless (parse : String → Option JsonValue) (N : MapNode) (j : JsonValue) (now : ℕ) : Prop :=
  ∃ r, processWebRTCMessage parse N j now = .ok r ∧ (¬ Complete parse j → Unchanged N r.1)

/-- The room is not joined, or its window has the hash. -/
def Ignores (N : MapNode) (roomId : RoomId) (hash : Hash) (type : MessageType) : Prop :=
  ∀ RU, N.node.roomManager[roomId]? = some RU →
    (if type = .logic then RU.logicMsgHashesBuffer else RU.systemMsgHashesBuffer).isExists hash =
      true

/-- The message has its data and its header or lacks a part of that, and it is ignored, or complete
with every connected unit one that hangs on another, if it is not the own unit. -/
def Meets (parse : String → Option JsonValue) (N : MapNode) (j : JsonValue) : Prop :=
  (∃ t, j.find "data" = some (.str t)) ∧ ∃ roomId hash type, Header j roomId hash type ∧
    (Ignores N roomId hash type ∨ Typed j roomId hash type ∧
      Carries parse (OwnOrHangs (N.node.myIdInRoom roomId)) AnyUnit j type)

/-- What is read of a message without a fault. -/
def Accepts (parse : String → Option JsonValue) (own : PeerId) (j : JsonValue) :
    MessageType → Prop
  | .announceWebrtc => (∃ s, j.find "from" = some (.str s)) ∧
      ∀ t d, j.find "data" = some (.str t) → parse (cstr t) = some d →
        ∃ m, d.find "connectionsMap" = some m ∧
          IsMap (Readable own (Hangs own)) (Readable own fun _ => True) m
  | .updateMap => (∃ s, j.find "from" = some (.str s)) ∧
      ∀ t d, j.find "data" = some (.str t) → parse (cstr t) = some d →
        IsMap (Readable own (Hangs own)) (Readable own fun _ => True) d
  | .logic => ∀ v, j.find "to" = some v → ∃ s, v = .str s
  | _ => True

variable {parse : String → Option JsonValue} {own : PeerId} {j val : JsonValue}
  {type : MessageType}

theorem OwnOrHangs.anyUnit (h : OwnOrHangs own val) : AnyUnit val := by
  obtain ⟨u, hu, -⟩ := h
  exact ⟨u, hu⟩

theorem AnyUnit.readable (h : AnyUnit val) : Readable own (fun _ => True) val := by
  obtain ⟨⟨id, pids⟩, ⟨t, ht, rfl⟩, hpids⟩ := h
  exact ⟨t, ht, .inr ⟨pids, ⟨⟨t, ht, rfl⟩, hpids⟩, trivial⟩⟩

theorem OwnOrHangs.readable (h : OwnOrHangs own val) : Readable own (Hangs own) val := by
  obtain ⟨⟨id, pids⟩, ⟨⟨t, ht, rfl⟩, hpids⟩, hown | hhangs⟩ := h
  · exact ⟨t, ht, .inl hown⟩
  · exact ⟨t, ht, .inr ⟨pids, ⟨⟨t, ht, rfl⟩, hpids⟩, hhangs⟩⟩

theorem AnyUnit.ownOrHangs (h : AnyUnit val) (hr : Readable own (Hangs own) val) :
    OwnOrHangs own val := by
  obtain ⟨u, hu⟩ := h
  obtain ⟨t, ht, hown | ⟨pids, hu', hhangs⟩⟩ := hr
  · refine ⟨u, hu, .inl ?_⟩
    obtain ⟨⟨t', ht', hid⟩, -⟩ := hu
    cases ht.symm.trans ht'
    exact hid.symm.trans hown
  · exact ⟨_, hu', .inr hhangs⟩

/-- The units of a complete message decide whether it is read without a fault. -/
theorem carries_iff : Carries parse AnyUnit AnyUnit j type ∧ Accepts parse own j type ↔
    Carries parse (OwnOrHangs own) AnyUnit j type := by
  cases type with
  | announceWebrtc =>
    constructor
    · rintro ⟨⟨hfrom, t, d, m, ht, hd, hm, hmap⟩, -, haccepts⟩
      obtain ⟨m', hm', hmap'⟩ := haccepts t d ht hd
      cases hm.symm.trans hm'
      exact ⟨hfrom, t, d, m, ht, hd, hm, hmap.and hmap' (fun _ => AnyUnit.ownOrHangs)
        fun _ hu _ => hu⟩
    · rintro ⟨hfrom, t, d, m, ht, hd, hm, hmap⟩
      refine ⟨⟨hfrom, t, d, m, ht, hd, hm, hmap.mono (fun _ => OwnOrHangs.anyUnit) fun _ hu => hu⟩,
        hfrom, fun t' d' ht' hd' => ?_⟩
      cases ht.symm.trans ht'
      cases hd.symm.trans hd'
      exact ⟨m, hm, hmap.mono (fun _ => OwnOrHangs.readable) fun _ => AnyUnit.readable⟩
  | updateMap =>
    constructor
    · rintro ⟨⟨hfrom, t, d, ht, hd, hmap⟩, -, haccepts⟩
      exact ⟨hfrom, t, d, ht, hd, hmap.and (haccepts t d ht hd) (fun _ => AnyUnit.ownOrHangs)
        fun _ hu _ => hu⟩
    · rintro ⟨hfrom, t, d, ht, hd, hmap⟩
      refine ⟨⟨hfrom, t, d, ht, hd, hmap.mono (fun _ => OwnOrHangs.anyUnit) fun _ hu => hu⟩,
        hfrom, fun t' d' ht' hd' => ?_⟩
      cases ht.symm.trans ht'
      cases hd.symm.trans hd'
      exact hmap.mono (fun _ => OwnOrHangs.readable) fun _ => AnyUnit.readable
  | logic => exact and_iff_left_of_imp id
  | data | system | stat | unknown | ping | pong => exact iff_of_true ⟨trivial, trivial⟩ trivial

theorem Header.eq_of_typed {roomId roomId' : RoomId} {hash hash' : Hash} {type type' : MessageType}
    (h : Header j roomId hash type) (h' : Typed j roomId' hash' type') :
    roomId' = roomId ∧ hash' = hash ∧ type' = type := by
  obtain ⟨⟨s', hs', rfl⟩, ⟨hn', -⟩, i', hi', -, -, rfl⟩ := h'
  cases h with
  | typed h =>
    obtain ⟨⟨s, hs, rfl⟩, ⟨hn, -⟩, i, hi, -, -, rfl⟩ := h
    cases hs.symm.trans hs'
    cases hi.symm.trans hi'
    refine ⟨rfl, ?_, rfl⟩
    cases hn.symm.trans hn'
    rfl
  | missing hobj h =>
    rcases h with h | h | h
    · cases h.symm.trans hs'
    · cases h.symm.trans hn'
    · cases h.symm.trans hi'

end Incoming

/-! ### A map in a room without units -/

theorem diffConnected_childless_iff {g : NodeGraph} (hg : g.children = []) {lvl : ℕ}
    {diff d : NodesMapDiff} {u : NodesMapDiffUnit} (hid : u.id ≠ g.value.id) :
    diffConnected g lvl diff u = .ok d ↔ d = diff ∧ Hangs g.value.id u := by
  have hnone : ∀ x, x ≠ g.value.id → findInGraph g x = none := by
    intro x hx
    cases hf : findInGraph g x with
    | none => rfl
    | some π => exact absurd (findInGraph_of_childless hg hf).2.symm hx
  unfold diffConnected attachUnit
  rw [if_neg hid, hnone u.id hid]
  cases hl : u.parentIds.getLast? with
  | none =>
    refine iff_of_false (fun h => by cases h) ?_
    rintro ⟨-, back, hback, -⟩
    cases hl.symm.trans hback
  | some back =>
    dsimp only
    by_cases hb : back = g.value.id
    · -- the node itself has no chain
      rw [hb, findInGraph_own]
      refine iff_of_false (fun h => by cases h) ?_
      rintro ⟨-, back', hback', hne⟩
      cases hl.symm.trans hback'
      exact hne hb
    · rw [hnone back hb]
      refine ⟨fun h => ⟨(Except.ok.inj h).symm, back, hl, hb⟩, ?_⟩
      rintro ⟨rfl, -⟩
      rfl

theorem diffDisconnected_childless_iff {g : NodeGraph} (hg : g.children = []) {lvl : ℕ}
    {diff d : NodesMapDiff} {u : NodesMapDiffUnit} (hid : u.id ≠ g.value.id) :
    diffDisconnected g lvl diff u = .ok d ↔ d = diff ∧ True := by
  refine ⟨fun h => ⟨diffDisconnected_of_childless hg h, trivial⟩, ?_⟩
  rintro ⟨rfl, -⟩
  unfold diffDisconnected
  rw [if_neg hid]
  cases hf : findInGraphWithParents g u.parentIds u.id with
  | some π =>
    obtain ⟨s, hs, hx⟩ := findInTurn_append_singleton hf
    obtain ⟨-, rfl⟩ := sub_of_childless hg hs
    exact absurd hx.symm hid
  | none =>
    rw [findInGraphWithoutParents_of_childless hg hid]
    rfl

namespace Incoming

variable {parse : String → Option JsonValue} {N : MapNode} {roomId : RoomId} {now : ℕ} {r : Outcome}

section childless

variable {M : RoomMap} {nm_diff d : NodesMapDiff} {incoming : JsonValue}

theorem createDiffConnectedBylvls_eq_ok (hg : M.iamRoot.children = []) :
    createDiffConnectedBylvls nm_diff M incoming = .ok d ↔ d = nm_diff ∧
      IsLvls (Readable M.iamRoot.value.id (Hangs M.iamRoot.value.id)) incoming :=
  readLvls_eq_ok fun _ _ _ hid => diffConnected_childless_iff hg hid

theorem createDiffDisconnectedBylvls_eq_ok (hg : M.iamRoot.children = []) :
    createDiffDisconnectedBylvls nm_diff M incoming = .ok d ↔ d = nm_diff ∧
      IsLvls (Readable M.iamRoot.value.id fun _ => True) incoming :=
  readLvls_eq_ok fun _ _ _ hid => diffDisconnected_childless_iff hg hid

end childless

/-- A map adds nothing; it fails when a unit cannot be read or hangs on nothing. -/
theorem updateNodeMap_eq_ok (hN : N.Lonely) (hr : roomId ∈ N.node.roomManager)
    {fromWhomUpdate : PeerId} {diff : JsonValue} :
    updateNodeMap N roomId fromWhomUpdate diff now = .ok r ↔ r = (N, .ok none) ∧
      IsMap (Readable (N.node.myIdInRoom roomId) (Hangs (N.node.myIdInRoom roomId)))
        (Readable (N.node.myIdInRoom roomId) fun _ => True) diff := by
  obtain ⟨u, hu⟩ := PointerCollection.exists_of_mem (hN.mutexes roomId hr)
  obtain ⟨M, hM⟩ := PointerCollection.exists_of_mem (hN.mem_maps roomId hr)
  obtain ⟨hg, hown⟩ := hN.lonely roomId M hM
  rw [← hown]
  have hconnected : ∀ d, readGiven (createDiffConnectedBylvls · M) .empty diff "connectedBylvls" =
      .ok d ↔ d = .empty ∧ (∃ ms, diff = .obj ms) ∧ ∀ v, diff.find "connectedBylvls" = some v →
        v = .null ∨ IsLvls (Readable M.iamRoot.value.id (Hangs M.iamRoot.value.id)) v :=
    fun d => readGiven_eq_ok fun _ _ => createDiffConnectedBylvls_eq_ok hg
  have hdisconnected : ∀ d, readGiven (createDiffDisconnectedBylvls · M) .empty diff
      "disconnectedBylvls" = .ok d ↔ d = .empty ∧ (∃ ms, diff = .obj ms) ∧
        ∀ v, diff.find "disconnectedBylvls" = some v →
          v = .null ∨ IsLvls (Readable M.iamRoot.value.id fun _ => True) v :=
    fun d => readGiven_eq_ok fun _ _ => createDiffDisconnectedBylvls_eq_ok hg
  unfold updateNodeMap
  rw [PointerCollection.get_of_mem hu, hM]
  constructor
  · intro h
    obtain ⟨d, hd, h⟩ := bind_eq_ok.mp h
    obtain ⟨rfl, hobj, hc⟩ := (hconnected d).mp hd
    obtain ⟨d, hd, h⟩ := bind_eq_ok.mp h
    obtain ⟨rfl, -, hdis⟩ := (hdisconnected d).mp hd
    cases h
    exact ⟨rfl, hobj, hc, hdis⟩
  · rintro ⟨rfl, hobj, hc, hdis⟩
    exact bind_eq_ok.mpr ⟨_, (hconnected _).mpr ⟨rfl, hobj, hc⟩,
      bind_eq_ok.mpr ⟨_, (hdisconnected _).mpr ⟨rfl, hobj, hdis⟩, rfl⟩⟩

/-! ### Handling -/

section handle

variable {m : Message}

/-- A text that is no JSON ends the handling without a fault. -/
theorem parsed_eq_ok {text : String} {handle : JsonValue → Except MessageFault Outcome}
    {P : JsonValue → Prop} (hhandle : ∀ d, handle d = .ok r ↔ r = (N, .ok none) ∧ P d) :
    (match parse text with
      | none => pure (N, .ok none)
      | some data => handle data) = Except.ok r ↔
      r = (N, .ok none) ∧ ∀ d, parse text = some d → P d := by
  cases parse text with
  | none => simp [pure, Except.pure, eq_comm]
  | some d => simp [hhandle]

/-- The sender and the data are read, and then the JSON inside of the data. -/
theorem data_eq_ok {j : JsonValue} {handle : PeerId → JsonValue → Except MessageFault Outcome}
    {P : JsonValue → Prop} (hdata : ∃ t, j.find "data" = some (.str t))
    (hhandle : ∀ from' d, handle from' d = .ok r ↔ r = (N, .ok none) ∧ P d) :
    (do
      let from' ← member j "from" >>= getString
      let text ← member j "data" >>= getString
      match parse text with
      | none => pure (N, .ok none)
      | some data => handle from' data) = Except.ok r ↔
      r = (N, .ok none) ∧ (∃ s, j.find "from" = some (.str s)) ∧
        ∀ t d, j.find "data" = some (.str t) → parse (cstr t) = some d → P d := by
  obtain ⟨t, ht⟩ := hdata
  have htext := memberString_eq_ok.mpr ⟨t, ht, rfl⟩
  simp only [htext, ok_bind]
  constructor
  · intro h
    obtain ⟨from', hfrom, h⟩ := bind_eq_ok.mp h
    obtain ⟨s, hs, -⟩ := memberString_eq_ok.mp hfrom
    obtain ⟨hok, hP⟩ := (parsed_eq_ok (hhandle from')).mp h
    refine ⟨hok, ⟨s, hs⟩, fun t' d ht' hd => ?_⟩
    cases ht.symm.trans ht'
    exact hP d hd
  · rintro ⟨hok, ⟨s, hs⟩, hP⟩
    exact bind_eq_ok.mpr ⟨_, memberString_eq_ok.mpr ⟨s, hs, rfl⟩,
      (parsed_eq_ok (hhandle _)).mpr ⟨hok, fun d hd => hP t d ht hd⟩⟩

theorem hasRoomId_eq_ok {j : JsonValue} (hroom : ∃ v, j.find "roomId" = some v) :
    hasMember j "roomId" = .ok true := by
  obtain ⟨v, hv⟩ := hroom
  exact hasMember_eq_ok.mpr ⟨Json.exists_obj_of_find hv, congrArg Option.isSome hv⟩

theorem onAnnounceWebRTC_eq_ok (hN : N.Lonely) (hr : m.roomId ∈ N.node.roomManager)
    (hroom : ∃ v, m.json.find "roomId" = some v) (hdata : ∃ t, m.json.find "data" = some (.str t)) :
    onAnnounceWebRTC parse N m now = .ok r ↔ r = (N, .ok none) ∧
      Accepts parse (N.node.myIdInRoom m.roomId) m.json .announceWebrtc := by
  -- the map inside of the data
  have hinner : ∀ (from' : PeerId) (d : JsonValue), (do
      let hasMap ← hasMember d "connectionsMap"
      assert hasMap
      let incomingNodesMap ← member d "connectionsMap"
      updateNodeMap N m.roomId from' incomingNodesMap now) = .ok r ↔ r = (N, .ok none) ∧
        ∃ w, d.find "connectionsMap" = some w ∧
          IsMap (Readable (N.node.myIdInRoom m.roomId) (Hangs (N.node.myIdInRoom m.roomId)))
            (Readable (N.node.myIdInRoom m.roomId) fun _ => True) w := by
    intro from' d
    simp only [bind_eq_ok, hasMember_eq_ok, member_eq_ok, assert_eq_ok, updateNodeMap_eq_ok hN hr]
    constructor
    · rintro ⟨_, -, _, -, w, hw, hok, hmap⟩
      exact ⟨hok, w, hw, hmap⟩
    · rintro ⟨hok, w, hw, hmap⟩
      exact ⟨true, ⟨Json.exists_obj_of_find hw, congrArg Option.isSome hw⟩, (), rfl, w, hw, hok, hmap⟩
  unfold onAnnounceWebRTC
  simp only [hasRoomId_eq_ok hroom, assert_true, ok_bind]
  exact data_eq_ok hdata hinner

theorem onIncomingNodeMapDifference_eq_ok (hN : N.Lonely) (hr : m.roomId ∈ N.node.roomManager)
    (hroom : ∃ v, m.json.find "roomId" = some v) (hdata : ∃ t, m.json.find "data" = some (.str t)) :
    onIncomingNodeMapDifference parse N m now = .ok r ↔ r = (N, .ok none) ∧
      Accepts parse (N.node.myIdInRoom m.roomId) m.json .updateMap := by
  have hinner : ∀ from' d, updateNodeMap N m.roomId from' d now = .ok r ↔ _ :=
    fun from' d => updateNodeMap_eq_ok hN hr
  unfold onIncomingNodeMapDifference
  simp only [hasRoomId_eq_ok hroom, assert_true, ok_bind]
  exact data_eq_ok hdata hinner

/-- The node with the hash of the message. -/
def recorded (N : MapNode) (RU : RoomUnit) (m : Message) : MapNode :=
  { N with node := N.node.setRoom m.roomId (RU.putHash m.type m.hash) }

variable {RU : RoomUnit}

theorem handleSystem_eq_ok (hN : N.Lonely) (hRU : N.node.roomManager[m.roomId]? = some RU)
    (hnew : RU.systemMsgHashesBuffer.isExists m.hash = false)
    (hheader : Header m.json m.roomId m.hash m.type)
    (hdata : ∃ t, m.json.find "data" = some (.str t)) (htype : m.type ≠ .logic) :
    handleWebrtcNodeMessageSystem parse N m now = .ok r ↔ r = (recorded N RU m, .ok none) ∧
      Accepts parse (N.node.myIdInRoom m.roomId) m.json m.type := by
  have hput : (recorded N RU m).Lonely :=
    hN.sameRooms (Node.sameRooms_setRoom hRU (RU.sameSize_putHash m.type m.hash))
  have hr : m.roomId ∈ (recorded N RU m).node.roomManager := Std.ExtTreeMap.mem_insert_self
  have hroom : m.type ≠ .unknown → ∃ v, m.json.find "roomId" = some v := by
    intro hne
    generalize m.type = type at hheader hne
    generalize m.roomId = roomId at hheader
    generalize m.hash = hash at hheader
    cases hheader with
    | typed h => exact ⟨_, h.1.choose_spec.1⟩
    | missing => exact absurd rfl hne
  unfold handleWebrtcNodeMessageSystem
  rw [hRU]
  simp only [hnew, Bool.false_eq_true, if_false]
  cases ht : m.type with
  | announceWebrtc =>
    have hiff : onAnnounceWebRTC parse _ m now = .ok r ↔ _ := onAnnounceWebRTC_eq_ok hput hr
      (hroom (by rw [ht]; exact MessageType.noConfusion)) hdata
    simp only [recorded, ht] at hiff ⊢
    exact hiff
  | updateMap =>
    have hiff : onIncomingNodeMapDifference parse _ m now = .ok r ↔ _ :=
      onIncomingNodeMapDifference_eq_ok hput hr
        (hroom (by rw [ht]; exact MessageType.noConfusion)) hdata
    simp only [recorded, ht] at hiff ⊢
    exact hiff
  | logic => exact absurd ht htype
  | data | system | stat | unknown | ping | pong =>
    simp only [recorded, ht]
    exact ⟨fun h => ⟨(Except.ok.inj h).symm, trivial⟩, fun h => h.1 ▸ rfl⟩

theorem exists_relayMessage (hheader : Typed m.json m.roomId m.hash m.type)
    (hdata : ∃ t, m.json.find "data" = some (.str t)) (now : ℕ) (n : Node)
    (to' : Option PeerId) :
    ∃ msg, relayMessage n m to' now = .ok msg := by
  obtain ⟨t, ht⟩ := hdata
  obtain ⟨-, ⟨hn, hlt⟩, i, hi, hle, hlt', -⟩ := hheader
  simp only [relayMessage, bind_eq_ok, member_eq_ok, getString_eq_ok, getInt_eq_ok,
    getUint64_eq_ok]
  cases to' with
  | none => exact ⟨_, _, ⟨_, ht, t, rfl, rfl⟩, _, ⟨_, hi, rfl, hle, hlt'⟩, _, ⟨_, hn, rfl, hlt⟩, rfl⟩
  | some to' =>
    exact ⟨_, _, ⟨_, ht, t, rfl, rfl⟩, _, ⟨_, hi, rfl, hle, hlt'⟩, _, ⟨_, hn, rfl, hlt⟩, rfl⟩

theorem handleLogic_rooms (hRU : N.node.roomManager[m.roomId]? = some RU)
    (hnew : RU.logicMsgHashesBuffer.isExists m.hash = false)
    (h : handleWebrtcNodeMessageLogic N m now = .ok r) :
    N.node.SameRooms r.1.node ∧ r.1.maps = N.maps ∧
      r.1.node.roomManager = N.node.roomManager.insert m.roomId (RU.putHash .logic m.hash) := by
  have hput := Node.sameRooms_setRoom hRU (RU.sameSize_putHash .logic m.hash)
  have hpush : ∀ task, N.node.SameRooms
      ((N.node.setRoom m.roomId (RU.putHash .logic m.hash)).push task) :=
    fun task => hput.trans (Node.sameRooms_of_eq rfl rfl rfl rfl)
  unfold handleWebrtcNodeMessageLogic at h
  rw [hRU] at h
  simp only [hnew, Bool.false_eq_true, if_false] at h
  obtain ⟨hasTo, -, h⟩ := bind_eq_ok.mp h
  split_ifs at h
  · obtain ⟨to', -, h⟩ := bind_eq_ok.mp h
    split_ifs at h
    · obtain ⟨msg, -, h⟩ := bind_eq_ok.mp h
      cases h
      exact ⟨hpush _, rfl, rfl⟩
    · cases h
      exact ⟨hput, rfl, rfl⟩
  · obtain ⟨msg, -, h⟩ := bind_eq_ok.mp h
    cases h
    exact ⟨hpush _, rfl, rfl⟩

theorem exists_handleLogic_iff (hRU : N.node.roomManager[m.roomId]? = some RU)
    (hnew : RU.logicMsgHashesBuffer.isExists m.hash = false)
    (hheader : Typed m.json m.roomId m.hash m.type)
    (hdata : ∃ t, m.json.find "data" = some (.str t)) (own : PeerId) :
    (∃ r, handleWebrtcNodeMessageLogic N m now = .ok r) ↔ Accepts parse own m.json .logic := by
  unfold handleWebrtcNodeMessageLogic
  rw [hRU]
  simp only [hnew, Bool.false_eq_true, if_false]
  have hobj := Json.exists_obj_of_find hdata.choose_spec
  constructor
  · rintro ⟨r, h⟩ v hv
    obtain ⟨hasTo, hhas, h⟩ := bind_eq_ok.mp h
    obtain ⟨-, rfl⟩ := hasMember_eq_ok.mp hhas
    rw [if_pos (by rw [hv]; rfl)] at h
    obtain ⟨to', hto, -⟩ := bind_eq_ok.mp h
    obtain ⟨s, hs, -⟩ := memberString_eq_ok.mp hto
    cases hv.symm.trans hs
    exact ⟨s, rfl⟩
  · intro haccepts
    have hrelay := exists_relayMessage hheader hdata now
      (N.node.setRoom m.roomId (RU.putHash .logic m.hash))
    refine exists_bind (hasMember_eq_ok.mpr ⟨hobj, rfl⟩) ?_
    cases hto : m.json.find "to" with
    | none =>
      obtain ⟨msg, hmsg⟩ := hrelay none
      exact exists_bind hmsg ⟨_, rfl⟩
    | some v =>
      obtain ⟨s, rfl⟩ := haccepts v hto
      refine exists_bind (memberString_eq_ok.mpr ⟨s, hto, rfl⟩) ?_
      split_ifs
      · obtain ⟨msg, hmsg⟩ := hrelay (some (cstr s))
        exact exists_bind hmsg ⟨_, rfl⟩
      · exact ⟨_, rfl⟩

end handle

/-! ### Processing -/

section process

variable {j : JsonValue} {hash : Hash} {type : MessageType}

/-- The message that a node ignores. -/
theorem process_of_ignores (hdata : ∃ t, j.find "data" = some (.str t))
    (hheader : Header j roomId hash type) (h : Ignores N roomId hash type) :
    processWebRTCMessage parse N j now = .ok (N, .ok none) := by
  refine processWebRTCMessage_eq_ok.mpr ⟨hdata, roomId, hash, type, hheader, ?_⟩
  unfold handleWebrtcNodeMessageSystem handleWebrtcNodeMessageLogic
  cases hRU : N.node.roomManager[roomId]? with
  | none =>
    dsimp only
    split_ifs <;> rfl
  | some RU =>
    have hseen := h RU hRU
    dsimp only
    by_cases htype : type = .logic
    · rw [if_pos htype] at hseen
      rw [if_neg (not_not.mpr htype), if_pos hseen]
    · rw [if_neg htype] at hseen
      rw [if_pos htype, if_pos hseen]

/-- What becomes of a message that a node does not ignore. -/
theorem process_of_not_ignores (hN : N.Lonely) (hdata : ∃ t, j.find "data" = some (.str t))
    (hheader : Header j roomId hash type) (h : ¬ Ignores N roomId hash type) :
    ∃ RU, N.node.roomManager[roomId]? = some RU ∧
      ((∃ r, processWebRTCMessage parse N j now = .ok r) ↔
        Accepts parse (N.node.myIdInRoom roomId) j type) ∧
      ∀ r, processWebRTCMessage parse N j now = .ok r →
        N.node.SameRooms r.1.node ∧ r.1.maps = N.maps ∧
          r.1.node.roomManager = N.node.roomManager.insert roomId (RU.putHash type hash) := by
  unfold Ignores at h
  simp only [not_forall, Bool.not_eq_true] at h
  obtain ⟨RU, hRU, hnew⟩ := h
  have hprocess : ∀ r, processWebRTCMessage parse N j now = .ok r ↔
      (if type ≠ .logic then handleWebrtcNodeMessageSystem parse N ⟨roomId, j, hash, type⟩ now
        else handleWebrtcNodeMessageLogic N ⟨roomId, j, hash, type⟩ now) = .ok r := by
    refine fun r => processWebRTCMessage_eq_ok.trans ⟨?_, fun h => ⟨hdata, _, _, _, hheader, h⟩⟩
    rintro ⟨-, roomId', hash', type', hheader', h⟩
    have hread := readMessage_eq_ok.mpr
      (⟨rfl, hheader⟩ : (⟨roomId, j, hash, type⟩ : Message).json = j ∧ _)
    have hread' := readMessage_eq_ok.mpr
      (⟨rfl, hheader'⟩ : (⟨roomId', j, hash', type'⟩ : Message).json = j ∧ _)
    cases hread.symm.trans hread'
    exact h
  refine ⟨RU, hRU, ?_⟩
  simp only [hprocess]
  by_cases htype : type = .logic
  · subst htype
    rw [if_pos rfl] at hnew
    have htyped : Typed j roomId hash .logic := by
      cases hheader with
      | typed h => exact h
    simp only [ne_eq, not_true, if_false]
    exact ⟨exists_handleLogic_iff (m := ⟨roomId, j, hash, .logic⟩) hRU hnew htyped hdata _,
      fun r hr => handleLogic_rooms (m := ⟨roomId, j, hash, .logic⟩) hRU hnew hr⟩
  · rw [if_neg htype] at hnew
    simp only [ne_eq, htype, not_false_eq_true, if_true]
    have hsystem : ∀ r, handleWebrtcNodeMessageSystem parse N ⟨roomId, j, hash, type⟩ now = .ok r ↔
        _ := fun r => handleSystem_eq_ok (m := ⟨roomId, j, hash, type⟩) hN hRU hnew hheader hdata htype
    refine ⟨⟨?_, fun ha => ⟨_, (hsystem _).mpr ⟨rfl, ha⟩⟩⟩, fun r hr => ?_⟩
    · rintro ⟨r, hr⟩
      exact ((hsystem r).mp hr).2
    · obtain ⟨rfl, -⟩ := (hsystem r).mp hr
      exact ⟨Node.sameRooms_setRoom hRU (RU.sameSize_putHash type hash), rfl, rfl⟩

end process

/-! ### Runs -/

theorem lonely_step {N' : MapNode} {e : IncomingEvent} (h : N.Lonely)
    (he : IncomingStep parse N e N') : N'.Lonely := by
  cases he with
  | call hd hm => exact h.call hd hm
  | thread ht => exact h.sameRooms (Node.sameRooms_thread ht)
  | addCallback roomId callback => exact h.sameRooms (N.node.sameRooms_addCallback roomId callback)
  | removeCallback roomId callback =>
    exact h.sameRooms (N.node.sameRooms_removeCallback roomId callback)
  | signal hd => exact h.sameRooms (N.node.sameRooms_signal _)
  | onSuccess conn sdp => exact h.sameRooms (N.node.sameRooms_onSuccess conn sdp)
  | @receive json now r hr =>
    obtain ⟨hdata, roomId, hash, type, hheader, -⟩ := processWebRTCMessage_eq_ok.mp hr
    by_cases hi : Ignores N roomId hash type
    · cases hr.symm.trans (process_of_ignores hdata hheader hi)
      exact h
    · obtain ⟨RU, -, -, hok⟩ := process_of_not_ignores h hdata hheader hi
      obtain ⟨hrooms, hmaps, -⟩ := hok r hr
      obtain ⟨⟨n, maps⟩, thrown⟩ := r
      cases hmaps
      exact h.sameRooms hrooms

/-- **No node has a unit in a topology** but itself, whatever it is sent. -/
theorem run_lonely {user : String} {hasher : String → Hash} {tr : List IncomingEvent}
    (h : Lts.Run (IncomingStep parse) (.new user hasher) tr N) : N.Lonely :=
  h.invariant (MapNode.new_lonely user hasher) fun _ _ _ hN he => lonely_step hN he

/-- A hash that is recorded moves the window on. -/
theorem putHash_ne {RU : RoomUnit} (hl : 2 ≤ RU.logicMsgHashesBuffer.maxSize)
    (hs : 2 ≤ RU.systemMsgHashesBuffer.maxSize) (type : MessageType) (hash : Hash) :
    RU.putHash type hash ≠ RU := by
  have hput : ∀ w : CircularBuffer Hash 500, 2 ≤ w.maxSize → w.put hash ≠ w := by
    intro w hw heq
    have hhead : (w.head + 1) % w.maxSize = w.head := congrArg CircularBuffer.head heq
    have hlt := w.head_lt
    rcases Nat.lt_or_ge (w.head + 1) w.maxSize with h | h
    · rw [Nat.mod_eq_of_lt h] at hhead
      omega
    · obtain hlast : w.head + 1 = w.maxSize := by omega
      rw [hlast, Nat.mod_self] at hhead
      omega
  unfold RoomUnit.putHash
  intro heq
  split_ifs at heq
  · exact hput _ hl (congrArg RoomUnit.logicMsgHashesBuffer heq)
  · exact hput _ hs (congrArg RoomUnit.systemMsgHashesBuffer heq)

variable {user : String} {hasher : String → Hash} {tr : List IncomingEvent}

/-- What a node reads without a fault. -/
theorem run_exists_process_iff (h : Lts.Run (IncomingStep parse) (.new user hasher) tr N)
    (j : JsonValue) (now : ℕ) : (∃ r, processWebRTCMessage parse N j now = .ok r) ↔
      (∃ t, j.find "data" = some (.str t)) ∧ ∃ roomId hash type, Header j roomId hash type ∧
        (Ignores N roomId hash type ∨ Accepts parse (N.node.myIdInRoom roomId) j type) := by
  constructor
  · rintro ⟨r, hr⟩
    obtain ⟨hdata, roomId, hash, type, hheader, -⟩ := processWebRTCMessage_eq_ok.mp hr
    refine ⟨hdata, roomId, hash, type, hheader, or_iff_not_imp_left.mpr fun hi => ?_⟩
    obtain ⟨RU, -, hiff, -⟩ := process_of_not_ignores (run_lonely h) hdata hheader hi
    exact hiff.mp ⟨r, hr⟩
  · rintro ⟨hdata, roomId, hash, type, hheader, hcase⟩
    by_cases hi : Ignores N roomId hash type
    · exact ⟨_, process_of_ignores hdata hheader hi⟩
    · obtain ⟨RU, -, hiff, -⟩ := process_of_not_ignores (run_lonely h) hdata hheader hi
      exact hiff.mpr (hcase.resolve_left hi)

/-- **The messages that do no harm**, in every state that a node reaches. -/
theorem run_harmless_iff (h : Lts.Run (IncomingStep parse) (.new user hasher) tr N) (j : JsonValue)
    (now : ℕ) : Harmless parse N j now ↔ Meets parse N j := by
  constructor
  · rintro ⟨r, hr, hsame⟩
    obtain ⟨hdata, roomId, hash, type, hheader, -⟩ := processWebRTCMessage_eq_ok.mp hr
    refine ⟨hdata, roomId, hash, type, hheader, or_iff_not_imp_left.mpr fun hi => ?_⟩
    obtain ⟨RU, hRU, hiff, hok⟩ := process_of_not_ignores (run_lonely h) hdata hheader hi
    -- the hash is recorded, so the message is complete
    have hcomplete : Complete parse j := by
      by_contra hno
      have hrooms := (hok r hr).2.2.symm.trans (hsame hno).1
      have hroom : (N.node.roomManager.insert roomId (RU.putHash type hash))[roomId]? =
          some (RU.putHash type hash) := by
        rw [PointerCollection.getElem?_insert, if_pos rfl]
      rw [hrooms, hRU] at hroom
      obtain ⟨hl, hs⟩ := (run_lonely h).windows roomId RU hRU
      exact putHash_ne hl hs type hash (Option.some.inj hroom).symm
    obtain ⟨-, roomId', hash', type', htyped, hcarries⟩ := hcomplete
    obtain ⟨rfl, rfl, rfl⟩ := hheader.eq_of_typed htyped
    exact ⟨htyped, carries_iff.mp ⟨hcarries, hiff.mp ⟨r, hr⟩⟩⟩
  · rintro ⟨hdata, roomId, hash, type, hheader, hcase⟩
    by_cases hi : Ignores N roomId hash type
    · exact ⟨_, process_of_ignores hdata hheader hi, fun _ => ⟨rfl, rfl, rfl⟩⟩
    · obtain ⟨htyped, hcarries⟩ := hcase.resolve_left hi
      obtain ⟨hany, haccepts⟩ := carries_iff.mpr hcarries
      obtain ⟨RU, -, hiff, -⟩ := process_of_not_ignores (run_lonely h) hdata hheader hi
      obtain ⟨r, hr⟩ := hiff.mpr haccepts
      exact ⟨r, hr, fun hno => absurd ⟨hdata, roomId, hash, type, htyped, hany⟩ hno⟩

/-- A unit below a neighbour. -/
def gossipMap : JsonValue :=
  .obj [("connectedBylvls", .obj [("0", .arr [.obj [("Id", .str "wr"),
    ("ParentIds", .arr [.str "vr"])]])])]

def gossipText : String :=
  "\x7b\"connectedBylvls\":\x7b\"0\":[\x7b\"Id\":\"wr\",\"ParentIds\":[\"vr\"]\x7d]\x7d\x7d"

/-- A user message, and the map of a neighbour, to a node that has joined the room. -/
theorem run_harmless_message : ∃ parse N, parse gossipText = some gossipMap ∧
    Lts.Run (IncomingStep parse) (.new "u" String.length) [.call (.joinRoomWS "r" fun _ => 0)] N ∧
    Harmless parse N (.obj [("roomId", .str "r"), ("hash", .num (.int 1)), ("type", .num (.int 1)),
      ("data", .str "")]) 0 ∧
    Harmless parse N (.obj [("roomId", .str "r"), ("hash", .num (.int 2)), ("type", .num (.int 2)),
      ("from", .str "vr"), ("data", .str gossipText)]) 0 := by
  have hrun : Lts.Run (IncomingStep fun t => if t = gossipText then some gossipMap else none)
      (.new "u" String.length) [.call (.joinRoomWS "r" fun _ => 0)] _ :=
    .single (.call (by intro hc; cases hc) rfl)
  refine ⟨_, _, if_pos rfl, hrun, (run_harmless_iff hrun _ 0).mpr ?_,
    (run_harmless_iff hrun _ 0).mpr ?_⟩
  · refine ⟨⟨"", rfl⟩, "r", 1, .logic, .typed ?_, .inr ⟨?_, ?_⟩⟩
    · exact ⟨⟨"r", rfl, by decide⟩, ⟨rfl, by decide⟩, 1, rfl, by decide, by decide, rfl⟩
    · exact ⟨⟨"r", rfl, by decide⟩, ⟨rfl, by decide⟩, 1, rfl, by decide, by decide, rfl⟩
    · intro v hv
      cases hv
  · have htext : cstr gossipText = gossipText := by decide
    refine ⟨⟨_, rfl⟩, "r", 2, .updateMap, .typed ?_, .inr ⟨?_, ?_⟩⟩
    · exact ⟨⟨"r", rfl, by decide⟩, ⟨rfl, by decide⟩, 2, rfl, by decide, by decide, rfl⟩
    · exact ⟨⟨"r", rfl, by decide⟩, ⟨rfl, by decide⟩, 2, rfl, by decide, by decide, rfl⟩
    · refine ⟨⟨"vr", rfl⟩, _, _, rfl, if_pos htext, ⟨_, rfl⟩, fun v hv => ?_, fun v hv => ?_⟩
      · cases hv
        refine .inr ⟨_, rfl, fun m hm => ?_⟩
        obtain rfl := List.mem_singleton.mp hm
        refine ⟨_, rfl, fun val hval => ?_⟩
        obtain rfl := List.mem_singleton.mp hval
        -- the unit hangs on the neighbour, not on the node itself
        exact ⟨⟨"wr", ["vr"]⟩, ⟨⟨"wr", rfl, by decide⟩, ["vr"], rfl, by decide⟩,
          .inr ⟨"vr", rfl, by decide⟩⟩
      · cases hv

/-- An object without members is asked for its member `data`. -/
theorem not_harmless_empty : ¬ ∀ parse user hasher tr N,
    Lts.Run (IncomingStep parse) (.new user hasher) tr N → ∀ j now, Harmless parse N j now := by
  intro h
  obtain ⟨r, hr, -⟩ := h (fun _ => none) "u" String.length [] _ .nil (.obj []) 0
  obtain ⟨⟨t, ht⟩, -⟩ := processWebRTCMessage_eq_ok.mp hr
  cases ht

end Incoming

end Yamb
