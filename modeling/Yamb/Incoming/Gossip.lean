import Yamb.Callbacks
import Yamb.Incoming.Harmless
import Yamb.Incoming.Text

/-!
# A network of nodes

Any number of nodes that send one another what their own functions build. The channels may lose,
delay, repeat and reorder the messages.

* `onCreatedConnection`: the announce of a node on a new channel;
* `Swarm`, `SwarmStep`: the nodes with what their sender threads have sent, and the steps;
* `Built`: the messages that nodes build; `SoundQueue`: a node has queued no other;
* `Blank`: a topology without units; `Quiet`, `Quiet.own`, `Quiet.deliver`: a node that knows of no
  other, and its steps;
* `Handled`: what a delivery may do to a node;
* **`run_quiet`**: in every run every delivery is handled so, and no node ever learns of another.
-/

set_option autoImplicit false

namespace Yamb

open RoseTree Incoming

/-! ### The announce -/

/-- `NodesMap->Data`; no level is above `MAX_LVL`. -/
def NodesMap.named (nm : NodesMap) : NamedLvls :=
  (List.range (maxLvl + 1)).filterMap fun lvl =>
    (nm lvl).map fun units => (toString (lvl : ℤ), units)

theorem NodesMap.named_pairwise (nm : NodesMap) :
    nm.named.Pairwise fun a b => Json.bytes a.1 < Json.bytes b.1 := by
  have hrange : (List.range (maxLvl + 1)).Pairwise fun (i j : ℕ) =>
      Json.bytes (toString (i : ℤ)) < Json.bytes (toString (j : ℤ)) := by decide
  refine List.Pairwise.filterMap _ (fun i j hij a ha b hb => ?_) hrange
  obtain ⟨_, _, rfl⟩ := Option.mem_map.mp ha
  obtain ⟨_, _, rfl⟩ := Option.mem_map.mp hb
  exact hij

/-- `onCreatedConnection`: a data channel has been opened. -/
def MapNode.onCreatedConnection (N : MapNode) (peerId : PeerId) (roomId : RoomId) (now : ℕ) :
    MapNode × Except Fault Unit :=
  match N.node.peersInLvlMutexes.get roomId, N.maps[roomId]? with
  | .error f, _ => (N, .error f)
  | .ok _, none => (N, .error .notFound)
  | .ok _, some RU =>
    ({ N with node := (N.node.send2client peerId roomId
        (announceText RU.nodesMap.named RU.nPeersInRoom) .announceWebrtc now).1 }, .ok ())

/-! ### The network -/

namespace Incoming

/-- The nodes, and the messages that their sender threads have handed to a channel so far. -/
structure Swarm (ι : Type) where
  nodes : ι → MapNode
  sent : List Msg

inductive SwarmEvent (ι : Type)
  | own (i : ι) (e : IncomingEvent)
  | onCreatedConnection (i : ι) (peerId : PeerId) (roomId : RoomId) (now : ℕ)
  | deliver (i : ι) (m : Msg) (now : ℕ)

/-- What does not come out of a channel. The broker sends user messages only. -/
def IncomingEvent.Own : IncomingEvent → Prop
  | .thread (.broadcast2Room _ _ t _ _) => t = .logic
  | .thread (.send2client _ _ _ t _) => t = .logic
  | .thread (.receive _ _) => False
  | .receive _ _ => False
  | _ => True

/-- What a step hands to the channels. -/
def IncomingEvent.sends : IncomingEvent → List Msg
  | .thread (.iterate _ sends) => sends.map Prod.snd
  | _ => []

variable {ι : Type} [DecidableEq ι]

def Swarm.setNode (S : Swarm ι) (i : ι) (N : MapNode) : Swarm ι :=
  { S with nodes := Function.update S.nodes i N }

/-- A message that was sent may reach any node, any number of times or never. -/
inductive SwarmStep (parse : String → Option JsonValue) (S : Swarm ι) :
    SwarmEvent ι → Swarm ι → Prop
  | own {i : ι} {e : IncomingEvent} {N : MapNode} (ho : e.Own)
      (h : IncomingStep parse (S.nodes i) e N) :
      SwarmStep parse S (.own i e) ⟨(S.setNode i N).nodes, S.sent ++ e.sends⟩
  | onCreatedConnection (i : ι) (peerId : PeerId) (roomId : RoomId) (now : ℕ) :
      SwarmStep parse S (.onCreatedConnection i peerId roomId now)
        (S.setNode i ((S.nodes i).onCreatedConnection peerId roomId now).1)
  | deliver {i : ι} {m : Msg} {now : ℕ} {r : Outcome} (hm : m ∈ S.sent)
      (h : processWebRTCMessage parse (S.nodes i) m.toJson now = .ok r) :
      SwarmStep parse S (.deliver i m now) (S.setNode i r.1)

def Swarm.new (users : ι → String) (hashers : ι → String → Hash) : Swarm ι :=
  ⟨fun i => .new (users i) (hashers i), []⟩

/-! ### What nodes build -/

/-- The messages of users, the reports of lost neighbours, and the announces of empty maps. -/
inductive Built (m : Msg) : Prop
  | logic (h : m.type = .logic)
  | lost (h : m.type = .updateMap) (id parentId : PeerId) (hd : m.data = closedDiff id parentId)
  | announce (h : m.type = .announceWebrtc) (lvls : NamedLvls) (n : ℕ)
      (hp : lvls.Pairwise fun a b => Json.bytes a.1 < Json.bytes b.1) (he : ∀ e ∈ lvls, e.2 = [])
      (hn : n < 2 ^ 64) (hd : m.data = announceText lvls n)

/-- The hash is a `size_t`. -/
structure Sound (m : Msg) : Prop where
  hash : m.hash < 2 ^ 64
  built : Built m

end Incoming

namespace Node

variable {n n' n'' : Node} {roomId : RoomId}

/-- The same tasks are queued. -/
structure SameQueue (n n' : Node) : Prop where
  hasher : n'.hasher = n.hasher
  sMq : n'.sMq = n.sMq

theorem SameQueue.refl (n : Node) : SameQueue n n := ⟨rfl, rfl⟩

theorem SameQueue.trans (h : SameQueue n n') (h' : SameQueue n' n'') : SameQueue n n'' :=
  ⟨h'.hasher.trans h.hasher, h'.sMq.trans h.sMq⟩

theorem sameQueue_enterRoom (n : Node) (peerid : PeerId) (conn : Ptr) (roomId : RoomId) :
    SameQueue n (n.enterRoom peerid conn roomId).1 := by
  unfold enterRoom
  cases n.peersInLvlMutexes.get roomId with
  | error f => exact .refl n
  | ok u =>
    dsimp only
    cases n.roomManager.get roomId with
    | error f => exact .refl n
    | ok RU => exact ⟨rfl, rfl⟩

theorem sameQueue_createPC (n : Node) (peerid : PeerId) (sdptype : Mode) (roomId : RoomId) :
    SameQueue n (n.createPC peerid sdptype roomId).1 := by
  unfold createPC
  cases n.peerManager[peerid]? with
  | none =>
    have hnew : SameQueue n ((n.alloc (.new peerid sdptype roomId)).register peerid n.nextPtr) :=
      ⟨rfl, rfl⟩
    exact hnew.trans (sameQueue_enterRoom _ _ _ _)
  | some conn =>
    dsimp only
    cases n.heap conn with
    | none => exact .refl n
    | some peer =>
      dsimp only
      split_ifs
      · exact .refl n
      · exact sameQueue_enterRoom n peerid conn roomId

theorem sameQueue_createPCOf (n : Node) (peer : Address) (roomId : RoomId) :
    SameQueue n (n.createPCOf peer roomId).1 := by
  unfold createPCOf
  dsimp only
  split_ifs
  · cases n.peerManager[peer.user ++ roomId]? with
    | none =>
      have hnew : SameQueue n (((n.alloc (.new (peer.user ++ roomId) .offer roomId)).createOffer
          n.nextPtr (.new (peer.user ++ roomId) .offer roomId)).register (peer.user ++ roomId)
          n.nextPtr) := ⟨rfl, rfl⟩
      exact hnew.trans (sameQueue_enterRoom _ _ _ _)
    | some conn =>
      dsimp only
      cases n.heap conn with
      | none => exact .refl n
      | some p =>
        dsimp only
        split_ifs
        · exact .refl n
        · have hoffer : SameQueue n (n.createOffer conn p) := ⟨rfl, rfl⟩
          exact hoffer.trans (sameQueue_enterRoom _ _ _ _)
  · exact ⟨rfl, rfl⟩

theorem sameQueue_leaveRoomWS (n : Node) (roomId : RoomId) :
    SameQueue n (n.leaveRoomWS roomId).1 := by
  unfold leaveRoomWS
  split_ifs
  · cases n.roomManager[roomId]? with
    | none => exact ⟨rfl, rfl⟩
    | some RU =>
      dsimp only
      split_ifs
      · cases n.callbacksMutexes.get roomId with
        | error f => exact ⟨rfl, rfl⟩
        | ok u => exact ⟨rfl, rfl⟩
      · exact ⟨rfl, rfl⟩
  · exact .refl n

theorem sameQueue_joinRoomWS (n : Node) (roomId : RoomId) (junk : ℕ → Hash) :
    SameQueue n (n.joinRoomWS roomId junk) := by
  unfold joinRoomWS
  split_ifs
  · exact .refl n
  · exact ⟨rfl, rfl⟩

theorem sameQueue_removePeer (n : Node) (conn : Ptr) : SameQueue n (n.removePeer conn) := by
  unfold removePeer
  cases n.peerManager.keyOf conn with
  | none => exact .refl n
  | some key => exact ⟨rfl, rfl⟩

theorem sameQueue_addCallback (n : Node) (roomId : RoomId) (callback : Callback) :
    SameQueue n (n.addCallback roomId callback).1 := by
  unfold addCallback
  cases n.callbacksMutexes.get roomId with
  | error f => exact .refl n
  | ok u => exact ⟨rfl, rfl⟩

theorem sameQueue_removeCallback (n : Node) (roomId : RoomId) (callback : Callback) :
    SameQueue n (n.removeCallback roomId callback).1 := by
  unfold removeCallback
  split_ifs
  · cases n.callbacks[roomId]? with
    | none => exact .refl n
    | some call_vec => exact ⟨rfl, rfl⟩
  · exact .refl n

theorem sameQueue_recvSDP (n : Node) (token : PeerId) (type : SdpType) :
    SameQueue n (n.recvSDP token type) := by
  unfold recvSDP
  cases n.peerManager[token]? with
  | none => exact .refl n
  | some conn =>
    dsimp only
    split
    · exact ⟨rfl, rfl⟩
    · exact .refl n

theorem sameQueue_signal (n : Node) (m : SigEvent) : SameQueue n (n.signal m).1 := by
  cases m with
  | iceCandidateIncome from' roomId data => exact .refl n
  | sdpOfferIncome from' roomId data =>
    have hpc := sameQueue_createPC n from' .answer roomId
    unfold signal onSDPOffer
    dsimp only
    split_ifs
    · exact .refl n
    · generalize n.createPC from' .answer roomId = r at hpc ⊢
      obtain ⟨n₁, f | b⟩ := r
      · exact hpc
      · cases b with
        | false => exact hpc
        | true => exact hpc.trans (sameQueue_recvSDP n₁ from' .offer)
  | sdpAnswerIncome from' roomId data =>
    unfold signal onSDPAnswer
    dsimp only
    split_ifs
    · exact .refl n
    · exact sameQueue_recvSDP n from' .answer
  | peerConnected from' roomId peer =>
    unfold signal onPeerConnectedSignaler
    dsimp only
    split_ifs
    · exact .refl n
    · exact .refl n
    · exact sameQueue_createPCOf n peer roomId

theorem sameQueue_onSuccess (n : Node) (conn : Ptr) (sdp : String) :
    SameQueue n (n.onSuccess conn sdp) := by
  unfold onSuccess
  cases n.heap conn with
  | none => exact .refl n
  | some p =>
    dsimp only
    cases p.creating with
    | nil => exact .refl n
    | cons type creating =>
      dsimp only
      unfold sendSDP
      split_ifs
      · exact .refl n
      · exact ⟨rfl, rfl⟩

end Node

namespace Incoming

theorem Built.congr {m m' : Msg} (h : Built m) (ht : m'.type = m.type) (hd : m'.data = m.data) :
    Built m' := by
  cases h with
  | logic h => exact .logic (ht.trans h)
  | lost h id parentId hdata => exact .lost (ht.trans h) id parentId (hd.trans hdata)
  | announce h lvls n hp he hn hdata => exact .announce (ht.trans h) lvls n hp he hn (hd.trans hdata)

theorem Sound.readdress {m : Msg} (h : Sound m) (to' : Option PeerId) :
    Sound { m with to' := to' } :=
  ⟨h.hash, h.built.congr rfl rfl⟩

/-! ### The tasks of a node -/

/-- The queued messages are sound, and so are the hashes of new ones. -/
structure SoundQueue (n : Node) : Prop where
  hash_lt : ∀ s, n.hasher s < 2 ^ 64
  tasks : ∀ t ∈ n.sMq, Sound t.msg

section queue

variable {n n' : Node} {roomId : RoomId} {now : ℕ}

theorem SoundQueue.same (h : SoundQueue n) (hn : n.SameQueue n') : SoundQueue n' :=
  ⟨fun s => by rw [hn.hasher]; exact h.hash_lt s, fun t ht => h.tasks t (hn.sMq ▸ ht)⟩

theorem SoundQueue.push (h : SoundQueue n) (hh : n'.hasher = n.hasher) {t : SendMsgT}
    (ht : Sound t.msg) (hq : n'.sMq = n.sMq ++ [t]) : SoundQueue n' := by
  refine ⟨fun s => by rw [hh]; exact h.hash_lt s, fun t' ht' => ?_⟩
  rw [hq, List.mem_append, List.mem_singleton] at ht'
  rcases ht' with ht' | rfl
  · exact h.tasks t' ht'
  · exact ht

theorem queueOwn_eq (n : Node) (RU : RoomUnit) (roomId : RoomId) (t : SendMsgT) :
    (n.queueOwn RU roomId t).hasher = n.hasher ∧ (n.queueOwn RU roomId t).sMq = n.sMq ++ [t] := by
  unfold Node.queueOwn Node.notifyAll
  split_ifs
  · exact ⟨rfl, rfl⟩
  · exact ⟨rfl, rfl⟩

theorem SoundQueue.broadcast2Room (h : SoundQueue n) {j : String} {t : MessageType}
    (hb : Built (n.formMessage j t roomId now)) (except : PeerId) :
    SoundQueue (n.broadcast2Room roomId j t except now).1 := by
  unfold Node.broadcast2Room
  cases n.roomManager[roomId]? with
  | none => exact h
  | some RU => exact h.push (queueOwn_eq n RU roomId _).1 ⟨h.hash_lt _, hb⟩ (queueOwn_eq n RU roomId _).2

theorem SoundQueue.send2client (h : SoundQueue n) {j : String} {t : MessageType} {peerId : PeerId}
    (hb : Built (n.formMessageTo j t roomId peerId now)) :
    SoundQueue (n.send2client peerId roomId j t now).1 := by
  unfold Node.send2client
  cases n.roomManager[roomId]? with
  | none => exact h
  | some RU => exact h.push (queueOwn_eq n RU roomId _).1 ⟨h.hash_lt _, hb⟩ (queueOwn_eq n RU roomId _).2

theorem SoundQueue.onClosed (h : SoundQueue n) (conn : Ptr) (now : ℕ) :
    SoundQueue (n.onClosed conn now).1 := by
  unfold Node.onClosed
  cases n.heap conn with
  | none => exact h
  | some peer =>
    dsimp only
    split_ifs
    · exact h
    · cases n.peersInLvlMutexes.get (n.roomOf peer.peerid) with
      | error f => exact h
      | ok u =>
        exact SoundQueue.same (h.broadcast2Room (.lost rfl peer.peerid _ rfl) peer.peerid)
          (Node.sameQueue_removePeer _ conn)

/-- What is done with one task for one peer. -/
theorem visit_sound {smT : SendMsgT} (h : Sound smT.msg) {entry : PeerId × Ptr}
    {tasks : List SendMsgT} {sends : List Send} (hv : n.visit smT entry = .ok (tasks, sends)) :
    (∀ t ∈ tasks, Sound t.msg) ∧ ∀ s ∈ sends, Sound s.2 := by
  unfold Node.visit at hv
  split_ifs at hv
  · cases hv
    exact ⟨by simp, by simp⟩
  · split at hv
    · cases hv
    · split at hv
      · cases hv
        exact ⟨by simpa [Node.directCopy] using h.readdress _, by simp⟩
      · cases hv
        exact ⟨by simp, by simpa using h⟩

theorem visitAll_sound {smT : SendMsgT} (h : Sound smT.msg) : ∀ {entries : List (PeerId × Ptr)}
    {tasks : List SendMsgT} {sends : List Send}, n.visitAll smT entries = .ok (tasks, sends) →
      (∀ t ∈ tasks, Sound t.msg) ∧ ∀ s ∈ sends, Sound s.2
  | [], _, _, hv => by
    cases hv
    exact ⟨by simp, by simp⟩
  | entry :: entries, tasks, sends, hv => by
    unfold Node.visitAll at hv
    split at hv
    · cases hv
    · rename_i hone
      split at hv
      · cases hv
      · rename_i hrest
        cases hv
        obtain ⟨ht, hs⟩ := visit_sound h hone
        obtain ⟨ht', hs'⟩ := visitAll_sound h hrest
        simp only [List.mem_append]
        exact ⟨fun t h => h.elim (ht t) (ht' t), fun s h => h.elim (hs s) (hs' s)⟩

theorem processTask_sound {RU : RoomUnit} {smT : SendMsgT} (h : Sound smT.msg)
    {tasks : List SendMsgT} {sends : List Send}
    (hp : n.processTask RU smT = .ok (tasks, sends)) :
    (∀ t ∈ tasks, Sound t.msg) ∧ ∀ s ∈ sends, Sound s.2 := by
  unfold Node.processTask at hp
  split at hp
  · exact visitAll_sound h hp
  · split at hp
    · cases hp
    · split at hp
      · cases hp
        exact ⟨by simp, by simp⟩
      · split at hp
        · cases hp
        · split at hp
          · cases hp
            exact ⟨by simpa using h, by simp⟩
          · cases hp
            exact ⟨by simp, by simpa using h⟩

theorem SoundQueue.senderIteration (h : SoundQueue n) :
    SoundQueue n.senderIteration.1 ∧ ∀ s ∈ n.senderIteration.2, Sound s.2 := by
  have hcase := n.senderIteration_case
  generalize n.senderIteration = r at hcase ⊢
  cases hcase with
  | idle | stop => exact ⟨⟨h.hash_lt, h.tasks⟩, by simp⟩
  | stale smT rest hq hRU =>
    exact ⟨⟨h.hash_lt, fun t ht => h.tasks t (hq ▸ List.mem_cons_of_mem _ ht)⟩, by simp⟩
  | fault smT rest RU f hq hRU hp =>
    exact ⟨⟨h.hash_lt, fun t ht => h.tasks t (hq ▸ List.mem_cons_of_mem _ ht)⟩, by simp⟩
  | done smT rest RU tasks sends hq hRU hp =>
    obtain ⟨ht, hs⟩ := processTask_sound (h.tasks smT (hq ▸ List.mem_cons_self)) hp
    refine ⟨⟨h.hash_lt, fun t h' => ?_⟩, hs⟩
    rcases List.mem_append.mp h' with h' | h'
    · exact h.tasks t (hq ▸ List.mem_cons_of_mem _ h')
    · exact ht t h'

/-- A user message is passed on as a user message, with its hash. -/
theorem SoundQueue.handleLogic (h : SoundQueue n) {m : Msg} (hm : m.type = .logic)
    (hhash : m.hash < 2 ^ 64) (now : ℕ) :
    SoundQueue (n.handleWebrtcNodeMessageLogic (.parse m) now).1 := by
  have hhasher : (n.handleWebrtcNodeMessageLogic (.parse m) now).1.hasher = n.hasher := by
    unfold Node.handleWebrtcNodeMessageLogic
    split
    · rfl
    · split_ifs
      · rfl
      · split
        · split_ifs <;> rfl
        · rfl
  rcases n.handleWebrtcNodeMessageLogic_sMq (.parse m) now with hq | ⟨type, hq⟩
  · exact h.same ⟨hhasher, hq⟩
  · refine h.push hhasher ?_ hq
    rw [Node.relayMessage_eq]
    exact ⟨hhash, .logic hm⟩

end queue

/-! ### The topology of a node -/

/-- No unit in the arrays of a room, and a counter of 64 bits. -/
structure Blank (M : RoomMap) : Prop where
  stored : ∀ lvl, M.stored lvl = []
  count_lt : M.nPeersInRoom < 2 ^ 64

theorem blank_createRoomMap (myId : PeerId) : Blank (createRoomMap myId) where
  stored lvl := by
    unfold RoomMap.stored createRoomMap
    dsimp only
    split_ifs <;> rfl
  count_lt := (by decide : 1 < 2 ^ 64)

theorem Blank.onNodesMapDiffJson {M : RoomMap} (h : Blank M) (peerid parentId : PeerId) :
    Blank (M.onNodesMapDiffJson ⟨[], [(0, [⟨peerid, [parentId]⟩])]⟩) := by
  refine ⟨fun lvl => ?_, h.count_lt⟩
  have herase := RoomMap.stored_eraseFromLvl M.nodesMap (clampLvl 0) [⟨peerid, [parentId]⟩] lvl
  refine herase.trans ?_
  have hzero := h.stored (clampLvl 0)
  unfold RoomMap.stored at hzero
  rw [hzero]
  by_cases hl : lvl = clampLvl 0
  · rw [hl, Function.update_self]
    rfl
  · rw [Function.update_of_ne hl]
    exact h.stored lvl

theorem Blank.applyDiff {M M' : RoomMap} (h : Blank M) {peerid parentId : PeerId}
    (ha : M.applyDiff ⟨[], [(0, [⟨peerid, [parentId]⟩])]⟩ = .ok M') : Blank M' := by
  obtain ⟨M₁, hM₁, rfl⟩ := RoomMap.applyDiff_eq_ok.mp ha
  refine Blank.onNodesMapDiffJson ?_ peerid parentId
  unfold RoomMap.onNodesMapDiff RoomMap.disconnectLvl at hM₁
  simp only [List.foldlM_cons, List.foldlM_nil, pure, Except.pure, bind, Except.bind] at hM₁
  split at hM₁
  · cases hM₁
  · rename_i heq
    split at heq
    · cases heq
    · cases heq
      obtain rfl := Except.ok.inj hM₁
      refine ⟨h.stored, ?_⟩
      dsimp only
      omega

/-! ### One step -/

/-- A node that knows of no other and says nothing but what nodes build. -/
structure Quiet (N : MapNode) : Prop where
  lonely : N.Lonely
  blank : ∀ (r : RoomId) (M : RoomMap), N.maps[r]? = some M → Blank M
  sound : SoundQueue N.node

section step

variable {parse : String → Option JsonValue} {N N' : MapNode}

theorem quiet_new (user : String) {hasher : String → Hash} (hh : ∀ s, hasher s < 2 ^ 64) :
    Quiet (.new user hasher) :=
  ⟨MapNode.new_lonely user hasher, fun r M hM => by simp [MapNode.new] at hM,
    ⟨hh, fun t ht => absurd ht List.not_mem_nil⟩⟩

theorem blank_onLost (h : ∀ (r : RoomId) (M : RoomMap), N.maps[r]? = some M → Blank M) {conn : Ptr}
    {apply : RoomMap → NodesMapDiff → Except GraphFault RoomMap} {maps : PointerCollection RoomMap}
    (happly : ∀ M M' peerid, Blank M → apply M (lostPeer M peerid) = .ok M' → Blank M')
    (hm : N.onLost conn apply = .ok maps) :
    ∀ (r : RoomId) (M : RoomMap), maps[r]? = some M → Blank M := by
  unfold MapNode.onLost at hm
  cases hp : N.node.heap conn with
  | none =>
    rw [hp] at hm
    cases hm
    exact h
  | some peer =>
    simp only [hp] at hm
    split_ifs at hm
    · cases hm
      exact h
    · cases hM : N.maps[N.node.roomOf peer.peerid]? with
      | none =>
        rw [hM] at hm
        cases hm
        exact h
      | some M =>
        simp only [hM] at hm
        cases ha : apply M (lostPeer M peer.peerid) with
        | error F =>
          rw [ha] at hm
          cases hm
        | ok M' =>
          rw [ha] at hm
          cases hm
          intro r M₁ hM₁
          rw [PointerCollection.getElem?_insert] at hM₁
          split_ifs at hM₁
          · obtain rfl := Option.some.inj hM₁
            exact happly M M' peer.peerid (h _ M hM) ha
          · exact h r M₁ hM₁

/-- No call puts a unit into an array. -/
theorem blank_mapsAfter (h : ∀ (r : RoomId) (M : RoomMap), N.maps[r]? = some M → Blank M) {c : Call}
    {maps : PointerCollection RoomMap} (hm : N.mapsAfter c = .ok maps) :
    ∀ (r : RoomId) (M : RoomMap), maps[r]? = some M → Blank M := by
  cases c with
  | joinRoomWS roomId junk =>
    cases hm
    intro r M hM
    split_ifs at hM
    · exact h r M hM
    · rw [PointerCollection.getElem?_insertIfNew] at hM
      split_ifs at hM
      · obtain rfl := Option.some.inj hM
        exact blank_createRoomMap _
      · exact h r M hM
  | createPC peerid sdptype roomId | createPCOf peer roomId =>
    cases hm
    exact h
  | onClosed conn now =>
    have hlost : N.onLost conn (fun RU diff => .ok (RU.onNodesMapDiffJson diff)) = .ok maps := hm
    refine blank_onLost h (fun M M' peerid hM ha => ?_) hlost
    cases ha
    exact hM.onNodesMapDiffJson peerid _
  | onFailure conn now => exact blank_onLost h (fun M M' peerid hM ha => hM.applyDiff ha) hm
  | leaveRoomWS roomId =>
    cases hm
    intro r M hM
    split_ifs at hM
    · rw [PointerCollection.getElem?_erase] at hM
      split_ifs at hM
      exact h r M hM
    · exact h r M hM

theorem SoundQueue.call {n : Node} (h : SoundQueue n) (c : Call) : SoundQueue (n.call c).1 := by
  cases c with
  | joinRoomWS roomId junk => exact h.same (n.sameQueue_joinRoomWS roomId junk)
  | createPC peerid sdptype roomId => exact h.same (n.sameQueue_createPC peerid sdptype roomId)
  | createPCOf peer roomId => exact h.same (n.sameQueue_createPCOf peer roomId)
  | onClosed conn now | onFailure conn now => exact h.onClosed conn now
  | leaveRoomWS roomId => exact h.same (n.sameQueue_leaveRoomWS roomId)

/-- **A step of a node of its own accord.** -/
theorem Quiet.own (h : Quiet N) {e : IncomingEvent} (ho : e.Own) (he : IncomingStep parse N e N') :
    Quiet N' ∧ ∀ m ∈ e.sends, Sound m := by
  refine ⟨⟨lonely_step h.lonely he, ?_, ?_⟩, ?_⟩
  · cases he with
    | call hd hm => exact blank_mapsAfter h.blank hm
    | thread ht | addCallback roomId callback | removeCallback roomId callback | signal hd
    | onSuccess conn sdp => exact h.blank
    | receive hr => exact ho.elim
  · cases he with
    | call hd hm => exact h.sound.call _
    | thread ht =>
      cases ht with
      | broadcast2Room roomId j t except now => exact h.sound.broadcast2Room (.logic ho) except
      | send2client peerId roomId j t now => exact h.sound.send2client (.logic ho)
      | receive m now hm => exact ho.elim
      | iterate hn => exact h.sound.senderIteration.1
      | wake hn => exact h.sound.same ⟨rfl, rfl⟩
      | channels heap hh => exact h.sound.same ⟨rfl, rfl⟩
    | addCallback roomId callback => exact h.sound.same (N.node.sameQueue_addCallback roomId callback)
    | removeCallback roomId callback =>
      exact h.sound.same (N.node.sameQueue_removeCallback roomId callback)
    | signal hd => exact h.sound.same (N.node.sameQueue_signal _)
    | onSuccess conn sdp => exact h.sound.same (N.node.sameQueue_onSuccess conn sdp)
    | receive hr => exact ho.elim
  · cases he with
    | thread ht =>
      cases ht with
      | iterate hn =>
        intro m hm
        obtain ⟨s, hs, rfl⟩ := List.mem_map.mp hm
        exact h.sound.senderIteration.2 s hs
      | broadcast2Room | send2client | wake | channels => exact fun m hm => absurd hm List.not_mem_nil
      | receive m now hm => exact ho.elim
    | call | addCallback | removeCallback | signal | onSuccess | receive =>
      exact fun m hm => absurd hm List.not_mem_nil

end step

/-! ### Delivery -/

/-- The difference of a lost neighbour. -/
theorem closedDiff_eq (id parentId : PeerId) :
    closedDiff id parentId = (⟨[], [(0, [⟨id, [parentId]⟩])]⟩ : NodesMapDiff).dump := by
  have hzero : jsonString (toString (0 : ℤ)) = "\"0\"" := by decide +kernel
  unfold closedDiff NodesMapDiff.dump UnitsByLvl.dump jsonArray NodesMapDiffUnit.dump
  simp only [List.map_nil, List.mergeSort_nil, String.intercalate_nil, List.map_cons,
    List.mergeSort_singleton, String.intercalate_singleton, hzero, jsonArray]
  simp only [← String.toList_inj, String.toList_append, List.append_assoc]
  rfl

/-- On the texts of nodes, the parser reads JSON. -/
structure ReadsBuilt (parse : String → Option JsonValue) : Prop where
  lost : ∀ id parentId, parse (closedDiff id parentId) = readJson (closedDiff id parentId)
  announce : ∀ lvls n, n < 2 ^ 64 → parse (announceText lvls n) = readJson (announceText lvls n)

theorem readsBuilt_readJson : ReadsBuilt readJson := ⟨fun _ _ => rfl, fun _ _ _ => rfl⟩

section deliver

variable {parse : String → Option JsonValue} {N : MapNode} {m : Msg}

/-- **What a node builds, a node accepts.** -/
theorem Built.accepts (h : Built m) (hparse : ReadsBuilt parse) (own : PeerId) :
    Accepts parse own m.toJson m.type := by
  have hfrom : ∃ s, m.toJson.find "from" = some (.str s) := ⟨m.from', rfl⟩
  have hdata : ∀ t, m.toJson.find "data" = some (.str t) → t = m.data := by
    intro t ht
    have hm : m.toJson.find "data" = some (.str m.data) := rfl
    cases hm.symm.trans ht
    rfl
  cases h with
  | logic h =>
    rw [h]
    intro v hv
    rw [find_to] at hv
    obtain ⟨s, -, rfl⟩ := Option.mem_map.mp hv
    exact ⟨s, rfl⟩
  | lost h id parentId hd =>
    rw [h]
    refine ⟨hfrom, fun t d ht hpt => ?_⟩
    obtain rfl := hdata t ht
    rw [hd, closedDiff_eq, (whole_diff _).cstr_eq, ← closedDiff_eq, hparse.lost, closedDiff_eq,
      readJson_dump (d := ⟨[], [(0, [⟨id, [parentId]⟩])]⟩) List.nodup_nil
        (List.nodup_singleton _)] at hpt
    cases hpt
    refine ⟨⟨_, rfl⟩, fun v hv => .inr ?_, fun v hv => .inr ?_⟩
    · cases hv
      refine ⟨_, rfl, fun e he => ?_⟩
      rw [UnitsByLvl.named, List.map_nil, List.mergeSort_nil] at he
      exact absurd he List.not_mem_nil
    · cases hv
      refine ⟨_, rfl, fun e he => ?_⟩
      obtain ⟨e, -, rfl⟩ := List.mem_map.mp he
      refine ⟨_, rfl, fun val hval => ?_⟩
      obtain ⟨u, -, rfl⟩ := List.mem_map.mp hval
      refine ⟨u.id, rfl, .inr ⟨u.parentIds.map cstr, ⟨⟨u.id, rfl, rfl⟩, u.parentIds, rfl, rfl⟩,
        trivial⟩⟩
  | announce h lvls n hp he hn hd =>
    rw [h]
    refine ⟨hfrom, fun t d ht hpt => ?_⟩
    obtain rfl := hdata t ht
    rw [hd, (whole_announce lvls n).cstr_eq, hparse.announce lvls n hn, readJson_announce hp] at hpt
    cases hpt
    refine ⟨_, rfl, ⟨_, rfl⟩, fun v hv => .inr ?_, fun v hv => .inl ?_⟩
    · cases hv
      refine ⟨_, rfl, fun e he' => ?_⟩
      obtain ⟨e, hmem, rfl⟩ := List.mem_map.mp he'
      refine ⟨_, rfl, fun val hval => ?_⟩
      rw [he e hmem] at hval
      exact absurd hval List.not_mem_nil
    · cases hv
      rfl

/-- The topologies stay as they are. An announce or a report throws nothing and is not passed on, and
a user message throws exactly when it is to be dispatched and the room has no list of callbacks. -/
structure Handled (N : MapNode) (m : Msg) (r : Outcome) : Prop where
  maps : r.1.maps = N.maps
  silent : m.type ≠ .logic → r.2 = .ok none ∧ r.1.node.sMq = N.node.sMq
  throws_iff : m.type = .logic → ((∃ f, r.2 = .error f) ↔
    N.node.Reaches (.parse m) ∧ cstr m.roomId ∉ N.node.callbacks)

/-- What a user message throws is thrown by `getCallbacks`. -/
theorem handleLogic_throws_iff (h : N.Lonely) (m : Msg) (now : ℕ) :
    (∃ f, (N.node.handleWebrtcNodeMessageLogic (.parse m) now).2 = .error f) ↔
      N.node.Reaches (.parse m) ∧ cstr m.roomId ∉ N.node.callbacks := by
  rcases handleWebrtcNodeMessageLogic_cases N.node (.parse m) now with ⟨hr, heq⟩ | ⟨hr, heq⟩
  · obtain ⟨RU, hRU, -⟩ := id hr
    have hroom : cstr m.roomId ∈ N.node.roomManager := PointerCollection.mem_of_getElem? hRU
    obtain ⟨_, hmutex⟩ := PointerCollection.exists_of_mem (h.callbacksMutexes _ hroom)
    have hdispatch : N.node.dispatch (cstr m.roomId) = N.node.callbacks.get (cstr m.roomId) := by
      rw [Node.dispatch, PointerCollection.get_of_mem hmutex]
    rw [heq, Message.parse, hdispatch, PointerCollection.get]
    cases hc : N.node.callbacks[cstr m.roomId]? with
    | none =>
      refine iff_of_true ⟨_, rfl⟩ ⟨hr, fun hmem => ?_⟩
      obtain ⟨_, hsome⟩ := PointerCollection.exists_of_mem hmem
      cases hc.symm.trans hsome
    | some call_vec =>
      refine iff_of_false ?_ fun hr' => hr'.2 (PointerCollection.mem_of_getElem? hc)
      rintro ⟨f, hf⟩
      cases hf
  · rw [heq]
    refine iff_of_false ?_ fun hr' => hr hr'.1
    rintro ⟨f, hf⟩
    cases hf

/-- **A delivery** to a quiet node. -/
theorem Quiet.deliver (h : Quiet N) (hparse : ReadsBuilt parse) (hm : Sound m) (now : ℕ) :
    ∃ r, processWebRTCMessage parse N m.toJson now = .ok r ∧ Quiet r.1 ∧ Handled N m r := by
  -- what is left to show of a result with the maps of before
  have hquiet : ∀ r, processWebRTCMessage parse N m.toJson now = .ok r → r.1.maps = N.maps →
      SoundQueue r.1.node → Quiet r.1 := fun r hr hmaps hq =>
    ⟨lonely_step h.lonely (.receive hr), hmaps ▸ h.blank, hq⟩
  by_cases htype : m.type = .logic
  · have hr : processWebRTCMessage parse N m.toJson now = .ok _ :=
      processWebRTCMessage_toJson htype hm.hash parse N
    exact ⟨_, hr, hquiet _ hr rfl (h.sound.handleLogic htype hm.hash now), rfl,
      fun hne => absurd htype hne, fun _ => handleLogic_throws_iff h.lonely m now⟩
  have hdata : ∃ t, m.toJson.find "data" = some (.str t) := ⟨m.data, rfl⟩
  have hheader : Header m.toJson (cstr m.roomId) m.hash m.type := .typed (typed_toJson hm.hash)
  by_cases hi : Ignores N (cstr m.roomId) m.hash m.type
  · have hr : processWebRTCMessage parse N m.toJson now = .ok (N, .ok none) :=
      process_of_ignores hdata hheader hi
    exact ⟨_, hr, h, rfl, fun _ => ⟨rfl, rfl⟩, fun h => absurd h htype⟩
  · unfold Ignores at hi
    simp only [not_forall, Bool.not_eq_true, if_neg htype] at hi
    obtain ⟨RU, hRU, hnew⟩ := hi
    have hhandle : handleWebrtcNodeMessageSystem parse N
        ⟨cstr m.roomId, m.toJson, m.hash, m.type⟩ now = .ok _ :=
      (handleSystem_eq_ok h.lonely hRU hnew hheader hdata htype).mpr
        ⟨rfl, hm.built.accepts hparse _⟩
    have hr := processWebRTCMessage_eq_ok.mpr
      ⟨hdata, cstr m.roomId, m.hash, m.type, hheader, (if_pos htype).trans hhandle⟩
    exact ⟨_, hr, hquiet _ hr rfl (h.sound.same ⟨rfl, rfl⟩), rfl, fun _ => ⟨rfl, rfl⟩,
      fun h => absurd h htype⟩

end deliver

theorem Quiet.onCreatedConnection {N : MapNode} (h : Quiet N) (peerId : PeerId) (roomId : RoomId)
    (now : ℕ) : Quiet (N.onCreatedConnection peerId roomId now).1 := by
  unfold MapNode.onCreatedConnection
  cases N.node.peersInLvlMutexes.get roomId with
  | error f => exact h
  | ok u =>
    cases hM : N.maps[roomId]? with
    | none => exact h
    | some M =>
      have hblank := h.blank roomId M hM
      have hempty : ∀ e ∈ M.nodesMap.named, e.2 = [] := by
        intro e he
        obtain ⟨lvl, -, hlvl⟩ := List.mem_filterMap.mp he
        obtain ⟨units, hunits, rfl⟩ := Option.map_eq_some_iff.mp hlvl
        have hstored := hblank.stored lvl
        rwa [RoomMap.stored, hunits, Option.getD_some] at hstored
      refine ⟨h.lonely.sameRooms (N.node.sameRooms_send2client _ _ _ _ _), h.blank, ?_⟩
      exact h.sound.send2client (.announce rfl M.nodesMap.named M.nPeersInRoom
        M.nodesMap.named_pairwise hempty hblank.count_lt rfl)

/-! ### Runs -/

variable {ι : Type} [DecidableEq ι]

/-- Every node is quiet, and what has been sent is what nodes build. -/
structure QuietSwarm (S : Swarm ι) : Prop where
  nodes : ∀ i, Quiet (S.nodes i)
  sent : ∀ m ∈ S.sent, Sound m

theorem QuietSwarm.setNode {S : Swarm ι} (h : QuietSwarm S) {i : ι} {N : MapNode} (hN : Quiet N) :
    QuietSwarm (S.setNode i N) := by
  refine ⟨fun j => ?_, h.sent⟩
  by_cases hj : j = i
  · subst hj
    simpa [Swarm.setNode] using hN
  · simpa [Swarm.setNode, Function.update_of_ne hj] using h.nodes j

theorem QuietSwarm.step {parse : String → Option JsonValue} {S S' : Swarm ι} {e : SwarmEvent ι}
    (hparse : ReadsBuilt parse) (h : QuietSwarm S) (he : SwarmStep parse S e S') :
    QuietSwarm S' := by
  cases he with
  | own ho hstep =>
    obtain ⟨hN, hsends⟩ := (h.nodes _).own ho hstep
    refine ⟨(h.setNode hN).nodes, fun m hm => ?_⟩
    rcases List.mem_append.mp hm with hm | hm
    · exact h.sent m hm
    · exact hsends m hm
  | onCreatedConnection i peerId roomId now =>
    exact h.setNode ((h.nodes i).onCreatedConnection peerId roomId now)
  | deliver hm hr =>
    obtain ⟨r, hr', hN, -⟩ := (h.nodes _).deliver hparse (h.sent _ hm) _
    cases hr.symm.trans hr'
    exact h.setNode hN

theorem collectAllNodeIds_childless {g : NodeGraph} (hg : g.children = []) (l : List PeerId) :
    collectAllNodeIds l g = l := by
  obtain ⟨u, children⟩ := g
  cases hg
  rfl

/-- **In every run of any number of nodes** no message that was sent fails an assert or an access, no
announce and no report of a lost neighbour throws, changes a topology or is passed on, a user message
throws exactly where it is to be dispatched and no callback was ever added, and `getNodeIds` has
nothing to list. -/
theorem run_quiet {parse : String → Option JsonValue} (hparse : ReadsBuilt parse)
    {users : ι → String} {hashers : ι → String → Hash} (hh : ∀ i s, hashers i s < 2 ^ 64)
    {tr : List (SwarmEvent ι)} {S : Swarm ι}
    (h : Lts.Run (SwarmStep parse) (.new users hashers) tr S) :
    (∀ i m, m ∈ S.sent → ∀ now, ∃ r, processWebRTCMessage parse (S.nodes i) m.toJson now = .ok r ∧
      Handled (S.nodes i) m r) ∧
    ∀ (i : ι) (roomId : RoomId) (M : RoomMap), (S.nodes i).maps[roomId]? = some M →
      M.getNodeIds = [] := by
  have hquiet : QuietSwarm S := h.invariant
    ⟨fun i => quiet_new (users i) (hh i), fun m hm => absurd hm List.not_mem_nil⟩
    fun _ _ _ hS he => hS.step hparse he
  refine ⟨fun i m hm now => ?_, fun i roomId M hM => ?_⟩
  · obtain ⟨r, hr, -, hhandled⟩ := (hquiet.nodes i).deliver hparse (hquiet.sent m hm) now
    exact ⟨r, hr, hhandled⟩
  · exact collectAllNodeIds_childless ((hquiet.nodes i).lonely.lonely roomId M hM).1 []

/-- A node with an open channel to another announces its map and sends a user message; the other one
has joined the room as well. -/
theorem run_quiet_announce : ∃ (tr : List (SwarmEvent Bool)) (S : Swarm Bool),
    Lts.Run (SwarmStep readJson)
      (.new (fun b => if b then "u" else "v") fun _ s => s.length % 2 ^ 64) tr S ∧
    S.sent.map Msg.type = [.announceWebrtc, .logic] ∧ (S.nodes false).node.rooms = ["r"] ∧
    ∀ i m, m ∈ S.sent → ∀ now, ∃ r, processWebRTCMessage readJson (S.nodes i) m.toJson now = .ok r ∧
      Handled (S.nodes i) m r := by
  have hjoin : SwarmStep readJson
      (.new (fun b => if b then "u" else "v") fun _ s => s.length % 2 ^ 64 : Swarm Bool)
      (.own true (.call (.joinRoomWS "r" fun _ => 0))) _ :=
    .own trivial (.call (by decide) rfl)
  have hrun := ((((Lts.Run.single hjoin).snoc
    (.own (i := true) (e := .call (.createPC "vr" .offer "r")) trivial (.call (by decide) rfl))).snoc
    (.own (i := true) (e := .thread (.channels fun p => if p = 0 then
      some { Peer.new "vr" .offer "r" with remoteChannel := some true } else none)) trivial
      (.thread (.channels _ fun p => by rcases p with _ | p <;> rfl)))).snoc
    (.onCreatedConnection true "vr" "r" 0)).snoc
    (.own (i := true) (e := .thread (.iterate _ _)) trivial
      (.thread (.iterate (.inl (by decide +kernel)))))
  have hrun := ((hrun.snoc
    (.own (i := true) (e := .thread (.broadcast2Room "r" "hi" .logic "" 0)) rfl
      (.thread (.broadcast2Room "r" "hi" .logic "" 0)))).snoc
    (.own (i := true) (e := .thread (.iterate _ _)) trivial
      (.thread (.iterate (.inl (by decide +kernel)))))).snoc
    (.own (i := false) (e := .call (.joinRoomWS "r" fun _ => 0)) trivial (.call (by decide) rfl))
  exact ⟨_, _, hrun, by decide +kernel, by decide +kernel,
    (run_quiet readsBuilt_readJson (fun _ s => Nat.mod_lt _ (by decide)) hrun).1⟩

end Incoming

end Yamb
