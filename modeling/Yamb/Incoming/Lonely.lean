import Yamb.Incoming.Model

/-!
# Rooms without units

`createPC` tells the topology of a room nothing, so no unit ever gets below `IamRoot`.

* `SameRooms`: a node keeps its rooms and the sizes of their windows;
* `sameRooms_createPC`, `sameRooms_onClosed`, `sameRooms_signal`, `sameRooms_thread`, ...: what the
  steps of a node do to its rooms;
* `Lonely`: every room has its topology, and that is the unit of the node alone;
* **`Lonely.call`**: no call of a node changes that.
-/

set_option autoImplicit false

namespace Yamb

open RoseTree

/-! ### The rooms of a node -/

/-- The windows have the sizes of before. -/
structure RoomUnit.SameSize (RU RU' : RoomUnit) : Prop where
  logic : RU'.logicMsgHashesBuffer.maxSize = RU.logicMsgHashesBuffer.maxSize
  system : RU'.systemMsgHashesBuffer.maxSize = RU.systemMsgHashesBuffer.maxSize

namespace RoomUnit

theorem sameSize_refl (RU : RoomUnit) : RU.SameSize RU := ⟨rfl, rfl⟩

theorem sameSize_putHash (RU : RoomUnit) (t : MessageType) (hash : Hash) :
    RU.SameSize (RU.putHash t hash) := by
  unfold putHash
  split_ifs
  · exact ⟨rfl, rfl⟩
  · exact ⟨rfl, rfl⟩

theorem sameSize_addNode (RU : RoomUnit) (peerId : PeerId) (peer : Ptr) :
    RU.SameSize (RU.addNode peerId peer) := ⟨rfl, rfl⟩

end RoomUnit

namespace Node

variable {n n' n'' : Node} {roomId : RoomId}

/-- The user, the mutexes and the rooms are those of before, but for what the rooms hold. -/
structure SameRooms (n n' : Node) : Prop where
  user : n'.user = n.user
  mutexes : n'.peersInLvlMutexes = n.peersInLvlMutexes
  callbacksMutexes : n'.callbacksMutexes = n.callbacksMutexes
  rooms : ∀ (r : RoomId) (RU' : RoomUnit), n'.roomManager[r]? = some RU' →
    ∃ RU, n.roomManager[r]? = some RU ∧ RU.SameSize RU'

theorem sameRooms_of_eq (hu : n'.user = n.user) (hm : n'.peersInLvlMutexes = n.peersInLvlMutexes)
    (hc : n'.callbacksMutexes = n.callbacksMutexes) (hr : n'.roomManager = n.roomManager) :
    SameRooms n n' :=
  ⟨hu, hm, hc, fun _ RU' h => ⟨RU', hr ▸ h, RU'.sameSize_refl⟩⟩

theorem SameRooms.refl (n : Node) : SameRooms n n := sameRooms_of_eq rfl rfl rfl rfl

theorem SameRooms.trans (h : SameRooms n n') (h' : SameRooms n' n'') : SameRooms n n'' := by
  refine ⟨h'.user.trans h.user, h'.mutexes.trans h.mutexes,
    h'.callbacksMutexes.trans h.callbacksMutexes, fun r RU'' hRU'' => ?_⟩
  obtain ⟨RU', hRU', hsize'⟩ := h'.rooms r RU'' hRU''
  obtain ⟨RU, hRU, hsize⟩ := h.rooms r RU' hRU'
  exact ⟨RU, hRU, hsize'.logic.trans hsize.logic, hsize'.system.trans hsize.system⟩

theorem sameRooms_setRoom {RU RU' : RoomUnit} (hRU : n.roomManager[roomId]? = some RU)
    (hsize : RU.SameSize RU') : SameRooms n (n.setRoom roomId RU') := by
  refine ⟨rfl, rfl, rfl, fun r RU₁ h => ?_⟩
  rw [setRoom_roomManager, PointerCollection.getElem?_insert] at h
  split_ifs at h with heq
  · subst heq
    obtain rfl := Option.some.inj h
    exact ⟨RU, hRU, hsize⟩
  · exact ⟨RU₁, h, RU₁.sameSize_refl⟩

/-! ### Sending -/

theorem sameRooms_queueOwn {RU : RoomUnit} (hRU : n.roomManager[roomId]? = some RU)
    (task : SendMsgT) : SameRooms n (n.queueOwn RU roomId task) :=
  (sameRooms_setRoom hRU (RU.sameSize_putHash _ _)).trans (sameRooms_of_eq rfl rfl rfl rfl)

theorem sameRooms_broadcast2Room (n : Node) (roomId : RoomId) (j : String) (t : MessageType)
    (except : PeerId) (now : ℕ) : SameRooms n (n.broadcast2Room roomId j t except now).1 := by
  unfold broadcast2Room
  cases hRU : n.roomManager[roomId]? with
  | none => exact .refl n
  | some RU => exact sameRooms_queueOwn hRU _

theorem sameRooms_send2client (n : Node) (peerId : PeerId) (roomId : RoomId) (j : String)
    (t : MessageType) (now : ℕ) : SameRooms n (n.send2client peerId roomId j t now).1 := by
  unfold send2client
  cases hRU : n.roomManager[roomId]? with
  | none => exact .refl n
  | some RU => exact sameRooms_queueOwn hRU _

theorem sameRooms_handleWebrtcNodeMessageLogic (n : Node) (pMsg : Message) (now : ℕ) :
    SameRooms n (n.handleWebrtcNodeMessageLogic pMsg now).1 := by
  unfold handleWebrtcNodeMessageLogic
  cases hRU : n.roomManager[pMsg.roomId]? with
  | none => exact .refl n
  | some RU =>
    have hput := sameRooms_setRoom hRU (RU.sameSize_putHash .logic pMsg.hash)
    dsimp only
    split_ifs
    · exact .refl n
    · split
      · split_ifs
        · exact hput.trans (sameRooms_of_eq rfl rfl rfl rfl)
        · exact hput
      · exact hput.trans (sameRooms_of_eq rfl rfl rfl rfl)

theorem sameRooms_thread {e : ThreadEvent} (h : ThreadStep n e n') : SameRooms n n' := by
  cases h with
  | broadcast2Room roomId j t except now => exact sameRooms_broadcast2Room n roomId j t except now
  | send2client peerId roomId j t now => exact sameRooms_send2client n peerId roomId j t now
  | receive m now => exact sameRooms_handleWebrtcNodeMessageLogic n _ now
  | iterate =>
    have hcase := senderIteration_case n
    generalize n.senderIteration = r at hcase ⊢
    cases hcase with
    | idle | stop | stale | fault | done => exact sameRooms_of_eq rfl rfl rfl rfl
  | wake | channels => exact sameRooms_of_eq rfl rfl rfl rfl

/-! ### Callbacks and peers -/

theorem sameRooms_addCallback (n : Node) (roomId : RoomId) (callback : Callback) :
    SameRooms n (n.addCallback roomId callback).1 := by
  unfold addCallback
  cases n.callbacksMutexes.get roomId with
  | error f => exact .refl n
  | ok u => exact sameRooms_of_eq rfl rfl rfl rfl

theorem sameRooms_removeCallback (n : Node) (roomId : RoomId) (callback : Callback) :
    SameRooms n (n.removeCallback roomId callback).1 := by
  unfold removeCallback
  split_ifs
  · cases n.callbacks[roomId]? with
    | none => exact .refl n
    | some call_vec => exact sameRooms_of_eq rfl rfl rfl rfl
  · exact .refl n

theorem sameRooms_enterRoom (n : Node) (peerid : PeerId) (conn : Ptr) (roomId : RoomId) :
    SameRooms n (n.enterRoom peerid conn roomId).1 := by
  unfold enterRoom PointerCollection.get
  cases n.peersInLvlMutexes[roomId]? with
  | none => exact .refl n
  | some u =>
    cases hRU : n.roomManager[roomId]? with
    | none => exact .refl n
    | some RU => exact sameRooms_setRoom hRU (RU.sameSize_addNode peerid conn)

theorem sameRooms_createPC (n : Node) (peerid : PeerId) (sdptype : Mode) (roomId : RoomId) :
    SameRooms n (n.createPC peerid sdptype roomId).1 := by
  unfold createPC
  cases n.peerManager[peerid]? with
  | none =>
    have hnew : SameRooms n ((n.alloc (.new peerid sdptype roomId)).register peerid n.nextPtr) :=
      sameRooms_of_eq rfl rfl rfl rfl
    exact hnew.trans (sameRooms_enterRoom _ _ _ _)
  | some conn =>
    dsimp only
    cases n.heap conn with
    | none => exact .refl n
    | some peer =>
      dsimp only
      split_ifs
      · exact .refl n
      · exact sameRooms_enterRoom n peerid conn roomId

theorem sameRooms_createPCOf (n : Node) (peer : Address) (roomId : RoomId) :
    SameRooms n (n.createPCOf peer roomId).1 := by
  unfold createPCOf
  dsimp only
  split_ifs
  · cases n.peerManager[peer.user ++ roomId]? with
    | none =>
      have hnew : SameRooms n (((n.alloc (.new (peer.user ++ roomId) .offer roomId)).createOffer
          n.nextPtr (.new (peer.user ++ roomId) .offer roomId)).register (peer.user ++ roomId)
          n.nextPtr) := sameRooms_of_eq rfl rfl rfl rfl
      exact hnew.trans (sameRooms_enterRoom _ _ _ _)
    | some conn =>
      dsimp only
      cases n.heap conn with
      | none => exact .refl n
      | some p =>
        dsimp only
        split_ifs
        · exact .refl n
        · have hoffer : SameRooms n (n.createOffer conn p) := sameRooms_of_eq rfl rfl rfl rfl
          exact hoffer.trans (sameRooms_enterRoom _ _ _ _)
  · exact sameRooms_of_eq rfl rfl rfl rfl

theorem sameRooms_removePeer (n : Node) (conn : Ptr) : SameRooms n (n.removePeer conn) := by
  unfold removePeer
  cases n.peerManager.keyOf conn with
  | none => exact .refl n
  | some key => exact sameRooms_of_eq rfl rfl rfl rfl

theorem sameRooms_onClosed (n : Node) (conn : Ptr) (now : ℕ) :
    SameRooms n (n.onClosed conn now).1 := by
  unfold onClosed
  cases n.heap conn with
  | none => exact .refl n
  | some peer =>
    dsimp only
    split_ifs
    · exact .refl n
    · cases n.peersInLvlMutexes.get (n.roomOf peer.peerid) with
      | error f => exact .refl n
      | ok u => exact (sameRooms_broadcast2Room n _ _ _ _ now).trans (sameRooms_removePeer _ conn)

/-! ### Signalling -/

theorem sameRooms_recvSDP (n : Node) (token : PeerId) (type : SdpType) :
    SameRooms n (n.recvSDP token type) := by
  unfold recvSDP
  cases n.peerManager[token]? with
  | none => exact .refl n
  | some conn =>
    dsimp only
    split
    · exact sameRooms_of_eq rfl rfl rfl rfl
    · exact .refl n

theorem sameRooms_signal (n : Node) (m : SigEvent) : SameRooms n (n.signal m).1 := by
  cases m with
  | iceCandidateIncome from' roomId data => exact .refl n
  | sdpOfferIncome from' roomId data =>
    have hpc := sameRooms_createPC n from' .answer roomId
    unfold signal onSDPOffer
    dsimp only
    split_ifs
    · exact .refl n
    · generalize n.createPC from' .answer roomId = r at hpc ⊢
      obtain ⟨n₁, f | b⟩ := r
      · exact hpc
      · cases b with
        | false => exact hpc
        | true => exact hpc.trans (sameRooms_recvSDP n₁ from' .offer)
  | sdpAnswerIncome from' roomId data =>
    unfold signal onSDPAnswer
    dsimp only
    split_ifs
    · exact .refl n
    · exact sameRooms_recvSDP n from' .answer
  | peerConnected from' roomId peer =>
    unfold signal onPeerConnectedSignaler
    dsimp only
    split_ifs
    · exact .refl n
    · exact .refl n
    · exact sameRooms_createPCOf n peer roomId

theorem sameRooms_onSuccess (n : Node) (conn : Ptr) (sdp : String) :
    SameRooms n (n.onSuccess conn sdp) := by
  unfold onSuccess
  cases n.heap conn with
  | none => exact .refl n
  | some p =>
    dsimp only
    cases p.creating with
    | nil => exact .refl n
    | cons type creating =>
      dsimp only
      unfold sendSDP
      split_ifs
      · exact .refl n
      · exact sameRooms_of_eq rfl rfl rfl rfl

end Node

/-! ### The topology of the rooms -/

/-- Every room has its mutexes, windows of more than one slot and a topology, and all that is known of
a topology is the node itself. -/
structure MapNode.Lonely (N : MapNode) : Prop where
  mutexes : ∀ r ∈ N.node.roomManager, r ∈ N.node.peersInLvlMutexes
  callbacksMutexes : ∀ r ∈ N.node.roomManager, r ∈ N.node.callbacksMutexes
  windows : ∀ (r : RoomId) (RU : RoomUnit), N.node.roomManager[r]? = some RU →
    2 ≤ RU.logicMsgHashesBuffer.maxSize ∧ 2 ≤ RU.systemMsgHashesBuffer.maxSize
  mem_maps : ∀ r ∈ N.node.roomManager, r ∈ N.maps
  lonely : ∀ (r : RoomId) (M : RoomMap), N.maps[r]? = some M →
    M.iamRoot.children = [] ∧ M.iamRoot.value.id = N.node.myIdInRoom r

namespace MapNode

variable {N : MapNode} {roomId : RoomId}

theorem new_lonely (user : String) (hasher : String → Hash) : (new user hasher).Lonely where
  mutexes := fun r hr => by simp [new, Node.new] at hr
  callbacksMutexes := fun r hr => by simp [new, Node.new] at hr
  windows := fun r RU hRU => by simp [new, Node.new] at hRU
  mem_maps := fun r hr => by simp [new, Node.new] at hr
  lonely := fun r M hM => by simp [new] at hM

/-- A node with the same rooms, whose topologies keep their units. -/
theorem Lonely.same (h : N.Lonely) {n : Node} (hn : N.node.SameRooms n)
    {maps : PointerCollection RoomMap} (hmem : ∀ r ∈ N.maps, r ∈ maps)
    (hmaps : ∀ (r : RoomId) (M' : RoomMap), maps[r]? = some M' →
      ∃ M, N.maps[r]? = some M ∧ M'.iamRoot = M.iamRoot) : Lonely ⟨n, maps⟩ := by
  have hroom : ∀ r ∈ n.roomManager, r ∈ N.node.roomManager := fun r hr => by
    obtain ⟨RU', hRU'⟩ := PointerCollection.exists_of_mem hr
    obtain ⟨RU, hRU, -⟩ := hn.rooms r RU' hRU'
    exact PointerCollection.mem_of_getElem? hRU
  refine ⟨fun r hr => ?_, fun r hr => ?_, fun r RU' hRU' => ?_,
    fun r hr => hmem r (h.mem_maps r (hroom r hr)), fun r M' hM' => ?_⟩
  · show r ∈ n.peersInLvlMutexes
    rw [hn.mutexes]
    exact h.mutexes r (hroom r hr)
  · show r ∈ n.callbacksMutexes
    rw [hn.callbacksMutexes]
    exact h.callbacksMutexes r (hroom r hr)
  · obtain ⟨RU, hRU, hsize⟩ := hn.rooms r RU' hRU'
    rw [hsize.logic, hsize.system]
    exact h.windows r RU hRU
  · obtain ⟨M, hM, hroot⟩ := hmaps r M' hM'
    show _ ∧ _ = n.user ++ r
    rw [hroot, hn.user]
    exact h.lonely r M hM

theorem Lonely.sameRooms (h : N.Lonely) {n : Node} (hn : N.node.SameRooms n) :
    Lonely { N with node := n } :=
  h.same hn (fun _ hr => hr) fun _ M hM => ⟨M, hM, rfl⟩

/-! ### Calls -/

theorem Lonely.joinRoomWS (h : N.Lonely) (roomId : RoomId) (junk : ℕ → Hash) :
    Lonely ⟨N.node.joinRoomWS roomId junk, if roomId ∈ N.node.rooms then N.maps
      else N.maps.insertIfNew roomId (createRoomMap (N.node.myIdInRoom roomId))⟩ := by
  unfold Node.joinRoomWS
  split_ifs with hr
  · exact h
  refine ⟨fun r hr => ?_, fun r hr => ?_, fun r RU hRU => ?_, fun r hr => ?_, fun r M hM => ?_⟩
  · simp only [Std.ExtTreeMap.mem_insertIfNew, Std.LawfulEqCmp.compare_eq_iff_eq] at hr ⊢
    exact hr.imp id (h.mutexes r)
  · simp only [Std.ExtTreeMap.mem_insertIfNew, Std.LawfulEqCmp.compare_eq_iff_eq] at hr ⊢
    exact hr.imp id (h.callbacksMutexes r)
  · simp only [PointerCollection.getElem?_insertIfNew] at hRU
    split_ifs at hRU
    · obtain rfl := Option.some.inj hRU
      exact ⟨(by decide : 2 ≤ 500), (by decide : 2 ≤ 500)⟩
    · exact h.windows r RU hRU
  · simp only [Std.ExtTreeMap.mem_insertIfNew, Std.LawfulEqCmp.compare_eq_iff_eq] at hr ⊢
    exact hr.imp id (h.mem_maps r)
  · simp only [PointerCollection.getElem?_insertIfNew] at hM
    split_ifs at hM with heq
    · obtain rfl := Option.some.inj hM
      obtain ⟨rfl, -⟩ := heq
      exact ⟨rfl, rfl⟩
    · exact h.lonely r M hM

theorem Lonely.erase (h : N.Lonely) {n : Node} (hu : n.user = N.node.user)
    (hm : n.peersInLvlMutexes = N.node.peersInLvlMutexes)
    (hc : n.callbacksMutexes = N.node.callbacksMutexes)
    (hRM : n.roomManager = N.node.roomManager.erase roomId) :
    Lonely ⟨n, N.maps.erase roomId⟩ := by
  refine ⟨fun r hr => ?_, fun r hr => ?_, fun r RU hRU => ?_, fun r hr => ?_, fun r M hM => ?_⟩
  · simp only [hRM, hm, Std.ExtTreeMap.mem_erase] at hr ⊢
    exact h.mutexes r hr.2
  · simp only [hRM, hc, Std.ExtTreeMap.mem_erase] at hr ⊢
    exact h.callbacksMutexes r hr.2
  · simp only [hRM, PointerCollection.getElem?_erase] at hRU
    split_ifs at hRU
    exact h.windows r RU hRU
  · simp only [hRM, Std.ExtTreeMap.mem_erase] at hr ⊢
    exact ⟨hr.1, h.mem_maps r hr.2⟩
  · simp only [PointerCollection.getElem?_erase] at hM
    split_ifs at hM
    show _ ∧ _ = n.user ++ r
    rw [hu]
    exact h.lonely r M hM

theorem Lonely.leaveRoomWS (h : N.Lonely) (roomId : RoomId)
    (hd : (N.node.leaveRoomWS roomId).2 ≠ .error .useAfterFree) :
    Lonely ⟨(N.node.leaveRoomWS roomId).1,
      if roomId ∈ N.node.rooms then N.maps.erase roomId else N.maps⟩ := by
  unfold Node.leaveRoomWS at hd ⊢
  split_ifs at hd ⊢ with hr
  · cases hRU : N.node.roomManager[roomId]? with
    | none =>
      refine h.erase rfl rfl rfl ?_
      refine (Std.ExtTreeMap.ext_getElem? fun r => ?_).symm
      rw [PointerCollection.getElem?_erase]
      split_ifs with heq
      · exact heq ▸ hRU.symm
      · rfl
    | some RU =>
      simp only [hRU] at hd
      split_ifs at hd with hp
      · dsimp only
        rw [if_pos hp]
        cases N.node.callbacksMutexes.get roomId with
        | error f => exact h.erase rfl rfl rfl rfl
        | ok u => exact h.erase rfl rfl rfl rfl
      · exact absurd rfl hd
  · exact h

/-- In a topology without units, nothing is found that could be deleted. -/
theorem disconnectUnit_of_childless {g g' : NodeGraph} (hg : g.children = [])
    {u : NodesMapDiffUnit} (h : disconnectUnit g u = .ok g') : g' = g := by
  unfold disconnectUnit at h
  cases hf : findInGraphWithParents g u.parentIds u.id with
  | none =>
    rw [hf] at h
    exact (Except.ok.inj h).symm
  | some π =>
    obtain ⟨s, hs, -⟩ := findInTurn_append_singleton hf
    obtain ⟨rfl, -⟩ := sub_of_childless hg hs
    rw [hf] at h
    cases h

theorem applyDiff_lostPeer_of_childless {M M' : RoomMap} (hg : M.iamRoot.children = [])
    {peerid : PeerId} (h : M.applyDiff (lostPeer M peerid) = .ok M') : M'.iamRoot = M.iamRoot := by
  unfold RoomMap.applyDiff RoomMap.onNodesMapDiff lostPeer RoomMap.disconnectLvl at h
  simp only [List.foldlM_cons, List.foldlM_nil] at h
  cases hd : disconnectUnit M.iamRoot ⟨peerid, [M.iamRoot.value.id]⟩ with
  | error F =>
    simp only [pure, Except.pure, bind, Except.bind, hd] at h
    cases h
  | ok g' =>
    simp only [pure, Except.pure, bind, Except.bind, hd] at h
    obtain rfl := Except.ok.inj h
    exact disconnectUnit_of_childless hg hd

theorem Lonely.onLost (h : N.Lonely) {conn : Ptr}
    {apply : RoomMap → NodesMapDiff → Except GraphFault RoomMap} {maps : PointerCollection RoomMap}
    (happly : ∀ M M' peerid, M.iamRoot.children = [] → apply M (lostPeer M peerid) = .ok M' →
      M'.iamRoot = M.iamRoot) {n : Node} (hn : N.node.SameRooms n)
    (hm : N.onLost conn apply = .ok maps) : Lonely ⟨n, maps⟩ := by
  unfold MapNode.onLost at hm
  cases hp : N.node.heap conn with
  | none =>
    rw [hp] at hm
    obtain rfl := Except.ok.inj hm
    exact h.sameRooms hn
  | some peer =>
    simp only [hp] at hm
    split_ifs at hm
    · obtain rfl := Except.ok.inj hm
      exact h.sameRooms hn
    · cases hM : N.maps[N.node.roomOf peer.peerid]? with
      | none =>
        rw [hM] at hm
        obtain rfl := Except.ok.inj hm
        exact h.sameRooms hn
      | some M =>
        simp only [hM] at hm
        cases ha : apply M (lostPeer M peer.peerid) with
        | error F =>
          rw [ha] at hm
          cases hm
        | ok M' =>
          rw [ha] at hm
          obtain rfl := Except.ok.inj hm
          have hroot := happly M M' peer.peerid (h.lonely _ M hM).1 ha
          refine h.same hn (fun r hr => Std.ExtTreeMap.mem_insert.mpr (.inr hr)) fun r M₁ hM₁ => ?_
          rw [PointerCollection.getElem?_insert] at hM₁
          split_ifs at hM₁ with heq
          · obtain rfl := Option.some.inj hM₁
            exact ⟨M, heq ▸ hM, hroot⟩
          · exact ⟨M₁, hM₁, rfl⟩

/-- **No call adds a unit** to a topology. -/
theorem Lonely.call (h : N.Lonely) {c : Call} {maps : PointerCollection RoomMap}
    (hd : (N.node.call c).2 ≠ .error .useAfterFree) (hm : N.mapsAfter c = .ok maps) :
    Lonely ⟨(N.node.call c).1, maps⟩ := by
  cases c with
  | joinRoomWS roomId junk =>
    obtain rfl := Except.ok.inj hm
    exact h.joinRoomWS roomId junk
  | createPC peerid sdptype roomId =>
    obtain rfl := Except.ok.inj hm
    exact h.sameRooms (N.node.sameRooms_createPC peerid sdptype roomId)
  | createPCOf peer roomId =>
    obtain rfl := Except.ok.inj hm
    exact h.sameRooms (N.node.sameRooms_createPCOf peer roomId)
  | onClosed conn now =>
    have hlost : N.onLost conn (fun RU diff => .ok (RU.onNodesMapDiffJson diff)) = .ok maps := hm
    refine h.onLost (fun M M' peerid _ ha => ?_) (N.node.sameRooms_onClosed conn now) hlost
    obtain rfl := Except.ok.inj ha
    rfl
  | onFailure conn now =>
    exact h.onLost (fun M M' peerid hg ha => applyDiff_lostPeer_of_childless hg ha)
      (N.node.sameRooms_onClosed conn now) hm
  | leaveRoomWS roomId =>
    obtain rfl := Except.ok.inj hm
    exact h.leaveRoomWS roomId hd

end MapNode

end Yamb
