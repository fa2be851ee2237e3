import Yamb.Lib.Lts
import Yamb.Node.Registry
import Mathlib.Data.List.Nodup

/-!
# `PeerManager` and the rooms' `PeersInRoom`

* `Call`, `CallStep`: the calls that open and close peers, join and leave rooms;
* `Listed`, `Consistent`: what a room lists is registered and live, and what is registered is listed
  in exactly one joined room;
* `Shape`: what holds of rooms, mutexes and live peers besides;
* `Safe`: the calls that keep the two maps together; `good_iff`: one call;
* **`run_consistent_iff`**: the maps stay consistent exactly in the runs of safe calls.
-/

set_option autoImplicit false

namespace Yamb

inductive Call
  | joinRoomWS (roomId : RoomId) (junk : ℕ → Hash)
  | createPC (peerid : PeerId) (sdptype : Mode) (roomId : RoomId)
  | createPCOf (peer : Address) (roomId : RoomId)
  | onClosed (conn : Ptr) (now : ℕ)
  | onFailure (conn : Ptr) (now : ℕ)
  | leaveRoomWS (roomId : RoomId)

namespace Node

/-- The node a call leaves, and the error it ends with. -/
def call (n : Node) : Call → Node × Except Fault Unit
  | .joinRoomWS roomId junk => (n.joinRoomWS roomId junk, .ok ())
  | .createPC peerid sdptype roomId =>
    ((n.createPC peerid sdptype roomId).1, (n.createPC peerid sdptype roomId).2.map fun _ => ())
  | .createPCOf peer roomId =>
    ((n.createPCOf peer roomId).1, (n.createPCOf peer roomId).2.map fun _ => ())
  | .onClosed conn now => n.onClosed conn now
  | .onFailure conn now => n.onFailure conn now
  | .leaveRoomWS roomId => n.leaveRoomWS roomId

end Node

/-- Where the behaviour of a call is undefined, any node may follow. -/
inductive CallStep (n : Node) (c : Call) : Node → Prop
  | defined (h : (n.call c).2 ≠ .error .useAfterFree) : CallStep n c (n.call c).1
  | undefined (h : (n.call c).2 = .error .useAfterFree) (n' : Node) : CallStep n c n'

namespace Node

/-- The room lists the pointer `p` under `k`. -/
def Listed (n : Node) (roomId : RoomId) (k : PeerId) (p : Ptr) : Prop :=
  ∃ RU, n.roomManager[roomId]? = some RU ∧ RU.peersInRoom[k]? = some p

structure Consistent (n : Node) : Prop where
  registered : ∀ roomId k p, n.Listed roomId k p → n.peerManager[k]? = some p ∧ n.heap p ≠ none
  listed : ∀ k p, n.peerManager[k]? = some p → ∃! roomId, roomId ∈ n.rooms ∧ n.Listed roomId k p

/-- The rooms and their mutexes, and the live peers. -/
structure Shape (n : Node) : Prop where
  rooms_nodup : n.rooms.Nodup
  mem_rooms : ∀ roomId, roomId ∈ n.rooms ↔ roomId ∈ n.roomManager
  mutexes : ∀ roomId ∈ n.rooms, roomId ∈ n.peersInLvlMutexes
  heap_lt : ∀ p, n.nextPtr ≤ p → n.heap p = none
  live : ∀ k p, n.peerManager[k]? = some p → ∃ peer, n.heap p = some peer ∧ peer.peerid = k
  registered : ∀ p peer, n.heap p = some peer → n.peerManager[peer.peerid]? = some p

/-- A peer may be asked for in a room: an id that is new, in a joined room; an id that is registered
in the same mode, in no other joined room than the one that lists it. -/
def MayOpen (n : Node) (peerid : PeerId) (sdptype : Mode) (roomId : RoomId) : Prop :=
  (peerid ∉ n.peerManager → roomId ∈ n.rooms) ∧
    ∀ conn peer, n.peerManager[peerid]? = some conn → n.heap conn = some peer →
      peer.mode = sdptype → roomId ∈ n.rooms → n.Listed roomId peerid conn

/-- Only a live peer of the room with the empty id may be reported closed. -/
def MayClose (n : Node) (conn : Ptr) : Prop :=
  ∃ peer, n.heap conn = some peer ∧ n.roomOf peer.peerid = ""

def Safe (n : Node) : Call → Prop
  | .joinRoomWS _ _ => True
  | .createPC peerid sdptype roomId => n.MayOpen peerid sdptype roomId
  | .createPCOf peer roomId =>
    n.user < peer.user ++ roomId → n.MayOpen (peer.user ++ roomId) .offer roomId
  | .onClosed conn _ | .onFailure conn _ => n.MayClose conn
  | .leaveRoomWS roomId => roomId ∈ n.rooms → ∀ k p, ¬ n.Listed roomId k p

/-- The call has a defined outcome, and the maps are consistent afterwards. -/
def Good (r : Node × Except Fault Unit) : Prop := r.2 ≠ .error .useAfterFree ∧ r.1.Consistent

theorem new_shape (user : String) (hasher : String → Hash) : (new user hasher).Shape where
  rooms_nodup := List.nodup_nil
  mem_rooms := fun roomId => by simp [new]
  mutexes := fun roomId h => absurd h List.not_mem_nil
  heap_lt := fun p _ => rfl
  live := fun k p h => by simp [new] at h
  registered := fun p peer h => by cases h

theorem new_consistent (user : String) (hasher : String → Hash) : (new user hasher).Consistent where
  registered := fun roomId k p ⟨RU, h, _⟩ => by simp [new] at h
  listed := fun k p h => by simp [new] at h

/-- Consistency is about the rooms, the registered peers and which pointers are live. -/
theorem Consistent.congr {n n' : Node} (h : n.Consistent) (hrooms : n'.rooms = n.rooms)
    (hl : ∀ roomId k p, n'.Listed roomId k p ↔ n.Listed roomId k p)
    (hreg : n'.peerManager = n.peerManager) (hheap : ∀ p, n'.heap p = none → n.heap p = none) :
    n'.Consistent := by
  refine ⟨fun roomId k p hk => ?_, fun k p hk => ?_⟩
  · obtain ⟨hr, hlive⟩ := h.registered roomId k p ((hl _ _ _).mp hk)
    exact ⟨hreg ▸ hr, fun hd => hlive (hheap p hd)⟩
  · simp only [hrooms, hl]
    exact h.listed k p (hreg ▸ hk)

/-! ### Rooms -/

theorem listed_joinRoomWS {n : Node} (h : n.Shape) (roomId : RoomId) (junk : ℕ → Hash)
    (r : RoomId) (k : PeerId) (p : Ptr) :
    (n.joinRoomWS roomId junk).Listed r k p ↔ n.Listed r k p := by
  unfold joinRoomWS
  split_ifs with hr
  · rfl
  · unfold Listed
    simp only [PointerCollection.getElem?_insertIfNew]
    by_cases heq : roomId = r
    · subst heq
      have hno : roomId ∉ n.roomManager := fun hc => hr ((h.mem_rooms roomId).mpr hc)
      simp [hno, createRoomUnit]
    · simp [heq]

theorem Consistent.joinRoomWS {n : Node} (h : n.Consistent) (hs : n.Shape) (roomId : RoomId)
    (junk : ℕ → Hash) : (n.joinRoomWS roomId junk).Consistent := by
  have hl := listed_joinRoomWS hs roomId junk
  refine ⟨fun r k p hk => ?_, fun k p hk => ?_⟩
  · have := h.registered r k p ((hl r k p).mp hk)
    unfold Node.joinRoomWS
    split_ifs <;> exact this
  · have hk' : n.peerManager[k]? = some p := by
      unfold Node.joinRoomWS at hk
      split_ifs at hk <;> exact hk
    obtain ⟨r, ⟨hr, hlr⟩, huniq⟩ := h.listed k p hk'
    refine ⟨r, ⟨?_, (hl r k p).mpr hlr⟩, fun r' hr' => huniq r' ⟨?_, (hl r' k p).mp hr'.2⟩⟩
    · unfold Node.joinRoomWS
      split_ifs
      · exact hr
      · exact List.mem_append_left _ hr
    · obtain ⟨RU, hRU, -⟩ := (hl r' k p).mp hr'.2
      exact (hs.mem_rooms r').mpr (PointerCollection.mem_of_getElem? hRU)

theorem Shape.joinRoomWS {n : Node} (h : n.Shape) (roomId : RoomId) (junk : ℕ → Hash) :
    (n.joinRoomWS roomId junk).Shape := by
  unfold Node.joinRoomWS
  split_ifs with hr
  · exact h
  · refine ⟨?_, fun r => ?_, fun r hm => ?_, h.heap_lt, h.live, h.registered⟩
    · refine List.nodup_append.mpr ⟨h.rooms_nodup, List.nodup_singleton _, ?_⟩
      rintro r hm _ hs rfl
      exact hr (List.mem_singleton.mp hs ▸ hm)
    · simp only [List.mem_append, List.mem_singleton, h.mem_rooms,
        Std.ExtTreeMap.mem_insertIfNew, Std.LawfulEqCmp.compare_eq_iff_eq]
      tauto
    · simp only [Std.ExtTreeMap.mem_insertIfNew, Std.LawfulEqCmp.compare_eq_iff_eq]
      rcases List.mem_append.mp hm with hm | hm
      · exact .inr (h.mutexes r hm)
      · exact .inl (List.mem_singleton.mp hm).symm

theorem not_listed_leaveRoomWS {n : Node} {roomId : RoomId}
    (h : ∀ k p, ¬ n.Listed roomId k p) (r : RoomId) (k : PeerId) (p : Ptr) :
    (∃ RU, (n.roomManager.erase roomId)[r]? = some RU ∧ RU.peersInRoom[k]? = some p) ↔
      n.Listed r k p := by
  simp only [PointerCollection.getElem?_erase]
  by_cases heq : roomId = r
  · subst heq
    simp [h k p]
  · simp [heq, Listed]

/-- Erasing a room without peers. -/
theorem Consistent.eraseRoom {n : Node} (h : n.Consistent) {roomId : RoomId}
    (hno : ∀ k p, ¬ n.Listed roomId k p) : ({ n with
      rooms := n.rooms.erase roomId
      roomManager := n.roomManager.erase roomId } : Node).Consistent := by
  refine ⟨fun r k p hk => h.registered r k p ((not_listed_leaveRoomWS hno r k p).mp hk),
    fun k p hk => ?_⟩
  obtain ⟨r, ⟨hrr, hlr⟩, huniq⟩ := h.listed k p hk
  have hne : r ≠ roomId := by
    rintro rfl
    exact hno k p hlr
  refine ⟨r, ⟨(List.mem_erase_of_ne hne).mpr hrr, (not_listed_leaveRoomWS hno r k p).mpr hlr⟩, ?_⟩
  rintro r' ⟨hrr', hlr'⟩
  exact huniq r' ⟨List.mem_of_mem_erase hrr', (not_listed_leaveRoomWS hno r' k p).mp hlr'⟩

/-- **Leaving a room** is defined, and keeps the maps consistent, exactly for a room without peers. -/
theorem good_leaveRoomWS_iff {n : Node} (h : n.Consistent) (hs : n.Shape) (roomId : RoomId) :
    Good (n.leaveRoomWS roomId) ↔ (roomId ∈ n.rooms → ∀ k p, ¬ n.Listed roomId k p) := by
  unfold Good leaveRoomWS
  by_cases hr : roomId ∈ n.rooms
  · obtain ⟨RU, hRU⟩ := PointerCollection.exists_of_mem ((hs.mem_rooms roomId).mp hr)
    simp only [hRU, hr, if_true, true_imp_iff]
    by_cases he : RU.peersInRoom = ∅
    · have hno : ∀ k p, ¬ n.Listed roomId k p := by
        rintro k p ⟨RU', hRU', hk⟩
        obtain rfl := Option.some.inj (hRU.symm.trans hRU')
        simp [he] at hk
      refine iff_of_true ?_ hno
      have hcons := h.eraseRoom hno
      simp only [he, Std.ExtTreeMap.isEmpty_empty, if_true]
      cases hm : n.callbacksMutexes.get roomId with
      | error f =>
        refine ⟨fun hf => ?_, hcons⟩
        obtain rfl : f = .useAfterFree := by simpa using hf
        exact PointerCollection.get_ne_useAfterFree _ _ hm
      | ok _ => exact ⟨by simp, hcons.registered, hcons.listed⟩
    · refine iff_of_false ?_ ?_
      · simp [he]
      · intro hno
        refine he (Std.ExtTreeMap.eq_empty_iff_forall_not_mem.mpr fun k hk => ?_)
        obtain ⟨p, hp⟩ := PointerCollection.exists_of_mem hk
        exact hno k p ⟨RU, hRU, hp⟩
  · simp only [hr, if_false, false_imp_iff, iff_true]
    exact ⟨by simp, h⟩

theorem Shape.leaveRoomWS {n : Node} (h : n.Shape) (roomId : RoomId) :
    (n.leaveRoomWS roomId).2 ≠ .error .useAfterFree → (n.leaveRoomWS roomId).1.Shape := by
  unfold Node.leaveRoomWS
  by_cases hr : roomId ∈ n.rooms
  · obtain ⟨RU, hRU⟩ := PointerCollection.exists_of_mem ((h.mem_rooms roomId).mp hr)
    simp only [hr, if_true, hRU]
    have hshape : ({ n with
        rooms := n.rooms.erase roomId
        roomManager := n.roomManager.erase roomId } : Node).Shape := by
      refine ⟨h.rooms_nodup.erase _, fun r => ?_, fun r hm => h.mutexes r (List.mem_of_mem_erase hm),
        h.heap_lt, h.live, h.registered⟩
      rw [h.rooms_nodup.mem_erase_iff, Std.ExtTreeMap.mem_erase, h.mem_rooms, ne_comm]
      simp only [ne_eq, Std.LawfulEqCmp.compare_eq_iff_eq]
    split_ifs
    · intro _
      cases n.callbacksMutexes.get roomId with
      | error f => exact hshape
      | ok _ => exact ⟨hshape.rooms_nodup, hshape.mem_rooms, hshape.mutexes, hshape.heap_lt,
          hshape.live, hshape.registered⟩
    · exact fun hne => absurd rfl hne
  · simp only [hr, if_false]
    exact fun _ => h

/-- No room lists a peer. -/
def Unlisted (n : Node) : Prop := ∀ roomId k p, ¬ n.Listed roomId k p

theorem Unlisted.congr {n n' : Node} (h : n.Unlisted) (hRM : n'.roomManager = n.roomManager) :
    n'.Unlisted := by
  intro roomId k p hl
  unfold Listed at hl
  rw [hRM] at hl
  exact h roomId k p hl

theorem leaveRoomWS_rooms (n : Node) (roomId : RoomId) :
    (n.leaveRoomWS roomId).1.rooms = n.rooms.erase roomId := by
  unfold Node.leaveRoomWS
  split_ifs with hr
  · split
    · rfl
    · split_ifs
      · split <;> rfl
      · rfl
  · exact (List.erase_of_not_mem hr).symm

theorem Unlisted.leaveRoomWS {n : Node} (h : n.Unlisted) (roomId : RoomId) :
    (n.leaveRoomWS roomId).1.Unlisted := by
  have herase (n' : Node) (hRM : n'.roomManager = n.roomManager.erase roomId) : n'.Unlisted := by
    rintro r k p ⟨RU, hRU, hk⟩
    rw [hRM] at hRU
    exact h r k p ((not_listed_leaveRoomWS (h roomId) r k p).mp ⟨RU, hRU, hk⟩)
  unfold Node.leaveRoomWS
  split_ifs
  · split
    · exact h.congr rfl
    · split_ifs
      · split
        · exact herase _ rfl
        · exact herase _ rfl
      · exact h.congr rfl
  · exact h

/-! ### Opening a peer -/

theorem enterRoom_joined {n : Node} (hs : n.Shape) {roomId : RoomId} (hr : roomId ∈ n.rooms)
    (peerid : PeerId) (conn : Ptr) : ∃ RU, n.roomManager[roomId]? = some RU ∧
      n.enterRoom peerid conn roomId = (n.setRoom roomId (RU.addNode peerid conn), .ok true) := by
  obtain ⟨RU, hRU⟩ := PointerCollection.exists_of_mem ((hs.mem_rooms roomId).mp hr)
  obtain ⟨_, hm⟩ := PointerCollection.exists_of_mem (hs.mutexes roomId hr)
  refine ⟨RU, hRU, ?_⟩
  simp only [enterRoom, PointerCollection.get_of_mem hm, PointerCollection.get_of_mem hRU]

theorem enterRoom_not_joined {n : Node} (hs : n.Shape) {roomId : RoomId} (hr : roomId ∉ n.rooms)
    (peerid : PeerId) (conn : Ptr) :
    n.enterRoom peerid conn roomId = (n, .error .notFound) := by
  have hno : roomId ∉ n.roomManager := fun hc => hr ((hs.mem_rooms roomId).mpr hc)
  unfold enterRoom
  by_cases hm : roomId ∈ n.peersInLvlMutexes
  · obtain ⟨_, hm⟩ := PointerCollection.exists_of_mem hm
    simp only [PointerCollection.get_of_mem hm, PointerCollection.get_of_not_mem hno]
  · simp only [PointerCollection.get_of_not_mem hm]

/-- Entering a room adds one entry, unless the id is listed there. -/
theorem listed_setRoom_addNode {n : Node} {roomId : RoomId} {RU : RoomUnit}
    (hRU : n.roomManager[roomId]? = some RU) (peerid : PeerId) (conn : Ptr) (r : RoomId)
    (k : PeerId) (p : Ptr) : (n.setRoom roomId (RU.addNode peerid conn)).Listed r k p ↔
      n.Listed r k p ∨ r = roomId ∧ k = peerid ∧ p = conn ∧ ∀ p', ¬ n.Listed roomId peerid p' := by
  have hlist : ∀ k p, n.Listed roomId k p ↔ RU.peersInRoom[k]? = some p := by
    intro k p
    constructor
    · rintro ⟨RU', hRU', hk⟩
      rwa [Option.some.inj (hRU.symm.trans hRU')] 
    · exact fun hk => ⟨RU, hRU, hk⟩
  by_cases hr : roomId = r
  · subst hr
    have hl : (n.setRoom roomId (RU.addNode peerid conn)).Listed roomId k p ↔
        (RU.peersInRoom.insertIfNew peerid conn)[k]? = some p := by
      unfold Listed
      simp only [setRoom_roomManager, PointerCollection.getElem?_insert, if_true,
        Option.some.injEq, RoomUnit.addNode, exists_eq_left']
    rw [hl, PointerCollection.getElem?_insertIfNew]
    simp only [hlist, true_and]
    by_cases hm : peerid ∈ RU.peersInRoom
    · simp [hm]
    · have hno := PointerCollection.getElem?_of_not_mem hm
      by_cases hk : peerid = k
      · subst hk
        simp [hm, eq_comm]
      · simp [hk, Ne.symm hk]
  · have hl : (n.setRoom roomId (RU.addNode peerid conn)).Listed r k p ↔ n.Listed r k p := by
      unfold Listed
      simp only [setRoom_roomManager, PointerCollection.getElem?_insert, hr, if_false]
    rw [hl]
    simp [Ne.symm hr]

theorem Shape.setRoom {n : Node} (h : n.Shape) {roomId : RoomId} (hr : roomId ∈ n.rooms)
    (RU : RoomUnit) : (n.setRoom roomId RU).Shape := by
  refine ⟨h.rooms_nodup, fun r => ?_, h.mutexes, h.heap_lt, h.live, h.registered⟩
  simp only [setRoom_roomManager, Std.ExtTreeMap.mem_insert, Std.LawfulEqCmp.compare_eq_iff_eq]
  constructor
  · exact fun hm => .inr ((h.mem_rooms r).mp hm)
  · rintro (rfl | hm)
    · exact hr
    · exact (h.mem_rooms r).mpr hm

theorem Shape.enterRoom {n : Node} (h : n.Shape) (peerid : PeerId) (conn : Ptr) (roomId : RoomId) :
    (n.enterRoom peerid conn roomId).1.Shape := by
  by_cases hr : roomId ∈ n.rooms
  · obtain ⟨RU, -, he⟩ := enterRoom_joined h hr peerid conn
    rw [he]
    exact h.setRoom hr _
  · rw [enterRoom_not_joined h hr]
    exact h

theorem enterRoom_ne_useAfterFree {n : Node} (h : n.Shape) (peerid : PeerId) (conn : Ptr)
    (roomId : RoomId) : (n.enterRoom peerid conn roomId).2 ≠ .error .useAfterFree := by
  by_cases hr : roomId ∈ n.rooms
  · obtain ⟨RU, -, he⟩ := enterRoom_joined h hr peerid conn
    rw [he]
    simp
  · rw [enterRoom_not_joined h hr]
    simp

/-- A registered peer may enter no joined room but the one that lists it. -/
theorem enterRoom_consistent_iff {n : Node} (h : n.Consistent) (hs : n.Shape) {peerid : PeerId}
    {conn : Ptr} (hreg : n.peerManager[peerid]? = some conn) (roomId : RoomId) :
    (n.enterRoom peerid conn roomId).1.Consistent ↔
      (roomId ∈ n.rooms → n.Listed roomId peerid conn) := by
  by_cases hr : roomId ∈ n.rooms
  · obtain ⟨RU, hRU, he⟩ := enterRoom_joined hs hr peerid conn
    have hl := listed_setRoom_addNode hRU peerid conn
    rw [he]
    simp only [hr, true_imp_iff]
    constructor
    · intro hc
      obtain ⟨r, ⟨hrr, hlr⟩, huniq⟩ := hc.listed peerid conn hreg
      by_contra hno
      have hnone : ∀ p', ¬ n.Listed roomId peerid p' := by
        intro p' hp'
        obtain rfl := Option.some.inj ((h.registered _ _ _ hp').1.symm.trans hreg)
        exact hno hp'
      obtain ⟨r₀, ⟨hr₀, hl₀⟩, -⟩ := h.listed peerid conn hreg
      have h₁ := huniq r₀ ⟨hr₀, (hl _ _ _).mpr (.inl hl₀)⟩
      have h₂ := huniq roomId ⟨hr, (hl _ _ _).mpr (.inr ⟨rfl, rfl, rfl, hnone⟩)⟩
      rw [h₁, ← h₂] at hl₀
      exact hno hl₀
    · intro hin
      refine h.congr rfl (fun r k p => ?_) rfl fun _ hp => hp
      rw [hl]
      exact or_iff_left fun hc => hc.2.2.2 conn hin
  · rw [enterRoom_not_joined hs hr]
    exact iff_of_true h fun hc => absurd hc hr

/-- The node with a new peer that is registered. -/
def withPeer (n : Node) (peer : Peer) : Node := (n.alloc peer).register peer.peerid n.nextPtr

theorem withPeer_heap (n : Node) (peer : Peer) (p : Ptr) :
    (n.withPeer peer).heap p = if p = n.nextPtr then some peer else n.heap p := by
  simp [withPeer, alloc, register, Function.update_apply]

theorem withPeer_peerManager (n : Node) (peer : Peer) (k : PeerId) :
    (n.withPeer peer).peerManager[k]? =
      if peer.peerid = k then some n.nextPtr else n.peerManager[k]? :=
  PointerCollection.getElem?_insert _ _ _ _

theorem Shape.withPeer {n : Node} (h : n.Shape) {peer : Peer} (hnew : peer.peerid ∉ n.peerManager) :
    (n.withPeer peer).Shape := by
  refine ⟨h.rooms_nodup, h.mem_rooms, h.mutexes, fun p hp => ?_, fun k p hk => ?_,
    fun p peer' hp => ?_⟩
  · rw [withPeer_heap, if_neg (Nat.ne_of_gt (Nat.lt_of_succ_le hp)),
      h.heap_lt p (Nat.le_of_succ_le hp)]
  · rw [withPeer_peerManager] at hk
    rw [withPeer_heap]
    split_ifs at hk with hkey
    · exact ⟨peer, if_pos (Option.some.inj hk).symm, hkey⟩
    · obtain ⟨peer', hp', hid⟩ := h.live k p hk
      refine ⟨peer', ?_, hid⟩
      rw [if_neg, hp']
      rintro rfl
      rw [h.heap_lt _ (Nat.le_refl _)] at hp'
      cases hp'
  · rw [withPeer_heap] at hp
    rw [withPeer_peerManager]
    split_ifs at hp with hpn
    · rw [← Option.some.inj hp, if_pos rfl, hpn]
    · have hreg := h.registered p peer' hp
      rw [if_neg, hreg]
      intro heq
      exact hnew (heq ▸ PointerCollection.mem_of_getElem? hreg)

/-- A new peer enters a joined room. -/
theorem Consistent.withPeer_addNode {n : Node} (h : n.Consistent) {peer : Peer}
    (hnew : peer.peerid ∉ n.peerManager) {roomId : RoomId} (hr : roomId ∈ n.rooms) {RU : RoomUnit}
    (hRU : (n.withPeer peer).roomManager[roomId]? = some RU) :
    ((n.withPeer peer).setRoom roomId (RU.addNode peer.peerid n.nextPtr)).Consistent := by
  have hold : ∀ r k p, n.Listed r k p → k ≠ peer.peerid := by
    rintro r k p hl rfl
    exact hnew (PointerCollection.mem_of_getElem? (h.registered _ _ _ hl).1)
  have hl : ∀ r k p, ((n.withPeer peer).setRoom roomId
      (RU.addNode peer.peerid n.nextPtr)).Listed r k p ↔
        n.Listed r k p ∨ r = roomId ∧ k = peer.peerid ∧ p = n.nextPtr := by
    intro r k p
    rw [listed_setRoom_addNode hRU]
    refine or_congr_right (and_congr_right fun _ => and_congr_right fun _ =>
      and_iff_left fun p' hp' => hold _ _ _ hp' rfl)
  refine ⟨fun r k p hk => ?_, fun k p hk => ?_⟩
  · show (n.withPeer peer).peerManager[k]? = some p ∧ (n.withPeer peer).heap p ≠ none
    rw [withPeer_peerManager, withPeer_heap]
    rcases (hl r k p).mp hk with hk | ⟨-, rfl, rfl⟩
    · obtain ⟨hreg, hlive⟩ := h.registered r k p hk
      rw [if_neg (hold r k p hk).symm]
      refine ⟨hreg, ?_⟩
      split_ifs
      · simp
      · exact hlive
    · simp
  · change (n.withPeer peer).peerManager[k]? = some p at hk
    rw [withPeer_peerManager] at hk
    simp only [hl]
    split_ifs at hk with hkey
    · obtain rfl := Option.some.inj hk
      refine ⟨roomId, ⟨hr, .inr ⟨rfl, hkey.symm, rfl⟩⟩, ?_⟩
      rintro r ⟨-, hlr | ⟨rfl, -⟩⟩
      · exact absurd hkey.symm (hold _ _ _ hlr)
      · rfl
    · obtain ⟨r, ⟨hrr, hlr⟩, huniq⟩ := h.listed k p hk
      refine ⟨r, ⟨hrr, .inl hlr⟩, ?_⟩
      rintro r' ⟨hrr', hlr' | ⟨-, hk', -⟩⟩
      · exact huniq r' ⟨hrr', hlr'⟩
      · exact absurd hk'.symm hkey

/-- A new peer has to enter a joined room. -/
theorem withPeer_enterRoom_consistent_iff {n : Node} (h : n.Consistent) (hs : n.Shape) {peer : Peer}
    (hnew : peer.peerid ∉ n.peerManager) (roomId : RoomId) :
    ((n.withPeer peer).enterRoom peer.peerid n.nextPtr roomId).1.Consistent ↔
      roomId ∈ n.rooms := by
  have hs' := hs.withPeer hnew
  by_cases hr : roomId ∈ n.rooms
  · refine iff_of_true ?_ hr
    obtain ⟨RU, hRU, he⟩ := enterRoom_joined hs' hr peer.peerid n.nextPtr
    rw [he]
    exact h.withPeer_addNode hnew hr hRU
  · refine iff_of_false (fun hc => ?_) hr
    rw [enterRoom_not_joined hs' hr] at hc
    obtain ⟨r, ⟨-, hlr⟩, -⟩ := hc.listed peer.peerid n.nextPtr (by simp [withPeer_peerManager])
    exact hnew (PointerCollection.mem_of_getElem? (h.registered r _ _ hlr).1)

theorem setPeer_heap (n : Node) (conn : Ptr) (peer : Peer) (p : Ptr) :
    (n.setPeer conn peer).heap p = if p = conn then some peer else n.heap p := by
  simp [setPeer, Function.update_apply]

theorem Consistent.setPeer {n : Node} (h : n.Consistent) (conn : Ptr) (peer : Peer) :
    (n.setPeer conn peer).Consistent := by
  refine h.congr rfl (fun _ _ _ => .rfl) rfl fun p hp => ?_
  rw [setPeer_heap] at hp
  split_ifs at hp
  exact hp

theorem Shape.setPeer {n : Node} (h : n.Shape) {conn : Ptr} {peer peer' : Peer}
    (hp : n.heap conn = some peer) (hid : peer'.peerid = peer.peerid) :
    (n.setPeer conn peer').Shape := by
  refine ⟨h.rooms_nodup, h.mem_rooms, h.mutexes, fun p hlt => ?_, fun k p hk => ?_,
    fun p q hq => ?_⟩
  · rw [setPeer_heap, if_neg, h.heap_lt p hlt]
    rintro rfl
    rw [h.heap_lt p hlt] at hp
    cases hp
  · obtain ⟨q, hq, hqk⟩ := h.live k p hk
    rw [setPeer_heap]
    split_ifs with hpc
    · subst hpc
      obtain rfl := Option.some.inj (hp.symm.trans hq)
      exact ⟨_, rfl, hid.trans hqk⟩
    · exact ⟨q, hq, hqk⟩
  · rw [setPeer_heap] at hq
    split_ifs at hq with hpc
    · subst hpc
      rw [← Option.some.inj hq, hid]
      exact h.registered p peer hp
    · exact h.registered p q hq

/-- The offer side makes the same peer, with its channel and its offer already asked for. -/
theorem alloc_createOffer_register (n : Node) (peer : Peer) :
    ((n.alloc peer).createOffer n.nextPtr peer).register peer.peerid n.nextPtr =
      n.withPeer peer.createOffer := by
  simp [withPeer, alloc, Node.createOffer, setPeer, register, Peer.createOffer]

theorem mayOpen_iff_of_registered {n : Node} {peerid : PeerId} {conn : Ptr} {p : Peer}
    (hreg : n.peerManager[peerid]? = some conn) (hp : n.heap conn = some p) (sdptype : Mode)
    (roomId : RoomId) : n.MayOpen peerid sdptype roomId ↔
      (p.mode = sdptype → roomId ∈ n.rooms → n.Listed roomId peerid conn) := by
  refine ⟨fun hm => hm.2 conn p hreg hp, fun hl => ⟨fun hno => ?_, fun conn' p' hreg' hp' => ?_⟩⟩
  · exact absurd (PointerCollection.mem_of_getElem? hreg) hno
  · obtain rfl := Option.some.inj (hreg.symm.trans hreg')
    obtain rfl := Option.some.inj (hp.symm.trans hp')
    exact hl

theorem mayOpen_iff_of_new {n : Node} {peerid : PeerId} (hnew : peerid ∉ n.peerManager)
    (sdptype : Mode) (roomId : RoomId) : n.MayOpen peerid sdptype roomId ↔ roomId ∈ n.rooms :=
  ⟨fun hm => hm.1 hnew, fun hr => ⟨fun _ => hr, fun _ _ hreg =>
    absurd (PointerCollection.mem_of_getElem? hreg) hnew⟩⟩

/-- **Both `createPC`**: what the two overloads share, over the peer they make and the change they
make to one that exists. -/
theorem open_iff {n : Node} (h : n.Consistent) (hs : n.Shape) {peer : Peer} (roomId : RoomId)
    (touch : Ptr → Peer → Node) (htouch : ∀ conn p, n.heap conn = some p →
      (touch conn p).Consistent ∧ (touch conn p).Shape ∧ (touch conn p).rooms = n.rooms ∧
        (touch conn p).roomManager = n.roomManager ∧
          (touch conn p).peerManager = n.peerManager)
    {r : Node × Except Fault Bool} (hr : r = match n.peerManager[peer.peerid]? with
      | none => (n.withPeer peer).enterRoom peer.peerid n.nextPtr roomId
      | some conn =>
        match n.heap conn with
        | none => (n, .error .useAfterFree)
        | some p =>
          if p.mode ≠ peer.mode then (n, .ok false)
          else (touch conn p).enterRoom peer.peerid conn roomId) :
    r.1.Shape ∧ (r.2 ≠ .error .useAfterFree ∧ r.1.Consistent ↔
      n.MayOpen peer.peerid peer.mode roomId) := by
  subst hr
  by_cases hnew : peer.peerid ∈ n.peerManager
  · obtain ⟨conn, hreg⟩ := PointerCollection.exists_of_mem hnew
    obtain ⟨p, hp, -⟩ := hs.live _ _ hreg
    obtain ⟨hc', hs', hrooms, hRM, hPM⟩ := htouch conn p hp
    rw [mayOpen_iff_of_registered hreg hp]
    simp only [hreg, hp, ne_eq]
    by_cases hmode : p.mode = peer.mode
    · simp only [hmode, not_true, if_false, true_imp_iff]
      refine ⟨hs'.enterRoom _ _ _, ?_⟩
      rw [← ne_eq, and_iff_right (enterRoom_ne_useAfterFree hs' _ _ _),
        enterRoom_consistent_iff hc' hs' (hPM ▸ hreg)]
      simp only [Listed, hrooms, hRM]
    · simp only [hmode, not_false_eq_true, if_true, false_imp_iff, iff_true]
      exact ⟨hs, by simp, h⟩
  · rw [PointerCollection.getElem?_of_not_mem hnew, mayOpen_iff_of_new hnew]
    have hs' := hs.withPeer hnew
    refine ⟨hs'.enterRoom _ _ _, ?_⟩
    rw [and_iff_right (enterRoom_ne_useAfterFree hs' _ _ _),
      withPeer_enterRoom_consistent_iff h hs hnew]

/-- **The answer side.** -/
theorem createPC_iff {n : Node} (h : n.Consistent) (hs : n.Shape) (peerid : PeerId) (sdptype : Mode)
    (roomId : RoomId) : (n.createPC peerid sdptype roomId).1.Shape ∧
      ((n.createPC peerid sdptype roomId).2 ≠ .error .useAfterFree ∧
        (n.createPC peerid sdptype roomId).1.Consistent ↔ n.MayOpen peerid sdptype roomId) :=
  @open_iff n h hs (.new peerid sdptype roomId) roomId (fun _ _ => n)
    (fun _ _ _ => ⟨h, hs, rfl, rfl, rfl⟩) _ rfl

/-- **The offer side.** -/
theorem createPCOf_iff {n : Node} (h : n.Consistent) (hs : n.Shape) (peer : Address)
    (roomId : RoomId) : (n.createPCOf peer roomId).1.Shape ∧
      ((n.createPCOf peer roomId).2 ≠ .error .useAfterFree ∧
        (n.createPCOf peer roomId).1.Consistent ↔
          (n.user < peer.user ++ roomId → n.MayOpen (peer.user ++ roomId) .offer roomId)) := by
  unfold createPCOf
  by_cases ho : n.user < peer.user ++ roomId
  · simp only [ho, if_true, true_imp_iff]
    have hnew := alloc_createOffer_register n (.new (peer.user ++ roomId) .offer roomId)
    refine @open_iff n h hs (Peer.new (peer.user ++ roomId) .offer roomId).createOffer roomId
      n.createOffer (fun conn p hp => ⟨h.setPeer conn _, hs.setPeer hp rfl, rfl, rfl, rfl⟩) _ ?_
    rw [← hnew]
    rfl
  · simp only [ho, if_false, false_imp_iff, iff_true]
    exact ⟨⟨hs.rooms_nodup, hs.mem_rooms, hs.mutexes, hs.heap_lt, hs.live, hs.registered⟩,
      by simp, h.registered, h.listed⟩

/-! ### Closing a peer -/

theorem roomOf_mem {n : Node} {peerid : PeerId} (h : n.roomOf peerid ≠ "") :
    n.roomOf peerid ∈ n.roomManager := by
  unfold roomOf at h ⊢
  cases hf : n.roomManager.toList.find? fun e => decide (peerid ∈ e.2.peersInRoom) with
  | none =>
    rw [hf] at h
    exact absurd rfl h
  | some e =>
    exact PointerCollection.mem_of_getElem?
      (Std.ExtTreeMap.mem_toList_iff_getElem?_eq_some.mp (List.mem_of_find?_eq_some hf))

theorem Unlisted.roomOf {n : Node} (h : n.Unlisted) (peerid : PeerId) : n.roomOf peerid = "" := by
  unfold Node.roomOf
  cases hf : n.roomManager.toList.find? fun e => decide (peerid ∈ e.2.peersInRoom) with
  | none => rfl
  | some e =>
    have hmem := Std.ExtTreeMap.mem_toList_iff_getElem?_eq_some.mp (List.mem_of_find?_eq_some hf)
    have hin : peerid ∈ e.2.peersInRoom := by simpa using List.find?_some hf
    obtain ⟨p, hp⟩ := PointerCollection.exists_of_mem hin
    exact absurd ⟨e.2, hmem, hp⟩ (h e.1 peerid p)

theorem listed_broadcast2Room (n : Node) (roomId : RoomId) (j : String) (t : MessageType)
    (except : PeerId) (now : ℕ) (r : RoomId) (k : PeerId) (p : Ptr) :
    (n.broadcast2Room roomId j t except now).1.Listed r k p ↔ n.Listed r k p := by
  unfold Node.broadcast2Room
  split
  · rfl
  · rename_i RU hRU
    unfold Listed
    simp only [queueOwn, notifyAll_roomManager, push_roomManager, setRoom_roomManager,
      PointerCollection.getElem?_insert]
    by_cases hr : roomId = r
    · subst hr
      simp [hRU]
    · simp only [hr, if_false]

theorem broadcast2Room_peerManager (n : Node) (roomId : RoomId) (j : String) (t : MessageType)
    (except : PeerId) (now : ℕ) :
    (n.broadcast2Room roomId j t except now).1.peerManager = n.peerManager := by
  unfold Node.broadcast2Room
  split <;> rfl

theorem listed_removePeer (n : Node) (conn : Ptr) (r : RoomId) (k : PeerId) (p : Ptr) :
    (n.removePeer conn).Listed r k p ↔ n.Listed r k p := by
  unfold removePeer
  split <;> rfl

/-- A removed peer that a room still lists. -/
theorem removePeer_not_consistent {n : Node} (roomId : RoomId) (k : PeerId) {conn : Ptr}
    (hreg : n.peerManager[k]? = some conn) (huniq : ∀ k', n.peerManager[k']? = some conn → k' = k)
    (hl : n.Listed roomId k conn) : ¬ (n.removePeer conn).Consistent := by
  intro hc
  have hdangling := (hc.registered roomId k conn ((listed_removePeer _ _ _ _ _).mpr hl)).1
  obtain ⟨k', hkey, hk'⟩ := PointerCollection.keyOf_of_mem hreg
  obtain rfl := huniq k' hk'
  simp only [removePeer, hkey, PointerCollection.getElem?_erase, if_true] at hdangling
  cases hdangling

/-- **Closing a peer** of a room with a name leaves that room with a dangling pointer. -/
theorem good_onClosed_iff {n : Node} (h : n.Consistent) (hs : n.Shape) (conn : Ptr) (now : ℕ) :
    Good (n.onClosed conn now) ↔ n.MayClose conn := by
  unfold Good MayClose onClosed
  cases hp : n.heap conn with
  | none => simp
  | some peer =>
    simp only [Option.some.injEq, exists_eq_left']
    by_cases hroom : n.roomOf peer.peerid = ""
    · simp [hroom, h]
    · refine iff_of_false ?_ hroom
      obtain ⟨_, hm⟩ := PointerCollection.exists_of_mem
        (hs.mutexes _ ((hs.mem_rooms _).mpr (roomOf_mem hroom)))
      simp only [hroom, if_false, PointerCollection.get_of_mem hm]
      have hreg := hs.registered conn peer hp
      obtain ⟨r, ⟨-, hl⟩, -⟩ := h.listed _ _ hreg
      refine fun hgood => removePeer_not_consistent r peer.peerid ?_ ?_
        ((listed_broadcast2Room _ _ _ _ _ _ _ _ _).mpr hl) hgood.2
      · rw [broadcast2Room_peerManager, hreg]
      · intro k' hk'
        rw [broadcast2Room_peerManager] at hk'
        obtain ⟨peer', hp', rfl⟩ := hs.live k' conn hk'
        rw [Option.some.inj (hp.symm.trans hp')]

theorem onClosed_of_mayClose {n : Node} {conn : Ptr} (h : n.MayClose conn) (now : ℕ) :
    n.onClosed conn now = (n, .ok ()) := by
  obtain ⟨peer, hp, hroom⟩ := h
  simp only [onClosed, hp, hroom, if_true]

/-! ### One call and many -/

theorem map_ne_useAfterFree {α : Type} (r : Except Fault α) (f : α → Unit) :
    r.map f ≠ .error .useAfterFree ↔ r ≠ .error .useAfterFree := by
  cases r <;> simp [Except.map]

/-- **One call** has a defined outcome that is consistent exactly when it is safe. -/
theorem good_iff {n : Node} (h : n.Consistent) (hs : n.Shape) (c : Call) :
    Good (n.call c) ↔ n.Safe c := by
  cases c with
  | joinRoomWS roomId junk =>
    exact iff_of_true ⟨by simp [call], h.joinRoomWS hs roomId junk⟩ trivial
  | createPC peerid sdptype roomId =>
    simp only [Good, call, map_ne_useAfterFree]
    exact (createPC_iff h hs peerid sdptype roomId).2
  | createPCOf peer roomId =>
    simp only [Good, call, map_ne_useAfterFree]
    exact (createPCOf_iff h hs peer roomId).2
  | onClosed conn now => exact good_onClosed_iff h hs conn now
  | onFailure conn now => exact good_onClosed_iff h hs conn now
  | leaveRoomWS roomId => exact good_leaveRoomWS_iff h hs roomId

theorem Shape.call {n : Node} (h : n.Consistent) (hs : n.Shape) {c : Call} (hc : n.Safe c) :
    (n.call c).1.Shape := by
  cases c with
  | joinRoomWS roomId junk => exact hs.joinRoomWS roomId junk
  | createPC peerid sdptype roomId => exact (createPC_iff h hs peerid sdptype roomId).1
  | createPCOf peer roomId => exact (createPCOf_iff h hs peer roomId).1
  | onClosed conn now =>
    rw [show n.call (.onClosed conn now) = (n, .ok ()) from onClosed_of_mayClose hc now]
    exact hs
  | onFailure conn now =>
    rw [show n.call (.onFailure conn now) = (n, .ok ()) from onClosed_of_mayClose hc now]
    exact hs
  | leaveRoomWS roomId =>
    exact hs.leaveRoomWS roomId ((good_leaveRoomWS_iff h hs roomId).mpr hc).1

/-- A node with a registered peer in no room: where the behaviour is undefined, it may follow. -/
def stray : Node :=
  { Node.new "" String.length with peerManager := (∅ : PointerCollection Ptr).insert "" 0 }

theorem stray_not_consistent : ¬ stray.Consistent := by
  intro h
  obtain ⟨r, ⟨hr, -⟩, -⟩ := h.listed "" 0 (by simp [stray])
  exact absurd hr List.not_mem_nil

end Node

/-- All outcomes of a call are consistent exactly when it is safe. -/
theorem surely_consistent_iff {n : Node} (h : n.Consistent) (hs : n.Shape) (c : Call) :
    (∀ t, CallStep n c t → t.Consistent) ↔ n.Safe c := by
  rw [← Node.good_iff h hs c]
  by_cases hd : (n.call c).2 = .error .useAfterFree
  · refine iff_of_false (fun hall => ?_) fun hg => hg.1 hd
    exact Node.stray_not_consistent (hall _ (.undefined hd Node.stray))
  · constructor
    · exact fun hall => ⟨hd, hall _ (.defined hd)⟩
    · intro hg t ht
      cases ht with
      | defined _ => exact hg.2
      | undefined hu _ => exact absurd hu hd

/-- **The registry stays consistent if and only if every call is safe.** -/
theorem run_consistent_iff (user : String) (hasher : String → Hash) (tr : List Call) (n : Node) :
    Lts.Run (Lts.Surely CallStep Node.Consistent) (.new user hasher) tr n ↔
      Lts.Run (Lts.Only CallStep Node.Safe) (.new user hasher) tr n := by
  refine Lts.run_surely_iff (I := fun n => n.Consistent ∧ n.Shape)
    ⟨Node.new_consistent _ _, Node.new_shape _ _⟩
    (fun n c _ hn _ => surely_consistent_iff hn.1 hn.2 c) fun n c n' hn hs hsafe => ?_
  refine ⟨(surely_consistent_iff hn.1 hn.2 c).mpr hsafe n' hs, ?_⟩
  have hg := (Node.good_iff hn.1 hn.2 c).mpr hsafe
  cases hs with
  | defined _ => exact hn.2.call hn.1 hsafe
  | undefined hu _ => exact absurd hu hg.1

/-- A peer that is opened and closed: its room still lists the deleted object. -/
theorem exists_dangling : ∃ tr n, Lts.Run CallStep (.new "u" String.length) tr n ∧
    n.Listed "r" "vr" 0 ∧ n.peerManager["vr"]? = none ∧ n.heap 0 = none :=
  ⟨_, _, ((Lts.Run.single (.defined (c := .joinRoomWS "r" fun _ => 0) (by intro h; cases h))).snoc
    (.defined (c := .createPC "vr" .answer "r") (by intro h; cases h))).snoc
    (.defined (c := .onClosed 0 1) (by intro h; cases h)), ⟨_, rfl, by decide⟩, by decide, rfl⟩

end Yamb
