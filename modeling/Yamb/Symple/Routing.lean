import Yamb.Lib.Words
import Yamb.Symple.Model

/-!
# Does a message reach the user it is for?

* `Socket`, `Message`, `broadcast`, `parseAddress`: the signaller's routing;
* `Socket.message`: what a client sends it;
* `Routed`: messages and presences for a user in a room reach the sockets of that user and no others,
  whichever sockets there are;
* `channel_append_iff`, `channel_address`: when the channel that is read is the user's;
* **`routed_iff`**: the room id must come out of `to` again, and no room have the user's name.
-/

set_option autoImplicit false

namespace Yamb

/-- `Address::print`. -/
def Address.toString (a : Address) : String :=
  a.user ++ if a.id = "" then "" else "|" ++ a.id

namespace Symple

open Words

/-- A socket that has announced itself, with the rooms it has joined. -/
structure Socket where
  id : SocketId
  user : UserId
  rooms : List RoomId
deriving DecidableEq

/-- The member `to` of a message: missing, a string, an array, or something else. -/
inductive Destination
  | undefined
  | address (to' : String)
  | rooms (to' : List String)
  | other
deriving DecidableEq

/-- What `broadcast` reads of a message; a missing `from` is empty. -/
structure Message where
  from' : String
  to' : Destination
  roomId : Option RoomId
deriving DecidableEq

/-- `str.replace(pattern, "")`. -/
def replace (str pattern : String) : String :=
  String.ofList (removeFirst pattern.toList str.toList)

/-- The result of `parseAddress`. -/
structure Addr where
  user : String
  id : Option String
deriving DecidableEq

def parseAddress (str : String) : Addr :=
  match str.toList.splitOn '|' with
  | user :: id :: _ => ⟨String.ofList user, some (String.ofList id)⟩
  | [user] => ⟨String.ofList user, none⟩
  | [] => ⟨"", none⟩

/-- `addr.user || addr.id`, as the name of a channel. -/
def Addr.channel (addr : Addr) : String :=
  if addr.user ≠ "" then addr.user else addr.id.getD "undefined"

/-- The channels of a socket: its own, that of its user, and those of its rooms. -/
def Socket.In (channel : String) (s : Socket) : Prop :=
  channel = s.id ∨ channel = s.user ∨ channel ∈ s.rooms

instance (channel : String) : DecidablePred (Socket.In channel) := fun s =>
  inferInstanceAs (Decidable (channel = s.id ∨ channel = s.user ∨ channel ∈ s.rooms))

/-- `socket.broadcast.json.to(channel).send`: the sockets that get it. -/
def sendTo (sockets : List Socket) (socket : Socket) (channel : String) : List Socket :=
  sockets.filter fun s => s.id ≠ socket.id ∧ s.In channel

def broadcast (sockets : List Socket) (socket : Socket) (message : Message) : List Socket :=
  if message.from' = "" then []
  else
    match message.to' with
    | .undefined => []
    | .address to' =>
      sendTo sockets socket (parseAddress (replace to' (message.roomId.getD "undefined"))).channel
    | .rooms to' => to'.flatMap (sendTo sockets socket)
    | .other => []

/-- What the signaller gets of the actions of a node; the client fills in the sender. -/
def Socket.message (s : Socket) : SigAction → Option Message
  | .postMessage to' roomId _ =>
    some ⟨Address.toString ⟨s.user, s.id⟩, .address to', some roomId⟩
  | .sendPresence to' roomId =>
    some ⟨Address.toString ⟨s.user, s.id⟩, .address to'.toString, some roomId⟩
  | .joinRoom _ | .leaveRoom _ => none

/-- Sockets of some users in some rooms. socket.io gives them ids: no two the same, none that of a
user, all without a bar. -/
structure Announced (users : List UserId) (rooms : List RoomId) (sockets : List Socket) : Prop where
  user : ∀ s ∈ sockets, s.user ∈ users
  rooms : ∀ s ∈ sockets, s.rooms ⊆ rooms
  nodup : (sockets.map Socket.id).Nodup
  id : ∀ s ∈ sockets, s.id ≠ "" ∧ '|' ∉ s.id.toList ∧ s.id ∉ users

/-- The message goes to the sockets of the user, but for the one it comes from. -/
def Reaches (sockets : List Socket) (sender : Socket) (message : Message) (user : UserId) : Prop :=
  ∀ s, s ∈ broadcast sockets sender message ↔ s ∈ sockets ∧ s.id ≠ sender.id ∧ s.user = user

/-- Whichever sockets there are, what is sent to a user for a room reaches exactly that user. -/
def Routed (users : List UserId) (rooms : List RoomId) (room : RoomId) (user : UserId) : Prop :=
  ∀ sockets sender target body m, Announced users rooms sockets → sender ∈ sockets →
    target ∈ sockets → target.user = user →
    (sender.message (.postMessage (user ++ room) room body) = some m ∨
      sender.message (.sendPresence ⟨user, target.id⟩ room) = some m) → Reaches sockets sender m user

/-! ### The channel that is read -/

/-- `parseAddress` reads up to the first bar. -/
theorem channel_of_not_mem {y : List Char} (h : '|' ∉ y) (hne : y ≠ []) :
    (parseAddress (String.ofList y)).channel = String.ofList y := by
  have hy : String.ofList y ≠ "" := fun h => hne (String.ofList_eq_empty_iff.mp h)
  simp only [parseAddress, String.toList_ofList, List.splitOn_eq_singleton h, Addr.channel, if_pos hy]

theorem parseAddress_of_bar {p z : List Char} (h : '|' ∉ p) : ∃ id l, z.splitOn '|' = id :: l ∧
    parseAddress (String.ofList (p ++ '|' :: z)) = ⟨String.ofList p, some (String.ofList id)⟩ := by
  obtain ⟨id, l, hz⟩ := List.exists_cons_of_ne_nil (List.splitOn_ne_nil '|' z)
  refine ⟨id, l, hz, ?_⟩
  simp only [parseAddress, String.toList_ofList, List.splitOn_append_cons_self_of_not_mem h, hz]

theorem channel_of_bar {p z : List Char} (h : '|' ∉ p) (hne : p ≠ []) :
    (parseAddress (String.ofList (p ++ '|' :: z))).channel = String.ofList p := by
  obtain ⟨id, l, -, hp⟩ := parseAddress_of_bar (z := z) h
  rw [hp, Addr.channel, if_pos fun h => hne (String.ofList_eq_empty_iff.mp h)]

theorem channel_of_no_user {z : List Char} (h : '|' ∉ z) :
    (parseAddress (String.ofList ('|' :: z))).channel = String.ofList z := by
  obtain ⟨id, l, hz, hp⟩ := parseAddress_of_bar (p := []) (z := z) List.not_mem_nil
  rw [List.splitOn_eq_singleton h] at hz
  obtain ⟨rfl, -⟩ := List.cons.inj hz
  rw [show '|' :: z = [] ++ '|' :: z from rfl, hp, Addr.channel]
  rfl

/-- What is read before or after a bar is shorter than the whole. -/
theorem length_channel_lt {y : List Char} (h : '|' ∈ y) :
    (parseAddress (String.ofList y)).channel.toList.length < y.length := by
  obtain ⟨p, z, rfl, hp⟩ := List.eq_append_cons_of_mem h
  obtain ⟨id, l, hz, hparse⟩ := parseAddress_of_bar (z := z) hp
  have hid : id.length ≤ z.length := by
    by_cases hm : '|' ∈ z
    · obtain ⟨z₁, z₂, rfl, h₁⟩ := List.eq_append_cons_of_mem hm
      rw [List.splitOn_append_cons_self_of_not_mem h₁] at hz
      obtain ⟨rfl, -⟩ := List.cons.inj hz
      exact List.IsPrefix.length_le (List.prefix_append _ _)
    · rw [List.splitOn_eq_singleton hm] at hz
      obtain ⟨rfl, -⟩ := List.cons.inj hz
      exact Nat.le_refl _
  rw [hparse, Addr.channel, List.length_append, List.length_cons]
  split_ifs
  · rw [String.toList_ofList]
    omega
  · rw [Option.getD_some, String.toList_ofList]
    omega

variable {users : List UserId} {rooms : List RoomId} {room : RoomId} {user : UserId}

theorem toList_ne_nil (hne : user ≠ "") : user.toList ≠ [] :=
  fun h => hne (String.toList_eq_nil_iff.mp h)

/-- A text as long as the user is read as the user only if it is the user. -/
theorem channel_eq_iff {y : List Char} (hne : user ≠ "") (hbar : '|' ∉ user.toList)
    (hlen : y.length = user.toList.length) :
    (parseAddress (String.ofList y)).channel = user ↔ y = user.toList := by
  constructor
  · intro h
    have hm : '|' ∉ y := by
      intro hm
      have := length_channel_lt hm
      rw [h] at this
      omega
    have hy : y ≠ [] := by
      rintro rfl
      exact toList_ne_nil hne (List.eq_nil_of_length_eq_zero hlen.symm)
    rw [channel_of_not_mem hm hy] at h
    rw [← h, String.toList_ofList]
  · rintro rfl
    rw [channel_of_not_mem hbar (toList_ne_nil hne), String.ofList_toList]

/-- The message of `sendSDP` and `sendCandidate` finds the channel of the user. -/
theorem channel_append_iff (hne : user ≠ "") (hbar : '|' ∉ user.toList) :
    (parseAddress (replace (user ++ room) room)).channel = user ↔
      Recovers user.toList room.toList := by
  rw [← removeFirst_append_iff, replace, String.toList_append]
  refine channel_eq_iff hne hbar ?_
  have := length_removeFirst (List.suffix_append user.toList room.toList).isInfix
  rw [List.length_append] at this
  omega

/-- No presence to a user is cut up: the room id is not within the user, and not across the bar. -/
def Clear (user room : List Char) : Prop :=
  room = [] ∨ ¬ room <:+: user ∧ ∀ a b, room = a ++ '|' :: b → a <:+ user → '|' ∈ b

theorem address_toList {id : SocketId} (h : id ≠ "") :
    (Address.toString ⟨user, id⟩).toList = user.toList ++ '|' :: id.toList := by
  simp [Address.toString, h, String.toList_append]

/-- The presence of `sendPresence` finds the channel of the user. -/
theorem channel_address (hne : user ≠ "") (hbar : '|' ∉ user.toList)
    (h : Clear user.toList room.toList) {id : SocketId} (hid : '|' ∉ id.toList) (hid₀ : id ≠ "") :
    (parseAddress (replace (Address.toString ⟨user, id⟩) room)).channel = user := by
  have hread {z : List Char} :
      (parseAddress (String.ofList (user.toList ++ '|' :: z))).channel = user := by
    rw [channel_of_bar hbar (toList_ne_nil hne), String.ofList_toList]
  rw [replace, address_toList hid₀]
  by_cases hin : room.toList <:+: user.toList ++ '|' :: id.toList
  · obtain ⟨p, q, hf⟩ := exists_firstAt hin
    rw [hf.removeFirst]
    rcases h with h | ⟨hn, hc⟩
    · -- the empty room id is found at the start
      have hp := hf.le [] _ (by rw [h]; rfl)
      have heq := hf.eq
      rw [List.eq_nil_of_length_eq_zero (Nat.le_zero.mp hp)] at heq ⊢
      rw [h] at heq
      exact heq ▸ hread
    · have hroom : room.toList ≠ [] := by
        intro h
        exact hn (h ▸ List.nil_infix)
      rcases infix_cases hf.eq hroom with ⟨p', rfl, -⟩ | ⟨q', hu, -⟩ | ⟨a, b, hu, hr, ht⟩
      · rw [List.append_assoc, List.cons_append]
        exact hread
      · exact absurd ⟨p, q', by rw [hu, List.append_assoc]⟩ hn
      · refine absurd (hc a b hr ⟨p, hu.symm⟩) fun hb => hid ?_
        rw [ht]
        exact List.mem_append_left _ hb
  · rw [removeFirst_eq_self hin]
    exact hread

/-- A text without a bar that is not among finitely many. -/
theorem exists_fresh (l : List String) (b : List Char) (n : ℕ) : ∃ z : List Char,
    n < z.length ∧ '|' ∉ z ∧ String.ofList (b ++ z) ∉ l := by
  let m := n + 1 + (l.map String.toList).flatten.length
  refine ⟨List.replicate m 'x', ?_, ?_, ?_⟩
  · rw [List.length_replicate]
    omega
  · intro h
    have := List.eq_of_mem_replicate h
    revert this
    decide
  · intro h
    have hle : (String.ofList (b ++ List.replicate m 'x')).toList.length ≤
        (l.map String.toList).flatten.length :=
      (List.sublist_flatten_of_mem (List.mem_map_of_mem h)).length_le
    rw [String.toList_ofList, List.length_append, List.length_replicate] at hle
    omega

/-- A presence for the user is read as one, whichever id it carries. -/
def ReadWithAll (users : List UserId) (room : List Char) (user : UserId) : Prop :=
  ∀ t : List Char, t ≠ [] → '|' ∉ t → String.ofList t ∉ users →
    (parseAddress (String.ofList (removeFirst room (user.toList ++ '|' :: t)))).channel = user

theorem bar_mem {a b r : List Char} (hr : r = a ++ '|' :: b) : '|' ∈ r := by
  rw [hr]
  exact List.mem_append_right _ List.mem_cons_self

/-- The room id is not within the user: that would cut a piece out of it. -/
theorem ReadWithAll.not_infix {r : List Char} (h : ReadWithAll users r user)
    (hbar : '|' ∉ user.toList) (hu : user ∈ users) (hroom : r ≠ []) : ¬ r <:+: user.toList := by
  intro hin
  obtain ⟨z, hz, hzbar, hfresh⟩ := exists_fresh users [] 0
  rw [List.nil_append] at hfresh
  have hchan := h z (List.ne_nil_of_length_pos hz) hzbar hfresh
  obtain ⟨p, q, hf⟩ := exists_firstAt (hin.trans (List.prefix_append user.toList ('|' :: z)).isInfix)
  rw [hf.removeFirst] at hchan
  rcases infix_cases hf.eq hroom with ⟨p', rfl, -⟩ | ⟨q', hq, rfl⟩ | ⟨a, b, -, hr, -⟩
  · obtain ⟨s, t, hst⟩ := hin
    have hle := hf.le s (t ++ '|' :: z) (by rw [← hst]; simp)
    have := congrArg List.length hst
    simp only [List.length_append, List.length_cons] at hle this
    omega
  · have hpq : '|' ∉ p ++ q' := by
      rw [hq] at hbar
      simp only [List.mem_append, not_or] at hbar ⊢
      exact ⟨hbar.1, hbar.2.2⟩
    rw [← List.append_assoc] at hchan
    by_cases hnil : p ++ q' = []
    · rw [hnil, List.nil_append, channel_of_no_user hzbar] at hchan
      exact hfresh (hchan ▸ hu)
    · rw [channel_of_bar hpq hnil] at hchan
      have := congrArg (fun s => s.toList.length) hchan
      have hpos := List.length_pos_iff.mpr hroom
      simp only [String.toList_ofList, hq, List.length_append] at this
      omega
  · exact hbar (hin.subset (bar_mem hr))

/-- The room id does not go across the bar: that would join the user with the rest of the id. -/
theorem ReadWithAll.bar_mem_right {a b : List Char} (h : ReadWithAll users (a ++ '|' :: b) user)
    (hbar : '|' ∉ user.toList) (ha : a <:+ user.toList) : '|' ∈ b := by
  by_contra hb
  obtain ⟨z, hz, hzbar, hfresh⟩ := exists_fresh users b (2 * user.toList.length)
  have hbz : '|' ∉ b ++ z := fun h => (List.mem_append.mp h).elim hb hzbar
  have hbz₀ : b ++ z ≠ [] := by
    refine List.ne_nil_of_length_pos ?_
    rw [List.length_append]
    omega
  have hchan := h (b ++ z) hbz₀ hbz hfresh
  have hin : a ++ '|' :: b <:+: user.toList ++ '|' :: (b ++ z) := by
    obtain ⟨s, hs⟩ := ha
    exact ⟨s, z, by rw [← hs]; simp⟩
  obtain ⟨p, q, hf⟩ := exists_firstAt hin
  rw [hf.removeFirst] at hchan
  rcases infix_cases hf.eq (by simp) with ⟨p', -, ht⟩ | ⟨q', hq, -⟩ | ⟨a', b', hu', hr', ht⟩
  · rw [ht] at hbz
    exact hbz (List.mem_append_right _ (List.mem_append_left _ (bar_mem rfl)))
  · rw [hq] at hbar
    exact hbar (List.mem_append_right _ (List.mem_append_left _ (bar_mem rfl)))
  · -- the rest of the id is longer than the user
    have h₁ := congrArg List.length hr'
    have h₂ := congrArg List.length ht
    have h₃ := ha.length_le
    simp only [List.length_append, List.length_cons] at h₁ h₂
    have hq : user.toList.length < q.length := by omega
    have hpq : '|' ∉ p ++ q := by
      rw [hu'] at hbar
      rw [ht] at hbz
      simp only [List.mem_append, not_or] at hbar hbz ⊢
      exact ⟨hbar.1, hbz.2⟩
    have hpq₀ : p ++ q ≠ [] := by
      refine List.ne_nil_of_length_pos ?_
      rw [List.length_append]
      omega
    rw [channel_of_not_mem hpq hpq₀] at hchan
    have := congrArg (fun s => s.toList.length) hchan
    simp only [String.toList_ofList, List.length_append] at this
    omega

theorem clear_of_channel (hbar : '|' ∉ user.toList) (hu : user ∈ users)
    (h : ∀ id : SocketId, id ≠ "" → '|' ∉ id.toList → id ∉ users →
      (parseAddress (replace (Address.toString ⟨user, id⟩) room)).channel = user) :
    Clear user.toList room.toList := by
  have hread : ReadWithAll users room.toList user := by
    intro t ht htbar hfresh
    have hne : String.ofList t ≠ "" := fun h => ht (String.ofList_eq_empty_iff.mp h)
    have := h (String.ofList t) hne (by rwa [String.toList_ofList]) hfresh
    rwa [replace, address_toList hne, String.toList_ofList] at this
  refine or_iff_not_imp_left.mpr fun hroom => ⟨hread.not_infix hbar hu hroom, fun a b hr ha => ?_⟩
  rw [hr] at hread
  exact hread.bar_mem_right hbar ha

/-! ### Who gets it -/

theorem mem_broadcast {sockets : List Socket} {sender s : Socket} {from' to' : String}
    (hfrom : from' ≠ "") : s ∈ broadcast sockets sender ⟨from', .address to', some room⟩ ↔
      s ∈ sockets ∧ s.id ≠ sender.id ∧ s.In (parseAddress (replace to' room)).channel := by
  rw [broadcast, if_neg hfrom]
  simp [sendTo]

theorem from_ne {id : SocketId} (h : id ≠ "") : Address.toString ⟨user, id⟩ ≠ "" := by
  intro ht
  have := congrArg String.toList ht
  rw [address_toList h] at this
  simp at this

theorem exists_id (l : List String) : ∃ id : SocketId, id ≠ "" ∧ '|' ∉ id.toList ∧ id ∉ l := by
  obtain ⟨z, hz, hbar, hl⟩ := exists_fresh l [] 0
  rw [List.nil_append] at hl
  refine ⟨String.ofList z, fun h => ?_, by rwa [String.toList_ofList], hl⟩
  rw [String.ofList_eq_empty_iff.mp h] at hz
  exact Nat.lt_irrefl 0 hz

/-- Sockets in no room and a bystander. -/
theorem announced_triple {id₁ id₂ id₃ : SocketId} {v : UserId} {l : List RoomId} (hu : user ∈ users)
    (hv : v ∈ users) (hl : l ⊆ rooms) (h₁ : id₁ ≠ "" ∧ '|' ∉ id₁.toList ∧ id₁ ∉ users)
    (h₂ : id₂ ≠ "" ∧ '|' ∉ id₂.toList ∧ id₂ ∉ users)
    (h₃ : id₃ ≠ "" ∧ '|' ∉ id₃.toList ∧ id₃ ∉ users) (h₁₂ : id₁ ≠ id₂) (h₁₃ : id₁ ≠ id₃)
    (h₂₃ : id₂ ≠ id₃) : Announced users rooms [⟨id₁, user, []⟩, ⟨id₂, v, l⟩, ⟨id₃, user, []⟩] where
  user := by simp [hu, hv]
  rooms := by simp [hl]
  nodup := by simp [h₁₂, h₁₃, h₂₃]
  id := by simp [h₁, h₂, h₃]

/-- If what is sent reaches the other sockets of the user, its channel was read. -/
theorem Routed.channel_eq (h : Routed users rooms room user) (hu : user ∈ users) {id : SocketId}
    {to' : String} (hid : id ≠ "" ∧ '|' ∉ id.toList ∧ id ∉ users)
    (hto : to' = user ++ room ∨ to' = Address.toString ⟨user, id⟩) :
    (parseAddress (replace to' room)).channel = user := by
  generalize hc : (parseAddress (replace to' room)).channel = c
  obtain ⟨o, ho₀, hobar, ho⟩ := exists_id (c :: id :: users)
  obtain ⟨i, hi₀, hibar, hi⟩ := exists_id (o :: id :: users)
  simp only [List.mem_cons, not_or] at ho hi
  have hann : Announced users rooms [⟨id, user, []⟩, ⟨o, user, []⟩, ⟨i, user, []⟩] :=
    announced_triple hu hu (List.nil_subset _) hid ⟨ho₀, hobar, ho.2.2⟩ ⟨hi₀, hibar, hi.2.2⟩
      (Ne.symm ho.2.1) (Ne.symm hi.2.1) (Ne.symm hi.1)
  have hreach := h _ ⟨i, user, []⟩ ⟨id, user, []⟩ (.sdp .offer "" [])
    ⟨Address.toString ⟨user, i⟩, .address to', some room⟩ hann (by simp) (by simp) rfl
    (hto.imp (by rintro rfl; rfl) (by rintro rfl; rfl)) ⟨o, user, []⟩
  have hin := (hreach.mpr ⟨by simp, Ne.symm hi.1, rfl⟩)
  rw [mem_broadcast (from_ne hi₀), hc] at hin
  rcases hin.2.2 with hco | hcu | hnil
  · exact absurd hco.symm ho.1
  · exact hcu
  · cases hnil

/-- **Messages and presences for a user reach exactly that user, whichever sockets there are, if and
only if** the room id comes out of the message again, no presence is cut up, and no other user can be
in a room with the user's name. -/
theorem routed_iff (hu : user ∈ users) (hv : ∀ v ∈ users, v ≠ "" ∧ '|' ∉ v.toList) :
    Routed users rooms room user ↔ (user ∈ rooms → ∀ v ∈ users, v = user) ∧
      Recovers user.toList room.toList ∧ Clear user.toList room.toList := by
  obtain ⟨hne, hbar⟩ := hv user hu
  constructor
  · intro h
    refine ⟨fun hr v hv => ?_, ?_, ?_⟩
    · obtain ⟨id, hid⟩ := exists_id users
      obtain ⟨o, ho₀, hobar, ho⟩ := exists_id (id :: users)
      obtain ⟨i, hi₀, hibar, hi⟩ := exists_id (o :: id :: users)
      simp only [List.mem_cons, not_or] at ho hi
      have hann : Announced users rooms [⟨id, user, []⟩, ⟨o, v, [user]⟩, ⟨i, user, []⟩] :=
        announced_triple hu hv (by simpa using hr) hid ⟨ho₀, hobar, ho.2⟩ ⟨hi₀, hibar, hi.2.2⟩
          (Ne.symm ho.1) (Ne.symm hi.2.1) (Ne.symm hi.1)
      have hreach := h _ ⟨i, user, []⟩ ⟨id, user, []⟩ (.sdp .offer "" []) _ hann (by simp) (by simp)
        rfl (.inl rfl) ⟨o, v, [user]⟩
      rw [mem_broadcast (from_ne hi₀), h.channel_eq hu hid (.inl rfl)] at hreach
      exact (hreach.mp ⟨by simp, Ne.symm hi.1, .inr (.inr List.mem_cons_self)⟩).2.2
    · obtain ⟨id, hid⟩ := exists_id users
      exact (channel_append_iff hne hbar).mp (h.channel_eq hu hid (.inl rfl))
    · exact clear_of_channel hbar hu fun id h₀ hb hn => h.channel_eq hu ⟨h₀, hb, hn⟩ (.inr rfl)
  · rintro ⟨hrooms, hrec, hclear⟩ sockets sender target body m hann hsender htarget rfl hm s
    obtain ⟨hs₀, -, -⟩ := hann.id sender hsender
    obtain ⟨ht₀, htbar, -⟩ := hann.id target htarget
    have hchan (to' : String) (hm : m = ⟨Address.toString ⟨sender.user, sender.id⟩, .address to',
        some room⟩) (hc : (parseAddress (replace to' room)).channel = target.user) :
        s ∈ broadcast sockets sender m ↔ s ∈ sockets ∧ s.id ≠ sender.id ∧ s.user = target.user := by
      rw [hm, mem_broadcast (from_ne hs₀), hc]
      refine and_congr_right fun hs => and_congr_right fun _ => ⟨?_, fun he => .inr (.inl he.symm)⟩
      rintro (hid | he | hr)
      · exact absurd (hid ▸ hu) (hann.id s hs).2.2
      · exact he.symm
      · exact hrooms (hann.rooms s hs hr) _ (hann.user s hs)
    rcases hm with hm | hm
    · exact hchan _ (Option.some.inj hm).symm ((channel_append_iff hne hbar).mpr hrec)
    · exact hchan _ (Option.some.inj hm).symm (channel_address hne hbar hclear htbar ht₀)

theorem routed_iff_plain : "b" ∈ ["a", "b"] ∧ (∀ v ∈ ["a", "b"], v ≠ "" ∧ '|' ∉ v.toList) ∧
    Routed ["a", "b"] ["r"] "r" "b" := by
  have hv : ∀ v ∈ ["a", "b"], v ≠ "" ∧ '|' ∉ v.toList := by decide
  refine ⟨by decide, hv, (routed_iff (by decide) hv).mpr ⟨by decide, ?_, .inr ⟨by decide, ?_⟩⟩⟩
  · exact removeFirst_append_iff.mp (by decide)
  · intro a b hr
    have hm : '|' ∈ "r".toList := by
      rw [hr]
      exact List.mem_append_right _ List.mem_cons_self
    exact absurd hm (by decide)

/-- The first `r` of `rxr` is that of the user, and what is left is another user. -/
theorem not_routed : ¬ ∀ users rooms room user, user ∈ users →
    (∀ v ∈ users, v ≠ "" ∧ '|' ∉ v.toList) → Routed users rooms room user := by
  intro h
  have hann : Announced ["a", "rx", "xr"] ["r"]
      [⟨"S0", "a", ["r"]⟩, ⟨"S1", "rx", ["r"]⟩, ⟨"S2", "xr", ["r"]⟩] :=
    ⟨by decide, by decide, by decide, by decide⟩
  have hreach := h ["a", "rx", "xr"] ["r"] "r" "rx" (by decide) (by decide) _ ⟨"S0", "a", ["r"]⟩
    ⟨"S1", "rx", ["r"]⟩ (.sdp .offer "" []) _ hann (by simp) (by simp) rfl (.inl rfl)
    ⟨"S2", "xr", ["r"]⟩
  have hmem := hreach.mp (by decide)
  exact absurd hmem.2.2 (by decide)

end Symple

end Yamb
