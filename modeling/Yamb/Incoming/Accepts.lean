import Yamb.Incoming.Model

/-!
# What a message has to have

* `bind_eq_ok`, `getString_eq_ok`, `member_eq_ok`, ...: when an accessor succeeds;
* `Header`, `readMessage_eq_ok`: what is read first;
* `IsUnit`, `IsMap`: maps by what is asked of their units;
* `readUnit_eq_ok`, `readLvls_eq_ok`: the loops over a map whose units add nothing;
* `processWebRTCMessage_eq_ok`: the header and the data come first.
-/

set_option autoImplicit false

namespace Yamb.Incoming

theorem bind_eq_ok {α β F : Type} {x : Except F α} {f : α → Except F β} {b : β} :
    x >>= f = .ok b ↔ ∃ a, x = .ok a ∧ f a = .ok b := by
  cases x with
  | error e => exact iff_of_false (fun h => by cases h) fun ⟨a, h, _⟩ => by cases h
  | ok a =>
    refine ⟨fun h => ⟨a, rfl, h⟩, fun ⟨a', ha, h⟩ => ?_⟩
    cases ha
    exact h

theorem ok_bind {α β F : Type} (a : α) (f : α → Except F β) : .ok a >>= f = f a := rfl

theorem exists_bind {α β F : Type} {x : Except F α} {f : α → Except F β} {a : α} (hx : x = .ok a)
    (h : ∃ b, f a = .ok b) : ∃ b, x >>= f = .ok b := by
  rw [hx]
  exact h

/-! ### Accessors -/

section accessors

variable {v w : JsonValue} {name : String}

theorem getString_eq_ok {s : String} : getString v = .ok s ↔ ∃ t, v = .str t ∧ cstr t = s := by
  cases v with
  | str t => simp [getString]
  | null | bool b | num n | arr items | obj ms => simp [getString]

theorem getInt_eq_ok {i : ℤ} :
    getInt v = .ok i ↔ v = .num (.int i) ∧ -2 ^ 31 ≤ i ∧ i < 2 ^ 31 := by
  cases v with
  | num n =>
    cases n with
    | int k =>
      simp only [getInt]
      split_ifs with h
      · simp only [Except.ok.injEq, Json.num.injEq, JsonNumber.int.injEq]
        refine ⟨?_, fun hk => hk.1⟩
        rintro rfl
        exact ⟨rfl, h⟩
      · refine iff_of_false (fun hk => by cases hk) fun ⟨hk, hi⟩ => ?_
        cases hk
        exact h hi
    | double literal => simp [getInt]
  | null | bool b | str t | arr items | obj ms => simp [getInt]

theorem getUint64_eq_ok {h : ℕ} : getUint64 v = .ok h ↔ v = .num (.int h) ∧ h < 2 ^ 64 := by
  cases v with
  | num n =>
    cases n with
    | int k =>
      simp only [getUint64, Json.num.injEq, JsonNumber.int.injEq]
      split_ifs with hk
      · have hiff : k.toNat = h ↔ k = (h : ℤ) ∧ h < 2 ^ 64 := by omega
        exact (Except.ok.injEq k.toNat h).to_iff.trans hiff
      · refine iff_of_false (fun hk => by cases hk) fun ⟨heq, hlt⟩ => ?_
        omega
    | double literal => simp [getUint64]
  | null | bool b | str t | arr items | obj ms => simp [getUint64]

theorem getObject_eq_ok {ms : List (String × JsonValue)} : getObject v = .ok ms ↔ v = .obj ms := by
  cases v with
  | obj ms => simp [getObject]
  | null | bool b | num n | str t | arr items => simp [getObject]

theorem getArray_eq_ok {items : List JsonValue} : getArray v = .ok items ↔ v = .arr items := by
  cases v with
  | arr items => simp [getArray]
  | null | bool b | num n | str t | obj ms => simp [getArray]

theorem member_eq_ok : member v name = .ok w ↔ v.find name = some w := by
  unfold member
  cases v.find name with
  | none => simp
  | some w' => simp

theorem hasMember_eq_ok {b : Bool} :
    hasMember v name = .ok b ↔ (∃ ms, v = .obj ms) ∧ (v.find name).isSome = b := by
  cases v with
  | obj ms => simp [hasMember, getObject, Except.map]
  | null | bool b | num n | str t | arr items => simp [hasMember, getObject, Except.map]

theorem memberString_eq_ok {s : String} :
    member v name >>= getString = .ok s ↔ ∃ t, v.find name = some (.str t) ∧ cstr t = s := by
  simp only [bind_eq_ok, member_eq_ok, getString_eq_ok]
  constructor
  · rintro ⟨w, hw, t, rfl, ht⟩
    exact ⟨t, hw, ht⟩
  · rintro ⟨t, hw, ht⟩
    exact ⟨_, hw, t, rfl, ht⟩

theorem liftGraph_eq_ok {α : Type} {x : Except GraphFault α} {a : α} :
    liftGraph x = .ok a ↔ x = .ok a := by
  cases x with
  | error f => exact iff_of_false (fun h => by cases h) fun h => by cases h
  | ok a' => simp [liftGraph]

theorem assert_true : assert true = .ok () := rfl

theorem assert_eq_ok {b : Bool} {u : Unit} : assert b = .ok u ↔ b = true := by
  unfold assert
  split_ifs with h
  · exact iff_of_true rfl h
  · exact iff_of_false (fun h => by cases h) h

end accessors

/-! ### The header -/

/-- The three members of the header are there, with their types. -/
def Typed (j : JsonValue) (roomId : RoomId) (hash : Hash) (type : MessageType) : Prop :=
  (∃ t, j.find "roomId" = some (.str t) ∧ cstr t = roomId) ∧
    (j.find "hash" = some (.num (.int hash)) ∧ hash < 2 ^ 64) ∧
    ∃ i, j.find "type" = some (.num (.int i)) ∧ -2 ^ 31 ≤ i ∧ i < 2 ^ 31 ∧ messageType i = type

/-- A message that lacks one of the three is one of the room `system`, with the hash 0. -/
inductive Header (j : JsonValue) : RoomId → Hash → MessageType → Prop
  | typed {roomId : RoomId} {hash : Hash} {type : MessageType} (h : Typed j roomId hash type) :
      Header j roomId hash type
  | missing (hobj : ∃ ms, j = .obj ms)
      (h : j.find "roomId" = none ∨ j.find "hash" = none ∨ j.find "type" = none) :
      Header j "system" 0 .unknown

theorem readMessage_eq_ok {j : JsonValue} {m : Message} :
    readMessage j = .ok m ↔ m.json = j ∧ Header j m.roomId m.hash m.type := by
  simp only [readMessage, bind_eq_ok, hasMember_eq_ok]
  constructor
  · rintro ⟨_, ⟨hobj, rfl⟩, _, ⟨-, rfl⟩, _, ⟨-, rfl⟩, h⟩
    split_ifs at h with hall
    · simp only [bind_eq_ok, member_eq_ok, getString_eq_ok, getUint64_eq_ok, getInt_eq_ok] at h
      obtain ⟨s, ⟨_, hs, t, rfl, rfl⟩, n, ⟨_, hn, rfl, hlt⟩, i, ⟨_, hi, rfl, hle, hlt'⟩, h⟩ := h
      cases h
      exact ⟨rfl, .typed ⟨⟨t, hs, rfl⟩, ⟨hn, hlt⟩, i, hi, hle, hlt', rfl⟩⟩
    · cases h
      refine ⟨rfl, .missing hobj ?_⟩
      simp only [Bool.and_eq_true, Option.isSome_iff_ne_none, not_and_or, not_not] at hall
      rwa [or_assoc] at hall
  · obtain ⟨roomId, json, hash, type⟩ := m
    rintro ⟨rfl, h⟩
    cases h with
    | typed h =>
      obtain ⟨⟨t, hs, rfl⟩, ⟨hn, hlt⟩, i, hi, hle, hlt', rfl⟩ := h
      refine ⟨_, ⟨Json.exists_obj_of_find hs, rfl⟩, _, ⟨Json.exists_obj_of_find hs, rfl⟩, _,
        ⟨Json.exists_obj_of_find hs, rfl⟩, ?_⟩
      rw [if_pos (by rw [hs, hn, hi]; rfl)]
      simp only [bind_eq_ok, member_eq_ok, getString_eq_ok, getUint64_eq_ok, getInt_eq_ok]
      exact ⟨_, ⟨_, hs, t, rfl, rfl⟩, _, ⟨_, hn, rfl, hlt⟩, _, ⟨_, hi, rfl, hle, hlt'⟩, rfl⟩
    | missing hobj h =>
      refine ⟨_, ⟨hobj, rfl⟩, _, ⟨hobj, rfl⟩, _, ⟨hobj, rfl⟩, ?_⟩
      rw [if_neg]
      · rfl
      · simp only [Bool.and_eq_true, Option.isSome_iff_ne_none, not_and_or, not_not]
        rwa [or_assoc]

/-! ### Maps -/

/-- A unit with its two members, as they are read. -/
def IsUnit (val : JsonValue) (u : NodesMapDiffUnit) : Prop :=
  (∃ t, val.find "Id" = some (.str t) ∧ cstr t = u.id) ∧
    ∃ ts : List String, val.find "ParentIds" = some (.arr (ts.map .str)) ∧ ts.map cstr = u.parentIds

/-- An object of arrays of such values. -/
def IsLvls (U : JsonValue → Prop) (v : JsonValue) : Prop :=
  ∃ ms, v = .obj ms ∧ ∀ m ∈ ms, ∃ items, m.2 = .arr items ∧ ∀ val ∈ items, U val

/-- An object each of whose two members is missing, null or an object of arrays. -/
def IsMap (C D : JsonValue → Prop) (diff : JsonValue) : Prop :=
  (∃ ms, diff = .obj ms) ∧
    (∀ v, diff.find "connectedBylvls" = some v → v = .null ∨ IsLvls C v) ∧
    ∀ v, diff.find "disconnectedBylvls" = some v → v = .null ∨ IsLvls D v

section maps

variable {U U' V C C' C'' D D' D'' : JsonValue → Prop} {v diff : JsonValue}

theorem IsLvls.and (h : IsLvls U v) (h' : IsLvls U' v) (hV : ∀ val, U val → U' val → V val) :
    IsLvls V v := by
  obtain ⟨ms, rfl, h⟩ := h
  obtain ⟨_, heq, h'⟩ := h'
  cases heq
  refine ⟨ms, rfl, fun m hm => ?_⟩
  obtain ⟨items, hitems, hU⟩ := h m hm
  obtain ⟨_, hitems', hU'⟩ := h' m hm
  cases hitems.symm.trans hitems'
  exact ⟨items, hitems, fun val hval => hV val (hU val hval) (hU' val hval)⟩

theorem IsMap.and (h : IsMap C D diff) (h' : IsMap C' D' diff)
    (hC : ∀ val, C val → C' val → C'' val) (hD : ∀ val, D val → D' val → D'' val) :
    IsMap C'' D'' diff := by
  refine ⟨h.1, fun v hv => ?_, fun v hv => ?_⟩
  · rcases h.2.1 v hv with hnull | hl
    · exact .inl hnull
    · rcases h'.2.1 v hv with hnull | hl'
      · exact .inl hnull
      · exact .inr (hl.and hl' hC)
  · rcases h.2.2 v hv with hnull | hl
    · exact .inl hnull
    · rcases h'.2.2 v hv with hnull | hl'
      · exact .inl hnull
      · exact .inr (hl.and hl' hD)

theorem IsMap.mono (h : IsMap C D diff) (hC : ∀ val, C val → C' val)
    (hD : ∀ val, D val → D' val) : IsMap C' D' diff :=
  h.and h (fun val hv _ => hC val hv) fun val hv _ => hD val hv

end maps

/-! ### The loops over a map -/

theorem mapM_getString_eq_ok {items : List JsonValue} {l : List String} :
    items.mapM getString = .ok l ↔ ∃ ts : List String, items = ts.map .str ∧ ts.map cstr = l := by
  induction items generalizing l with
  | nil =>
    constructor
    · intro h
      cases h
      exact ⟨[], rfl, rfl⟩
    · rintro ⟨ts, hts, rfl⟩
      rw [List.map_eq_nil_iff.mp hts.symm]
      rfl
  | cons v items ih =>
    simp only [List.mapM_cons, bind_eq_ok, getString_eq_ok, ih]
    constructor
    · rintro ⟨_, ⟨t, rfl, rfl⟩, _, ⟨ts, rfl, rfl⟩, h⟩
      cases h
      exact ⟨t :: ts, rfl, rfl⟩
    · rintro ⟨ts, hts, rfl⟩
      obtain ⟨t, ts, rfl, rfl, rfl⟩ := List.map_eq_cons_iff.mp hts.symm
      exact ⟨_, ⟨t, rfl, rfl⟩, _, ⟨ts, rfl, rfl⟩, rfl⟩

theorem parentIds_eq_ok {val : JsonValue} {pids : List PeerId} : parentIds val = .ok pids ↔
    ∃ ts : List String, val.find "ParentIds" = some (.arr (ts.map .str)) ∧ ts.map cstr = pids := by
  simp only [parentIds, bind_eq_ok, member_eq_ok, getArray_eq_ok, mapM_getString_eq_ok]
  constructor
  · rintro ⟨items, ⟨_, hv, rfl⟩, ts, rfl, hts⟩
    exact ⟨ts, hv, hts⟩
  · rintro ⟨ts, hv, hts⟩
    exact ⟨_, ⟨_, hv, rfl⟩, ts, rfl, hts⟩

/-- A loop whose steps leave the state alone or fail. -/
theorem foldlM_eq_ok_of_const {σ ε F : Type} {f : σ → ε → Except F σ} {l : List ε} {s d : σ}
    (hf : ∀ e ∈ l, ∀ d, f s e = .ok d → d = s) :
    l.foldlM f s = .ok d ↔ d = s ∧ ∀ e ∈ l, f s e = .ok s := by
  induction l with
  | nil =>
    refine ⟨fun h => ?_, fun ⟨hd, _⟩ => hd ▸ rfl⟩
    cases h
    exact ⟨rfl, fun e he => absurd he List.not_mem_nil⟩
  | cons e l ih =>
    have ih := ih fun e' he' => hf e' (List.mem_cons_of_mem e he')
    rw [List.foldlM_cons, bind_eq_ok, List.forall_mem_cons]
    constructor
    · rintro ⟨d', hd', h⟩
      obtain rfl := hf e List.mem_cons_self d' hd'
      obtain ⟨hd, hl⟩ := ih.mp h
      exact ⟨hd, hd', hl⟩
    · rintro ⟨hd, he, hl⟩
      exact ⟨s, he, ih.mpr ⟨hd, hl⟩⟩

/-- What is read of a unit: the id, and of any but the own unit the rest. -/
def Readable (own : PeerId) (Q : NodesMapDiffUnit → Prop) (val : JsonValue) : Prop :=
  ∃ t, val.find "Id" = some (.str t) ∧
    (cstr t = own ∨ ∃ pids, IsUnit val ⟨cstr t, pids⟩ ∧ Q ⟨cstr t, pids⟩)

section loops

variable {root : NodeGraph} {Q : NodesMapDiffUnit → Prop} {nm_diff d : NodesMapDiff}

theorem readUnit_eq_ok {body : NodesMapDiff → NodesMapDiffUnit → Except GraphFault NodesMapDiff}
    (hbody : ∀ u d, u.id ≠ root.value.id → (body nm_diff u = .ok d ↔ d = nm_diff ∧ Q u))
    {val : JsonValue} : readUnit root body nm_diff val = .ok d ↔
      d = nm_diff ∧ Readable root.value.id Q val := by
  simp only [readUnit, bind_eq_ok, getObject_eq_ok, member_eq_ok, getString_eq_ok]
  constructor
  · rintro ⟨ms, hobj, _, ⟨_, hfind, t, rfl, rfl⟩, h⟩
    split_ifs at h with hown
    · cases h
      exact ⟨rfl, t, hfind, .inl hown⟩
    · obtain ⟨pids, hpids, h⟩ := bind_eq_ok.mp h
      obtain ⟨hd, hQ⟩ := (hbody _ d hown).mp (liftGraph_eq_ok.mp h)
      exact ⟨hd, t, hfind, .inr ⟨pids, ⟨⟨t, hfind, rfl⟩, parentIds_eq_ok.mp hpids⟩, hQ⟩⟩
  · rintro ⟨rfl, t, hfind, h⟩
    obtain ⟨ms, hobj⟩ := Json.exists_obj_of_find hfind
    refine ⟨ms, hobj, _, ⟨_, hfind, t, rfl, rfl⟩, ?_⟩
    split_ifs with hown
    · rfl
    · rcases h with hown' | ⟨pids, hunit, hQ⟩
      · exact absurd hown' hown
      · exact bind_eq_ok.mpr ⟨pids, parentIds_eq_ok.mpr hunit.2,
          liftGraph_eq_ok.mpr ((hbody _ _ hown).mpr ⟨rfl, hQ⟩)⟩

theorem readLvls_eq_ok
    {body : ℕ → NodesMapDiff → NodesMapDiffUnit → Except GraphFault NodesMapDiff}
    (hbody : ∀ lvl u d, u.id ≠ root.value.id → (body lvl nm_diff u = .ok d ↔ d = nm_diff ∧ Q u))
    {incoming : JsonValue} : readLvls root body nm_diff incoming = .ok d ↔
      d = nm_diff ∧ IsLvls (Readable root.value.id Q) incoming := by
  -- one array of units
  have hlvl : ∀ (lvl : ℕ) (itr : String × JsonValue) (d : NodesMapDiff),
      (getArray itr.2 >>= fun arr => arr.foldlM (readUnit root (body lvl)) nm_diff) = .ok d ↔
        d = nm_diff ∧ ∃ items, itr.2 = .arr items ∧ ∀ val ∈ items,
          Readable root.value.id Q val := by
    intro lvl itr d
    have hunit : ∀ val d, readUnit root (body lvl) nm_diff val = .ok d ↔ _ :=
      fun val d => readUnit_eq_ok fun u d => hbody lvl u d
    simp only [bind_eq_ok, getArray_eq_ok]
    constructor
    · rintro ⟨items, hitems, h⟩
      obtain ⟨hd, h⟩ := (foldlM_eq_ok_of_const fun val _ d hval => ((hunit val d).mp hval).1).mp h
      exact ⟨hd, items, hitems, fun val hval => ((hunit val _).mp (h val hval)).2⟩
    · rintro ⟨rfl, items, hitems, h⟩
      refine ⟨items, hitems, ?_⟩
      exact (foldlM_eq_ok_of_const fun val _ d hval => ((hunit val d).mp hval).1).mpr
        ⟨rfl, fun val hval => (hunit val _).mpr ⟨rfl, h val hval⟩⟩
  simp only [readLvls, bind_eq_ok, getObject_eq_ok]
  constructor
  · rintro ⟨ms, rfl, h⟩
    obtain ⟨hd, h⟩ := (foldlM_eq_ok_of_const fun itr _ d hd => ((hlvl _ itr d).mp hd).1).mp h
    exact ⟨hd, ms, rfl, fun itr hitr => ((hlvl _ itr _).mp (h itr hitr)).2⟩
  · rintro ⟨rfl, ms, rfl, h⟩
    refine ⟨ms, rfl, ?_⟩
    exact (foldlM_eq_ok_of_const fun itr _ d hd => ((hlvl _ itr d).mp hd).1).mpr
      ⟨rfl, fun itr hitr => (hlvl _ itr _).mpr ⟨rfl, h itr hitr⟩⟩

theorem readGiven_eq_ok {read : NodesMapDiff → JsonValue → Except MessageFault NodesMapDiff}
    {U : JsonValue → Prop}
    (hread : ∀ incoming d, read nm_diff incoming = .ok d ↔ d = nm_diff ∧ IsLvls U incoming)
    {diff : JsonValue} {name : String} : readGiven read nm_diff diff name = .ok d ↔
      d = nm_diff ∧ (∃ ms, diff = .obj ms) ∧
        ∀ v, diff.find name = some v → v = .null ∨ IsLvls U v := by
  simp only [readGiven, bind_eq_ok, getObject_eq_ok]
  rw [exists_and_right, and_left_comm]
  refine and_congr_right fun _ => ?_
  cases hv : diff.find name with
  | none => simp [pure, Except.pure, eq_comm]
  | some v =>
    cases v with
    | null => simp [pure, Except.pure, eq_comm]
    | bool b | num n | str t | arr items | obj ms => simp [hread]

end loops

/-- Nothing gets past the header and the data. -/
theorem processWebRTCMessage_eq_ok {parse : String → Option JsonValue} {N : MapNode} {j : JsonValue}
    {now : ℕ} {r : Outcome} : processWebRTCMessage parse N j now = .ok r ↔
    (∃ t, j.find "data" = some (.str t)) ∧ ∃ roomId hash type, Header j roomId hash type ∧
      (if type ≠ .logic then handleWebrtcNodeMessageSystem parse N ⟨roomId, j, hash, type⟩ now
        else handleWebrtcNodeMessageLogic N ⟨roomId, j, hash, type⟩ now) = .ok r := by
  unfold processWebRTCMessage
  constructor
  · intro h
    obtain ⟨⟨roomId, json, hash, type⟩, hread, h⟩ := bind_eq_ok.mp h
    obtain ⟨rfl, hheader⟩ := readMessage_eq_ok.mp hread
    obtain ⟨s, hs, h⟩ := bind_eq_ok.mp h
    obtain ⟨t, ht, -⟩ := memberString_eq_ok.mp hs
    exact ⟨⟨t, ht⟩, roomId, hash, type, hheader, h⟩
  · rintro ⟨⟨t, ht⟩, roomId, hash, type, hheader, h⟩
    exact bind_eq_ok.mpr ⟨⟨roomId, j, hash, type⟩, readMessage_eq_ok.mpr ⟨rfl, hheader⟩,
      bind_eq_ok.mpr ⟨_, memberString_eq_ok.mpr ⟨t, ht, rfl⟩, h⟩⟩

end Yamb.Incoming
