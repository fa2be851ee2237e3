import Yamb.Ice.Url

/-!
# When the ICE servers reach the peers

* `Arrives`, `Delivers`: the peers get the servers that are stored;
* **`delivers_get_iff`**: with what `IceServers.get` gives, only when none is stored;
* **`delivers_documents`**: the other stages agree on the documents of the collection.
-/

set_option autoImplicit false

namespace Yamb.Ice

/-- What a peer makes of a server is what was stored, with credentials where `auth` was set. -/
structure Arrives (s : IceServer) (url : String) : Prop where
  server : (getIceServerFromUrl url).url = s.type ++ ":" ++ s.host ++ ":" ++ s.port
  credentials : ((getIceServerFromUrl url).user ≠ "" ∧ (getIceServerFromUrl url).pass ≠ "") ↔
    s.auth = true

/-- The answer that is made of the given values is accepted, and every server arrives. -/
def Delivers (env : Env) (peer : Peer) (servers : List IceServer) (items : List JsValue) : Prop :=
  ∃ urls, initIceServers (answer env peer items) = .ok (some urls) ∧
    List.Forall₂ Arrives servers urls

theorem itemsToJson_eq (vs : List JsValue) :
    JsValue.itemsToJson vs = vs.map fun v => v.toJson.getD .null := by
  induction vs with
  | nil => rfl
  | cons v vs ih => rw [JsValue.itemsToJson, ih, List.map_cons]

/-- The members of the peer in the answer do not hide the servers. -/
theorem answer_eq (env : Env) (peer : Peer) (items : List JsValue) :
    ∃ ms, answer env peer items = .obj [("type", .str "response"), ("status", .num 200),
        ("message", .str ("Welcome " ++ peer.name)), ("data", .obj ms)] ∧
      (Json.obj ms).find "iceServers" =
        some (.arr (items.map fun v => (iceEntry env v).toJson.getD .null)) := by
  refine ⟨JsValue.membersToJson (peer.toPeer ++ [("iceServers", makeIceArray env items)]),
    ?_, ?_⟩
  · simp [answer, respond, Peer.toPeer, JsValue.get, JsValue.truthy, JsValue.toJson,
      JsValue.membersToJson]
  · simp [Peer.toPeer, JsValue.membersToJson, JsValue.toJson, makeIceArray, itemsToJson_eq,
      Json.find]

/-- The client goes through the entries of the array. -/
theorem initIceServers_answer (env : Env) (peer : Peer) (items : List JsValue) :
    initIceServers (answer env peer items) =
      (items.map fun v => (iceEntry env v).toJson.getD .null).mapM iceUrl >>=
        fun urls => pure (some urls) := by
  obtain ⟨ms, hanswer, hms⟩ := answer_eq env peer items
  have hdata : (answer env peer items).find "data" = some (.obj ms) := by
    simp [hanswer, Json.find]
  have htype : (answer env peer items).find "type" = some (.str "response") := by
    simp [hanswer, Json.find]
  simp only [initIceServers, htype, hdata, hms, getString, elements]
  rfl

theorem delivers_iff {env : Env} {peer : Peer} {servers : List IceServer}
    {items : List JsValue} :
    Delivers env peer servers items ↔ ∃ urls,
      (items.map fun v => (iceEntry env v).toJson.getD .null).mapM iceUrl = .ok urls ∧
        List.Forall₂ Arrives servers urls := by
  unfold Delivers
  rw [initIceServers_answer]
  cases (items.map fun v => (iceEntry env v).toJson.getD .null).mapM iceUrl with
  | error e =>
    constructor
    · rintro ⟨_, h, -⟩
      cases h
    · rintro ⟨_, h, -⟩
      cases h
  | ok urls =>
    constructor
    · rintro ⟨_, h, hall⟩
      cases h
      exact ⟨_, rfl, hall⟩
    · rintro ⟨_, h, hall⟩
      cases h
      exact ⟨_, rfl, hall⟩

/-! ## The strings of the collection -/

/-- An entry made of a string has no members, and the client takes it for an error. -/
theorem iceUrl_string (env : Env) (text : String) :
    iceUrl ((iceEntry env (.str text)).toJson.getD .null) = .error .typeError := by
  rfl

theorem stored_ne_nil {adds : List IceServer} (h : adds ≠ []) : stored adds ≠ [] := by
  have hadd : ∀ (coll : List IceServer) s, IceServers.add coll s ≠ [] := by
    intro coll s
    unfold IceServers.add
    split_ifs with hany
    · rintro rfl
      cases hany
    · simp
  obtain ⟨init, last, rfl⟩ := adds.eq_nil_or_concat'.resolve_left h
  rw [stored, List.foldl_append]
  exact hadd _ _

/-- **The servers reach the peers only when there are none.** -/
theorem delivers_get_iff (env : Env) (peer : Peer) (adds : List IceServer) :
    Delivers env peer (stored adds) (IceServers.get (stored adds)) ↔ adds = [] := by
  rw [delivers_iff]
  constructor
  · rintro ⟨urls, h, -⟩
    by_contra hadds
    obtain ⟨s, ss, hs⟩ := List.exists_cons_of_ne_nil (stored_ne_nil hadds)
    rw [hs, IceServers.get, List.map_cons, List.map_cons, List.mapM_cons, iceUrl_string] at h
    cases h
  · rintro rfl
    exact ⟨[], rfl, .nil⟩

/-! ## The documents of the collection -/

/-- The strings of a server can be put into one and taken out again. -/
structure IceServer.Valid (s : IceServer) : Prop where
  type : ':' ∉ s.type.toList
  host : '@' ∉ s.host.toList
  port : '@' ∉ s.port.toList

/-- The string that the client makes of a document. -/
def IceServer.peerUrl (env : Env) (s : IceServer) : String :=
  let username := toString (env.time / 1000 + 24 * 3600 + env.time)
  let secret := if s.secret ≠ "" then s.secret else "mysecret"
  s.type ++ ":" ++ (if s.auth then username ++ ":" ++ env.hmac secret username ++ "@" else "") ++
    s.host ++ ":" ++ s.port

theorem iceUrl_document (env : Env) (s : IceServer) :
    iceUrl ((iceEntry env s.document).toJson.getD .null) = .ok (s.peerUrl env) := by
  obtain ⟨type, owner, secret, auth, host, port⟩ := s
  cases auth with
  | false =>
    have hentry : (iceEntry env (IceServer.document ⟨type, owner, secret, false, host, port⟩)).toJson =
        some (.obj [("host", .str host), ("port", .str port), ("type", .str type),
          ("owner", .str owner)]) := by
      simp [iceEntry, IceServer.document, JsValue.get, JsValue.truthy, JsValue.toJson,
        JsValue.membersToJson]
    rw [hentry]
    simp [iceUrl, stringMember, subscript, getString, Json.find, IceServer.peerUrl, bind,
      Except.bind, pure, Except.pure]
  | true =>
    obtain ⟨username, hu⟩ : ∃ u, u = toString (env.time / 1000 + 24 * 3600 + env.time) := ⟨_, rfl⟩
    obtain ⟨key, hkey⟩ : ∃ k, k = if secret ≠ "" then secret else "mysecret" := ⟨_, rfl⟩
    have hentry : (iceEntry env (IceServer.document ⟨type, owner, secret, true, host, port⟩)).toJson =
        some (.obj [("host", .str host), ("port", .str port), ("type", .str type),
          ("owner", .str owner), ("credentials", .obj [("username", .str username),
            ("password", .str (env.hmac key username))])]) := by
      simp [iceEntry, IceServer.document, JsValue.get, JsValue.truthy, JsValue.toJson,
        JsValue.membersToJson, getTURNCredentials, hu, hkey]
    rw [hentry]
    simp [iceUrl, stringMember, subscript, getString, Json.find, IceServer.peerUrl, bind,
      Except.bind, pure, Except.pure, hu, hkey]

/-- What the signaller makes of `auth`. -/
def IceServer.credentials (env : Env) (s : IceServer) : Option Credentials :=
  if s.auth then
    let username := toString (env.time / 1000 + 24 * 3600 + env.time)
    some ⟨username, env.hmac (if s.secret ≠ "" then s.secret else "mysecret") username⟩
  else none

theorem IceServer.peerUrl_eq (env : Env) (s : IceServer) :
    s.peerUrl env = ServerParts.url ⟨s.type, s.host, s.port, s.credentials env⟩ := by
  unfold IceServer.peerUrl IceServer.credentials ServerParts.url
  cases s.auth <;> rfl

/-- The peer takes the string apart again. -/
theorem arrives_peerUrl {env : Env} {s : IceServer} (hs : s.Valid)
    (henv : ∀ k m, env.hmac k m ≠ "" ∧ '@' ∉ (env.hmac k m).toList) :
    Arrives s (s.peerUrl env) := by
  have hvalid : ServerParts.Valid ⟨s.type, s.host, s.port, s.credentials env⟩ := by
    refine ⟨hs.type, hs.host, hs.port, fun c hc => ?_⟩
    change s.credentials env = some c at hc
    unfold IceServer.credentials at hc
    cases hauth : s.auth with
    | false =>
      rw [hauth] at hc
      cases hc
    | true =>
      rw [hauth, if_pos rfl] at hc
      obtain rfl := Option.some.inj hc
      exact valid_turn henv _ _
  have hpeer := getIceServerFromUrl_url hvalid
  rw [← s.peerUrl_eq env] at hpeer
  constructor
  · rw [hpeer]
    rfl
  · rw [hpeer]
    unfold ServerParts.received IceServer.credentials
    cases s.auth with
    | false => simp
    | true => simp [(henv _ _).1]

theorem mem_stored {adds : List IceServer} {s : IceServer} (h : s ∈ stored adds) : s ∈ adds := by
  have hfold : ∀ (adds coll : List IceServer), s ∈ adds.foldl IceServers.add coll →
      s ∈ coll ∨ s ∈ adds := by
    intro adds
    induction adds with
    | nil => exact fun coll h => .inl h
    | cons t ts ih =>
      intro coll h
      rcases ih _ h with h | h
      · unfold IceServers.add at h
        split_ifs at h
        · exact .inl h
        · rcases List.mem_append.mp h with h | h
          · exact .inl h
          · exact .inr (List.mem_cons.mpr (.inl (List.mem_singleton.mp h)))
      · exact .inr (List.mem_cons_of_mem _ h)
  exact (hfold adds [] h).resolve_left List.not_mem_nil

/-- **The other stages agree on the documents**: if `get` gave the documents themselves, every
server would arrive. -/
theorem delivers_documents {env : Env} (peer : Peer) {adds : List IceServer}
    (hadds : ∀ s ∈ adds, s.Valid)
    (henv : ∀ k m, env.hmac k m ≠ "" ∧ '@' ∉ (env.hmac k m).toList) :
    Delivers env peer (stored adds) ((stored adds).map IceServer.document) := by
  have hurls : ∀ ss : List IceServer, ((ss.map IceServer.document).map fun v =>
      (iceEntry env v).toJson.getD .null).mapM iceUrl = .ok (ss.map (IceServer.peerUrl env)) := by
    intro ss
    induction ss with
    | nil => rfl
    | cons s ss ih =>
      rw [List.map_cons, List.map_cons, List.mapM_cons, iceUrl_document, ih]
      rfl
  refine delivers_iff.mpr ⟨_, hurls _, ?_⟩
  rw [List.forall₂_map_right_iff, List.forall₂_same]
  exact fun s hs => arrives_peerUrl (hadds s (mem_stored hs)) henv

/-- A server with a valid type, host and secret does not arrive. -/
theorem not_delivers_turn :
    ¬ Delivers ⟨0, fun _ _ => "password"⟩ ⟨"user", "name", "node", "token", "id", [], "10.0.0.1"⟩
      (stored [⟨"turn", "owner", "secret", true, "turn.example", "3478"⟩])
      (IceServers.get (stored [⟨"turn", "owner", "secret", true, "turn.example", "3478"⟩])) := by
  rw [delivers_iff]
  rintro ⟨urls, h, -⟩
  cases h

end Yamb.Ice
