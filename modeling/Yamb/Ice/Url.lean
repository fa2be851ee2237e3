import Yamb.Ice.Servers

/-!
# ICE servers as URLs

* `ServerParts`, `Describes`: a server, and an entry of `iceServers` that carries it;
* `ServerParts.url`, `iceUrl_eq`: what `initIceServers` makes of the entry;
* `getIceServerFromUrl_url`: what a peer makes of the URL;
* **`initIceServers_received`**: every server of an answer arrives at the peers as it was.
-/

set_option autoImplicit false

namespace Yamb.Ice

/-! ## Strings that are cut -/

theorem cut_append {c : Char} {sep a b : String} (hsep : sep.toList = [c]) (h : c ∉ a.toList) :
    cut c (a ++ sep ++ b) = some (a, b) := by
  have hl : (a ++ sep ++ b).toList = a.toList ++ c :: b.toList := by simp [hsep]
  have ha : ∀ x ∈ a.toList, decide (x ≠ c) = true := fun x hx => by
    simpa using fun hxc : x = c => h (hxc ▸ hx)
  unfold cut
  rw [hl, if_pos (by simp), List.takeWhile_append_of_pos ha, List.dropWhile_append_of_pos ha]
  simp

theorem cut_of_notMem {c : Char} {s : String} (h : c ∉ s.toList) : cut c s = none := if_neg h

/-- A number is written with digits. -/
theorem notMem_repr {c : Char} (hc : c.isDigit = false) (n : ℕ) : c ∉ (toString n).toList := by
  intro h
  have hd : c ∈ Nat.toDigits 10 n := by
    rw [← Nat.toList_repr]
    exact h
  rw [Nat.isDigit_of_mem_toDigits (by decide) (by decide) hd] at hc
  cases hc

theorem repr_ne_empty (n : ℕ) : toString n ≠ "" := by
  intro h
  have hd : Nat.toDigits 10 n = [] := by
    rw [← Nat.toList_repr]
    exact congrArg String.toList h
  exact Nat.toDigits_ne_nil hd

/-! ## Servers -/

structure Credentials where
  username : String
  password : String

/-- The credentials can be put in front of a host. -/
structure Credentials.Valid (c : Credentials) : Prop where
  username_ne : c.username ≠ ""
  username_colon : ':' ∉ c.username.toList
  username_at : '@' ∉ c.username.toList
  password_ne : c.password ≠ ""
  password_at : '@' ∉ c.password.toList

/-- A server as the signaller describes it. -/
structure ServerParts where
  type : String
  host : String
  port : String
  credentials : Option Credentials

/-- The URL can be taken apart again. -/
structure ServerParts.Valid (s : ServerParts) : Prop where
  type : ':' ∉ s.type.toList
  host : '@' ∉ s.host.toList
  port : '@' ∉ s.port.toList
  credentials : ∀ c, s.credentials = some c → c.Valid

/-- The URL that `initIceServers` builds. -/
def ServerParts.url (s : ServerParts) : String :=
  s.type ++ ":" ++ (match s.credentials with
    | none => ""
    | some c => c.username ++ ":" ++ c.password ++ "@") ++ s.host ++ ":" ++ s.port

/-- What a peer has to get. -/
def ServerParts.received (s : ServerParts) : PeerServer where
  url := s.type ++ ":" ++ s.host ++ ":" ++ s.port
  user := (s.credentials.map Credentials.username).getD ""
  pass := (s.credentials.map Credentials.password).getD ""

/-- The value carries the credentials. -/
structure Credentials.Carried (c : Credentials) (v : Json String ℤ) : Prop where
  username : v.find "username" = some (.str c.username)
  password : v.find "password" = some (.str c.password)

/-- The entry carries the server, whatever else it has. -/
structure Describes (iceServer : Json String ℤ) (s : ServerParts) : Prop where
  type : iceServer.find "type" = some (.str s.type)
  host : iceServer.find "host" = some (.str s.host)
  port : iceServer.find "port" = some (.str s.port)
  credentials : Option.Rel (fun v c => c.Carried v) (iceServer.find "credentials") s.credentials

/-- What `getTURNCredentials` makes: digits, and a hash in base 64. -/
theorem valid_turn {env : Env} (henv : ∀ k m, env.hmac k m ≠ "" ∧ '@' ∉ (env.hmac k m).toList)
    (n : ℕ) (secret : String) :
    Credentials.Valid ⟨toString n, env.hmac secret (toString n)⟩ where
  username_ne := repr_ne_empty n
  username_colon := notMem_repr rfl n
  username_at := notMem_repr rfl n
  password_ne := (henv _ _).1
  password_at := (henv _ _).2

/-! ## The client -/

theorem stringMember_of_find {key text : String} {v : Json String ℤ}
    (h : v.find key = some (.str text)) : stringMember key v = .ok text := by
  obtain ⟨ms, rfl⟩ := Json.exists_obj_of_find h
  simp only [stringMember, subscript, h]
  rfl

theorem iceUrl_eq {iceServer : Json String ℤ} {s : ServerParts} (h : Describes iceServer s) :
    iceUrl iceServer = .ok s.url := by
  obtain ⟨type, host, port, credentials⟩ := s
  have hcred := h.credentials
  unfold iceUrl
  rw [stringMember_of_find h.type, stringMember_of_find h.host, stringMember_of_find h.port]
  cases hfind : iceServer.find "credentials" with
  | none =>
    rw [hfind] at hcred
    cases hcred
    rfl
  | some v =>
    rw [hfind] at hcred
    cases hcred with
    | some hc =>
      simp only [bind, Except.bind, stringMember_of_find hc.username,
        stringMember_of_find hc.password]
      rfl

/-! ## The peer -/

/-- **The peer takes the URL apart.** The type ends at the first colon; behind it, the credentials end
at the first `@`, and the user at the first colon in them. -/
theorem getIceServerFromUrl_url {s : ServerParts} (hs : s.Valid) :
    getIceServerFromUrl s.url = s.received := by
  obtain ⟨type, host, port, credentials⟩ := s
  cases credentials with
  | none =>
    have hurl : ServerParts.url ⟨type, host, port, none⟩ = type ++ ":" ++ (host ++ ":" ++ port) := by
      simp [ServerParts.url, String.append_assoc]
    have hat : cut '@' (host ++ ":" ++ port) = none := cut_of_notMem (by
      have hhost : '@' ∉ host.toList := hs.host
      have hport : '@' ∉ port.toList := hs.port
      simp [hhost, hport])
    rw [hurl, getIceServerFromUrl, cut_append rfl hs.type]
    simp only [hat, Option.getD_none]
    simp [ServerParts.received, String.append_assoc]
  | some c =>
    obtain ⟨user, pass⟩ := c
    have hc : Credentials.Valid ⟨user, pass⟩ := hs.credentials _ rfl
    have hurl : ServerParts.url ⟨type, host, port, some ⟨user, pass⟩⟩ =
        type ++ ":" ++ (user ++ ":" ++ pass ++ "@" ++ (host ++ ":" ++ port)) := by
      simp [ServerParts.url, String.append_assoc]
    have hat : '@' ∉ (user ++ ":" ++ pass).toList := by
      have huser : '@' ∉ user.toList := hc.username_at
      have hpass : '@' ∉ pass.toList := hc.password_at
      simp [huser, hpass]
    have hne : user ++ ":" ++ pass ≠ "" := fun h => by
      have hlist := congrArg String.toList h
      simp at hlist
    have hcut : cut '@' (user ++ ":" ++ pass ++ "@" ++ (host ++ ":" ++ port)) =
        some (user ++ ":" ++ pass, host ++ ":" ++ port) := cut_append rfl hat
    have hcut' : cut ':' (user ++ ":" ++ pass) = some (user, pass) :=
      cut_append rfl hc.username_colon
    rw [hurl, getIceServerFromUrl, cut_append rfl hs.type]
    simp only [hcut, Option.getD_some, if_neg hne, hcut']
    simp [ServerParts.received, String.append_assoc]

/-! ## The answer of the signaller -/

/-- **The servers of an answer arrive**: the client accepts it, and of every URL that it hands on the
peer recovers the server and its credentials. -/
theorem initIceServers_received {msg data : Json String ℤ} {items : List (Json String ℤ)}
    {servers : List ServerParts} (htype : msg.find "type" = some (.str "response"))
    (hdata : msg.find "data" = some data) (hitems : data.find "iceServers" = some (.arr items))
    (hdescribes : List.Forall₂ Describes items servers) (hvalid : ∀ s ∈ servers, s.Valid) :
    ∃ urls, initIceServers msg = .ok (some urls) ∧
      urls.map getIceServerFromUrl = servers.map ServerParts.received := by
  have hurls : items.mapM iceUrl = .ok (servers.map ServerParts.url) := by
    clear hitems hvalid
    induction hdescribes with
    | nil => rfl
    | cons h _ ih =>
      rw [List.mapM_cons, iceUrl_eq h, ih]
      rfl
  refine ⟨servers.map ServerParts.url, ?_, ?_⟩
  · simp only [initIceServers, htype, hdata, hitems, getString, elements, bind, Except.bind, hurls]
    rfl
  · rw [List.map_map]
    exact List.map_congr_left fun s hs => getIceServerFromUrl_url (hvalid s hs)

/-- A relay with a host that has colons, and a server without credentials. -/
theorem initIceServers_received_relay : ∃ urls,
    initIceServers (.obj [("type", .str "response"), ("data", .obj [("iceServers", .arr [
      .obj [("host", .str "[::1]"), ("port", .str "3478"), ("type", .str "turn"),
        ("credentials", .obj [("username", .str "1700000000"), ("password", .str "a:b=")])],
      .obj [("host", .str "example"), ("port", .str "80"), ("type", .str "stun")]])])]) =
        .ok (some urls) ∧
      urls.map getIceServerFromUrl =
        [⟨"turn:[::1]:3478", "1700000000", "a:b="⟩, ⟨"stun:example:80", "", ""⟩] := by
  have hdescribes : List.Forall₂ Describes
      [.obj [("host", .str "[::1]"), ("port", .str "3478"), ("type", .str "turn"),
        ("credentials", .obj [("username", .str "1700000000"), ("password", .str "a:b=")])],
        .obj [("host", .str "example"), ("port", .str "80"), ("type", .str "stun")]]
      [⟨"turn", "[::1]", "3478", some ⟨"1700000000", "a:b="⟩⟩, ⟨"stun", "example", "80", none⟩] :=
    .cons ⟨rfl, rfl, rfl, .some ⟨rfl, rfl⟩⟩ (.cons ⟨rfl, rfl, rfl, .none⟩ .nil)
  refine initIceServers_received rfl rfl rfl hdescribes fun s hs => ?_
  rcases List.mem_pair.mp hs with rfl | rfl
  · refine ⟨by decide, by decide, by decide, fun c hc => ?_⟩
    obtain rfl := Option.some.inj hc
    exact ⟨by decide, by decide, by decide, by decide, by decide⟩
  · exact ⟨by decide, by decide, by decide, fun c hc => by cases hc⟩

end Yamb.Ice
