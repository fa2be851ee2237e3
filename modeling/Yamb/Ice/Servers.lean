import Yamb.Lib.Json.Basic
import Mathlib.Tactic

/-!
# The ICE servers on their way to the peers

* `IceServers.add`, `IceServers.get`: the collection of the signaller's data base;
* `makeIceArray`: what the answer to an announcement carries;
* `initIceServers`: what a client makes of the answer;
* `getIceServerFromUrl`: what a peer makes of one of its servers.
-/

set_option autoImplicit false

namespace Yamb.Ice

/-! ## The collection -/

/-- What `IceServers.add` takes. -/
structure IceServer where
  type : String
  owner : String
  secret : String
  auth : Bool
  host : String
  port : String
  deriving DecidableEq

/-- `url` of a document of `iceServers`, the key of the collection. -/
def IceServer.url (s : IceServer) : String := s.type ++ ":" ++ s.host ++ ":" ++ s.port

/-- `IceServers.add`: an upsert with `$setOnInsert`, which changes no document that is there. -/
def IceServers.add (iceServers : List IceServer) (s : IceServer) : List IceServer :=
  if iceServers.any fun t => t.url = s.url then iceServers else iceServers ++ [s]

/-- The collection after the given calls. -/
def stored (adds : List IceServer) : List IceServer := adds.foldl IceServers.add []

/-! ## Values of the signaller -/

/-- The values of JavaScript that occur here. -/
inductive JsValue where
  | undefined
  | bool (b : Bool)
  | num (n : ℤ)
  | str (s : String)
  | arr (items : List JsValue)
  | obj (properties : List (String × JsValue))

namespace JsValue

/-- Reads a property. A string has none of the properties that are read here. -/
def get (key : String) : JsValue → JsValue
  | .obj ps => ((ps.find? fun p => p.1 = key).map Prod.snd).getD .undefined
  | _ => .undefined

def truthy : JsValue → Bool
  | .undefined => false
  | .bool b => b
  | .num n => n ≠ 0
  | .str s => s ≠ ""
  | .arr _ => true
  | .obj _ => true

mutual

/-- `JSON.stringify`, up to the text: `undefined` is left out of an object, and `null` in an
array. -/
def toJson : JsValue → Option (Json String ℤ)
  | .undefined => none
  | .bool b => some (.bool b)
  | .num n => some (.num n)
  | .str s => some (.str s)
  | .arr items => some (.arr (itemsToJson items))
  | .obj properties => some (.obj (membersToJson properties))

def itemsToJson : List JsValue → List (Json String ℤ)
  | [] => []
  | v :: vs => v.toJson.getD .null :: itemsToJson vs

def membersToJson : List (String × JsValue) → List (String × Json String ℤ)
  | [] => []
  | (k, v) :: ps =>
    match v.toJson with
    | none => membersToJson ps
    | some j => (k, j) :: membersToJson ps

end

end JsValue

/-- A document of the collection as an object. -/
def IceServer.document (s : IceServer) : JsValue :=
  .obj [("url", .str s.url), ("owner", .str s.owner), ("secret", .str s.secret),
    ("auth", .bool s.auth), ("host", .str s.host), ("port", .str s.port), ("type", .str s.type)]

/-- `IceServers.get` maps every document to a string. -/
def IceServers.get (iceServers : List IceServer) : List JsValue :=
  iceServers.map fun s =>
    .str (s.type ++ ":" ++ s.owner ++ ":" ++ s.secret ++ "@" ++ s.host ++ ":" ++ s.port)

/-! ## The announcement -/

/-- What the signaller takes from outside: the time in milliseconds, and the keyed hash in base 64
(key first). -/
structure Env where
  time : ℕ
  hmac : String → String → String

/-- `getTURNCredentials`. -/
def getTURNCredentials (env : Env) (name : ℕ) (secret : String) : JsValue :=
  let unixTimeStamp := env.time / 1000 + 24 * 3600
  let username := toString (unixTimeStamp + name)
  .obj [("username", .str username), ("password", .str (env.hmac secret username))]

/-- The body of the loop of `makeIceArray`. -/
def iceEntry (env : Env) (iceServer : JsValue) : JsValue :=
  let entry := [("host", iceServer.get "host"), ("port", iceServer.get "port"),
    ("type", iceServer.get "type"), ("owner", iceServer.get "owner")]
  if (iceServer.get "auth").truthy then
    let secret := match iceServer.get "secret" with
      | .str s => if s ≠ "" then s else "mysecret"
      | _ => "mysecret"
    .obj (entry ++ [("credentials", getTURNCredentials env env.time secret)])
  else .obj entry

/-- `makeIceArray`, for what `IceServers.get` gives. -/
def makeIceArray (env : Env) (iceServers : List JsValue) : JsValue :=
  .arr (iceServers.map (iceEntry env))

/-- The peer of a client that has announced itself. -/
structure Peer where
  user : String
  name : String
  type : String
  token : String
  id : String
  rtmpUrls : List String
  host : String

/-- `toPeer`: what the client has announced, what `authorizeValidPeer` adds, and `connects`. -/
def Peer.toPeer (p : Peer) : List (String × JsValue) :=
  [("user", .str p.user), ("name", .str p.name), ("type", .str p.type), ("token", .str p.token),
    ("id", .str p.id), ("online", .bool true), ("rtmpUrls", .arr (p.rtmpUrls.map .str)),
    ("host", .str p.host), ("connects", .arr [])]

/-- `respond` with the status 200. -/
def respond (message : String) (data : JsValue) : JsValue :=
  let data' := if (data.get "data").truthy then data.get "data" else data
  .obj [("type", .str "response"), ("status", .num 200), ("message", .str message), ("data", data')]

/-- The answer to an announcement, as the client receives it. -/
def answer (env : Env) (peer : Peer) (iceServers : List JsValue) : Json String ℤ :=
  let d := .obj (peer.toPeer ++ [("iceServers", makeIceArray env iceServers)])
  (respond ("Welcome " ++ peer.name) d).toJson.getD .null

/-! ## The client -/

/-- The errors of `initIceServers`: a failed assertion, or an exception of the JSON library. -/
inductive Fault
  | assertion (text : String)
  | typeError
  deriving DecidableEq

/-- `get<std::string>()`. -/
def getString : Json String ℤ → Except Fault String
  | .str s => .ok s
  | _ => .error .typeError

/-- `operator[]` of a value that is not `const`: a member that is missing is added as `null`. -/
def subscript (key : String) : Json String ℤ → Except Fault (Json String ℤ)
  | .obj ms => .ok (((Json.obj ms).find key).getD .null)
  | .null => .ok .null
  | _ => .error .typeError

/-- `iceServer[key].get<std::string>()`. -/
def stringMember (key : String) (iceServer : Json String ℤ) : Except Fault String := do
  let v ← subscript key iceServer
  getString v

/-- The body of the loop of `initIceServers`. -/
def iceUrl (iceServer : Json String ℤ) : Except Fault String := do
  let type ← stringMember "type" iceServer
  let host ← stringMember "host" iceServer
  let port ← stringMember "port" iceServer
  let credentials ← match iceServer.find "credentials" with
    | none => pure ""
    | some credentials => do
      let username ← stringMember "username" credentials
      let password ← stringMember "password" credentials
      pure (username ++ ":" ++ password ++ "@")
  pure (type ++ ":" ++ credentials ++ host ++ ":" ++ port)

/-- What a loop over a JSON value runs through. -/
def elements : Json String ℤ → List (Json String ℤ)
  | .null => []
  | .arr items => items
  | .obj ms => ms.map Prod.snd
  | j => [j]

/-- `SignalingConn::initIceServers`: the servers that are emitted, if any are. -/
def initIceServers (msg : Json String ℤ) : Except Fault (Option (List String)) :=
  match msg.find "type" with
  | none => pure none
  | some type => do
    let t ← getString type
    if t = "response" then
      match msg.find "data" with
      | none => throw (.assertion "data should be in JSON from signaller")
      | some data =>
        match data.find "iceServers" with
        | none => throw (.assertion "iceServers should be in JSON from signaller")
        | some iceServers => do
          let ice_servers ← (elements iceServers).mapM iceUrl
          pure (some ice_servers)
    else pure none

/-! ## The peer -/

/-- A string before and after the first `c`, if there is one. -/
def cut (c : Char) (s : String) : Option (String × String) :=
  if c ∈ s.toList then
    some (String.ofList (s.toList.takeWhile (· ≠ c)),
      String.ofList ((s.toList.dropWhile (· ≠ c)).drop 1))
  else none

/-- `outUrl`, `outUser` and `outPass` of `getIceServerFromUrl`. -/
structure PeerServer where
  url : String
  user : String
  pass : String
  deriving DecidableEq

/-- `getIceServerFromUrl`. -/
def getIceServerFromUrl (url : String) : PeerServer :=
  match cut ':' url with
  | none => ⟨url, "", ""⟩
  | some (protocol, uri) =>
    let (credentials, uri) := (cut '@' uri).getD ("", uri)
    let outUrl := protocol ++ ":" ++ uri
    if credentials = "" then ⟨outUrl, "", ""⟩
    else
      match cut ':' credentials with
      | none => ⟨outUrl, credentials, ""⟩
      | some (user, pass) => ⟨outUrl, user, pass⟩

end Yamb.Ice
