import Mathlib.Logic.Function.Basic
import Yamb.Lib.Collection
import Yamb.Lib.Lts
import Yamb.Node.Types

/-!
# The signaller's room

The join, leave and disconnect handlers of `symple.js` for one room, as tasks over the collection
`clients<room>`. A task runs from one `await` to the next without a break; between them anything
can happen.

* `Doc`, `DbStep`: the documents, and what the awaited operations do to them;
* `Server`: `Rooms`, `Critical`, `Del`, the sockets and the tasks under way;
* `Server.broadcastInRoom`, `Server.free`, `Server.onDisconnect`, `Return.next`: the code between the
  awaits;
* `Step`, `Event`: what happens next.
-/

set_option autoImplicit false

namespace Yamb.Symple

open Collection

/-- `socket.id`. -/
abbrev SocketId : Type := String

/-- `socket.peer.user`. -/
abbrev UserId : Type := String

/-- The object that `broadcastInRoom` fills and inserts. -/
structure Client where
  addr : SocketId
  connects : List UserId
  nconnects : ℕ
  sockId : UserId
deriving DecidableEq

/-- A document of `clients<room>`, with its `_id`. -/
structure Doc where
  id : ℕ
  addr : SocketId
  connects : List UserId
  nconnects : ℕ
  sockId : UserId
deriving DecidableEq

/-- An element of `tmpaggrs`. -/
structure Aggr extends Doc where
  newnconnects : List UserId
deriving DecidableEq

namespace Doc

/-- The filter of `pickNodeToConnect` for a document or client with the given `sock_id`. -/
def Eligible (clientWantedConnect : UserId) (d : Doc) : Prop :=
  d.nconnects < 4 ∧ clientWantedConnect ∉ d.connects ∧ d.sockId ≠ clientWantedConnect

instance (clientWantedConnect : UserId) : DecidablePred (Eligible clientWantedConnect) :=
  fun d => inferInstanceAs
    (Decidable (d.nconnects < 4 ∧ clientWantedConnect ∉ d.connects ∧ d.sockId ≠ clientWantedConnect))

/-- `$inc` of `nconnects` by the number of ids that `$push` adds. -/
def push (ids : List UserId) (d : Doc) : Doc :=
  { d with nconnects := d.nconnects + ids.length, connects := d.connects ++ ids }

/-- `$set` of `nconnects` and `$pull` of what is not in `newnconnects`. -/
def pull (newnconnects : List UserId) (d : Doc) : Doc :=
  { d with
    nconnects := newnconnects.length
    connects := d.connects.filter fun u => u ∈ newnconnects }

@[simp] theorem push_id (ids : List UserId) (d : Doc) : (d.push ids).id = d.id := rfl
@[simp] theorem push_addr (ids : List UserId) (d : Doc) : (d.push ids).addr = d.addr := rfl
@[simp] theorem push_sockId (ids : List UserId) (d : Doc) : (d.push ids).sockId = d.sockId := rfl

@[simp] theorem push_connects (ids : List UserId) (d : Doc) :
    (d.push ids).connects = d.connects ++ ids := rfl

@[simp] theorem push_nconnects (ids : List UserId) (d : Doc) :
    (d.push ids).nconnects = d.nconnects + ids.length := rfl

@[simp] theorem pull_id (ids : List UserId) (d : Doc) : (d.pull ids).id = d.id := rfl
@[simp] theorem pull_addr (ids : List UserId) (d : Doc) : (d.pull ids).addr = d.addr := rfl
@[simp] theorem pull_sockId (ids : List UserId) (d : Doc) : (d.pull ids).sockId = d.sockId := rfl

@[simp] theorem pull_nconnects (ids : List UserId) (d : Doc) :
    (d.pull ids).nconnects = ids.length := rfl

theorem mem_pull_connects {ids : List UserId} {d : Doc} {u : UserId} :
    u ∈ (d.pull ids).connects ↔ u ∈ d.connects ∧ u ∈ ids := by
  simp [pull]

end Doc

/-- The document that `insertOne` makes of the client. -/
def Client.doc (client : Client) (id : ℕ) : Doc :=
  ⟨id, client.addr, client.connects, client.nconnects, client.sockId⟩

/-- `client.connects.push(cl.sock_id); ++client.nconnects`. -/
def Client.add (client : Client) (cl : Doc) : Client :=
  { client with
    connects := client.connects ++ [cl.sockId]
    nconnects := client.nconnects + 1 }

/-- The pipeline of `free`: the documents that list the user, each with its `connects` without it. -/
def aggregate (docs : List Doc) (user : UserId) : List Aggr :=
  (docs.filter fun d => user ∈ d.connects).map fun d =>
    ⟨d, d.connects.filter fun connect => connect ≠ user⟩

/-- The operation that a task inside its critical section awaits, with the locals it keeps. The first
three are those of `broadcastInRoom`, the others those of `free`. -/
inductive Call
  | picking (client : Client) (iterations : ℕ) (sendTo : List SocketId)
  | owning (client : Client) (sendTo : List SocketId)
  | inserting (client : Client) (sendTo : List SocketId)
  | deleting (s : SocketId)
  | aggregating (s : SocketId) (user : UserId)
  | updating (s : SocketId) (tmpaggrs : List Aggr) (t : Aggr) (rest : List Aggr)
  | repicking (s : SocketId) (t : Aggr) (rest : List Aggr)
  | linking (s : SocketId) (t : Aggr) (cl : Doc) (rest : List Aggr)
deriving DecidableEq

/-- The task when the operation is done, with the answer. -/
inductive Return
  | picked (client : Client) (iterations : ℕ) (sendTo : List SocketId) (cl : Option Doc)
  | owned (client : Client) (sendTo : List SocketId) (upd : Option Doc)
  | inserted (client : Client) (sendTo : List SocketId)
  | deleted (s : SocketId) (n : ℕ)
  | aggregated (s : SocketId) (tmpaggrs : List Aggr)
  | updated (s : SocketId) (tmpaggrs : List Aggr) (rest : List Aggr)
  | repicked (s : SocketId) (t : Aggr) (rest : List Aggr) (cl : Option Doc)
  | linked (s : SocketId) (t : Aggr) (cl : Doc) (rest : List Aggr)
deriving DecidableEq

/-- The awaited operations; each is one atomic step on the collection. -/
inductive DbStep (docs : List Doc) : Call → List Doc → Return → Prop
  | pick {docs' : List Doc} {cl : Option Doc} (client : Client) (iterations : ℕ)
      (sendTo : List SocketId)
      (h : UpdateOne (Doc.Eligible client.sockId) (Doc.push [client.sockId]) docs cl docs') :
      DbStep docs (.picking client iterations sendTo) docs' (.picked client iterations sendTo cl)
  | own {docs' : List Doc} {upd : Option Doc} (client : Client) (sendTo : List SocketId)
      (h : UpdateOne (fun d => d.sockId = client.sockId) (Doc.push client.connects) docs upd docs') :
      DbStep docs (.owning client sendTo) docs' (.owned client sendTo upd)
  | insert (client : Client) (sendTo : List SocketId) (id : ℕ) (h : ∀ d ∈ docs, d.id ≠ id) :
      DbStep docs (.inserting client sendTo) (docs ++ [client.doc id]) (.inserted client sendTo)
  | delete {docs' : List Doc} {n : ℕ} (s : SocketId)
      (h : DeleteOne (fun d => d.addr = s) docs n docs') :
      DbStep docs (.deleting s) docs' (.deleted s n)
  | aggregate (s : SocketId) (user : UserId) :
      DbStep docs (.aggregating s user) docs (.aggregated s (aggregate docs user))
  | update {docs' : List Doc} {d : Option Doc} (s : SocketId) (tmpaggrs : List Aggr) (t : Aggr)
      (rest : List Aggr)
      (h : UpdateOne (fun d => d.id = t.id) (Doc.pull t.newnconnects) docs d docs') :
      DbStep docs (.updating s tmpaggrs t rest) docs' (.updated s tmpaggrs rest)
  | repick {docs' : List Doc} {cl : Option Doc} (s : SocketId) (t : Aggr) (rest : List Aggr)
      (h : UpdateOne (Doc.Eligible t.sockId) (Doc.push [t.sockId]) docs cl docs') :
      DbStep docs (.repicking s t rest) docs' (.repicked s t rest cl)
  | link {docs' : List Doc} {d : Option Doc} (s : SocketId) (t : Aggr) (cl : Doc)
      (rest : List Aggr)
      -- the key is the address here, not the `sock_id`
      (h : UpdateOne (fun d => d.sockId = t.addr) (Doc.push [cl.sockId]) docs d docs') :
      DbStep docs (.linking s t cl rest) docs' (.linked s t cl rest)

/-! ### The code between two awaits -/

/-- How a task goes on: to its next call, or out of its critical section. -/
inductive Next
  | call (c : Call)
  | joined (client : Client) (sendTo : List SocketId)
  | missed (s : SocketId)
  | freed (s : SocketId)
deriving DecidableEq

/-- The second loop of `free`, up to its next call. -/
def repair (connected : SocketId → Bool) (s : SocketId) : List Aggr → Next
  | [] => .freed s
  | t :: rest => if connected t.addr then .call (.repicking s t rest) else repair connected s rest

/-- The first loop of `free`, up to its next call. -/
def unlink (connected : SocketId → Bool) (s : SocketId) (tmpaggrs : List Aggr) : List Aggr → Next
  | [] => repair connected s tmpaggrs
  | t :: rest => .call (.updating s tmpaggrs t rest)

def Return.next (connected : SocketId → Bool) (user : SocketId → UserId) : Return → Next
  | .picked client _ sendTo none => .call (.owning client sendTo)
  | .picked client iterations sendTo (some cl) =>
    if 1 < iterations then
      .call (.picking (client.add cl) (iterations - 1) (sendTo ++ [cl.addr]))
    else .call (.owning (client.add cl) (sendTo ++ [cl.addr]))
  | .owned client sendTo none => .call (.inserting client sendTo)
  | .owned client sendTo (some _) => .joined client sendTo
  | .inserted client sendTo => .joined client sendTo
  | .deleted s n => if n ≠ 1 then .missed s else .call (.aggregating s (user s))
  | .aggregated s tmpaggrs => unlink connected s tmpaggrs tmpaggrs
  | .updated s tmpaggrs rest => unlink connected s tmpaggrs rest
  | .repicked s _ rest none => repair connected s rest
  | .repicked s t rest (some cl) => .call (.linking s t cl rest)
  | .linked s _ _ rest => repair connected s rest

/-- Where a task is inside its critical section. -/
inductive Phase
  | call (c : Call)
  | ret (r : Return)
deriving DecidableEq

/-- A handler that has not come to its end: a `join` that awaits `addIdx`, the callback of
`socket.join`, the timer that leads back to `broadcastInRoom`, the one that leads back to `free`, and
a critical section. -/
inductive Task
  | join (s : SocketId)
  | joined (s : SocketId)
  | retry (s : SocketId)
  | wait (s : SocketId)
  | inside (p : Phase)
deriving DecidableEq

/-- `rooms`, `critical`, `del` and `rooms2` are the entries of `Rooms`, `Critical`, `Del` and
`socket.rooms2` for the room; `sent` lists the presences posted, with their channels. -/
structure Server where
  rooms : Bool
  critical : Option Bool
  del : SocketId → Bool
  connected : SocketId → Bool
  user : SocketId → Option UserId
  rooms2 : SocketId → Bool
  docs : List Doc
  sent : List (SocketId × SocketId)
  tasks : List Task

namespace Server

/-- A server that nobody has connected to. -/
def start : Server where
  rooms := false
  critical := none
  del := fun _ => false
  connected := fun _ => false
  user := fun _ => none
  rooms2 := fun _ => false
  docs := []
  sent := []
  tasks := []

/-- `socket.peer.user`. -/
def userOf (sv : Server) (s : SocketId) : UserId := (sv.user s).getD ""

def push (sv : Server) (t : Task) : Server := { sv with tasks := sv.tasks ++ [t] }

def call (sv : Server) (c : Call) : Server := sv.push (.inside (.call c))

def broadcastInRoom (room : RoomId) (sv : Server) (s : SocketId) : Server :=
  if !sv.connected s then sv
  else if room = "" then sv
  else if sv.del s then sv
  else if sv.critical = some true then sv.push (.retry s)
  else { sv with critical := some true }.call (.picking ⟨s, [], 0, sv.userOf s⟩ 2 [])

/-- `Del` is set first; where the lock is taken it is unset again at once. -/
def free (sv : Server) (s : SocketId) : Server :=
  if sv.del s then sv
  else if sv.critical = some true then sv.push (.wait s)
  else { sv with
    critical := some true
    del := Function.update sv.del s true }.call (.deleting s)

/-- The `join` handler after `addIdx`. -/
def enterRoom (sv : Server) (s : SocketId) : Server :=
  if sv.rooms2 s then { sv with critical := some (sv.critical.getD false) }
  else { sv with
    critical := some (sv.critical.getD false)
    rooms2 := Function.update sv.rooms2 s true }.push (.joined s)

/-- The callback of `socket.join`. -/
def joined (room : RoomId) (sv : Server) (s : SocketId) (err : Bool) : Server :=
  if sv.del s then sv
  else if err then sv
  else sv.broadcastInRoom room s

/-- The socket is no longer in `io.sockets.connected` when the handler runs. -/
def onDisconnect (sv : Server) (s : SocketId) : Server :=
  if sv.rooms2 s then { sv with connected := Function.update sv.connected s false }.free s
  else { sv with connected := Function.update sv.connected s false }

/-- The presences that a returning task posts before it goes on. -/
def presences (sv : Server) : Return → List (SocketId × SocketId)
  | .linked _ t cl _ => if sv.connected t.addr then [(t.addr, cl.addr)] else []
  | _ => []

/-- The presences at the end of `broadcastInRoom`. -/
def toPicked (sv : Server) (s : SocketId) (sendTo : List SocketId) : List (SocketId × SocketId) :=
  if !sv.connected s || sv.del s then []
  else (sendTo.filter fun toId => sv.connected toId).map fun toId => (s, toId)

def goOn (sv : Server) : Next → Server
  | .call c => sv.call c
  | .joined client sendTo => { sv with
      critical := some false
      sent := sv.sent ++ sv.toPicked client.addr sendTo }
  | .missed s => { sv with
      critical := some false
      del := Function.update sv.del s false }.push (.wait s)
  | .freed s => { sv with
      critical := some false
      del := Function.update sv.del s false }

def resume (sv : Server) (r : Return) : Server :=
  { sv with sent := sv.sent ++ sv.presences r }.goOn (r.next sv.connected sv.userOf)

end Server

/-! ### What happens -/

/-- `announce` is one that was let in, the only one of its socket; `db` and `reject` settle an awaited
operation, `resume` runs the code after it. -/
inductive Event
  | announce (s : SocketId) (user : UserId)
  | join (s : SocketId)
  | addIdx (s : SocketId)
  | joined (s : SocketId) (err : Bool)
  | leave (s : SocketId)
  | disconnect (s : SocketId)
  | retry (s : SocketId)
  | wait (s : SocketId)
  | db (r : Return)
  | resume (r : Return)
  | reject (c : Call)
deriving DecidableEq

inductive Step (room : RoomId) (sv : Server) : Event → Server → Prop
  | announce (s : SocketId) (user : UserId) (hs : sv.user s = none) (hu : user ≠ "") :
      Step room sv (.announce s user) { sv with
        connected := Function.update sv.connected s true
        user := Function.update sv.user s (some user) }
  | join (s : SocketId) (hs : sv.connected s = true) :
      Step room sv (.join s) (if sv.rooms then sv.enterRoom s else sv.push (.join s))
  | addIdx (l₁ : List Task) (s : SocketId) (l₂ : List Task) (h : sv.tasks = l₁ ++ .join s :: l₂) :
      Step room sv (.addIdx s) ({ sv with tasks := l₁ ++ l₂, rooms := true }.enterRoom s)
  | joined (l₁ : List Task) (s : SocketId) (err : Bool) (l₂ : List Task)
      (h : sv.tasks = l₁ ++ .joined s :: l₂) :
      Step room sv (.joined s err) ({ sv with tasks := l₁ ++ l₂ }.joined room s err)
  | leave (s : SocketId) (hs : sv.connected s = true) :
      Step room sv (.leave s) { sv with rooms2 := Function.update sv.rooms2 s false }
  | disconnect (s : SocketId) (hs : sv.connected s = true) :
      Step room sv (.disconnect s) (sv.onDisconnect s)
  | retry (l₁ : List Task) (s : SocketId) (l₂ : List Task) (h : sv.tasks = l₁ ++ .retry s :: l₂) :
      Step room sv (.retry s) ({ sv with tasks := l₁ ++ l₂ }.broadcastInRoom room s)
  | wait (l₁ : List Task) (s : SocketId) (l₂ : List Task) (h : sv.tasks = l₁ ++ .wait s :: l₂) :
      Step room sv (.wait s) ({ sv with tasks := l₁ ++ l₂ }.free s)
  | db (l₁ : List Task) (c : Call) (l₂ : List Task) (docs' : List Doc) (r : Return)
      (h : sv.tasks = l₁ ++ .inside (.call c) :: l₂) (hdb : DbStep sv.docs c docs' r) :
      Step room sv (.db r) { sv with docs := docs', tasks := l₁ ++ .inside (.ret r) :: l₂ }
  | resume (l₁ : List Task) (r : Return) (l₂ : List Task)
      (h : sv.tasks = l₁ ++ .inside (.ret r) :: l₂) :
      Step room sv (.resume r) ({ sv with tasks := l₁ ++ l₂ }.resume r)
  | reject (l₁ : List Task) (c : Call) (l₂ : List Task)
      (h : sv.tasks = l₁ ++ .inside (.call c) :: l₂) :
      Step room sv (.reject c) { sv with tasks := l₁ ++ l₂ }

end Yamb.Symple
