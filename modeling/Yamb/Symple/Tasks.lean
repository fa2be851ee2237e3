import Mathlib.Data.List.Perm.Subperm
import Yamb.Symple.Lock

/-!
# The tasks, step by step

* `Moved`: the task that a step ends and the one it leaves behind, with what the code found when it
  ran;
* `Step.moved`: the other tasks stay as they are;
* `Server.chains`, `Server.frees`: the sockets with a broadcast or with a clean-up under way.
-/

set_option autoImplicit false

namespace Yamb.Symple

open Server

/-- `socket.rooms2` after an event. -/
def Event.rooms2 (rooms : Bool) (rooms2 : SocketId → Bool) : Event → SocketId → Bool
  | .join s => if rooms then Function.update rooms2 s true else rooms2
  | .addIdx s => Function.update rooms2 s true
  | .leave s => Function.update rooms2 s false
  | _ => rooms2

/-- The events that run `broadcastInRoom` of a socket, with the task they take. -/
inductive Broadcasts (s : SocketId) : Event → Task → Prop
  | joined : Broadcasts s (.joined s false) (.joined s)
  | retry : Broadcasts s (.retry s) (.retry s)

/-- The events that run `free` for a socket, with the task they take. -/
inductive Frees (sv : Server) (s : SocketId) : Event → List Task → Prop
  | disconnect (hs : sv.connected s = true) (hr : sv.rooms2 s = true) :
      Frees sv s (.disconnect s) []
  | wait : Frees sv s (.wait s) [.wait s]

/-- A step takes the tasks of the first list and leaves those of the second. -/
inductive Moved (room : RoomId) (sv : Server) : Event → List Task → List Task → Prop
  | announce (s : SocketId) (u : UserId) : Moved room sv (.announce s u) [] []
  | leave (s : SocketId) : Moved room sv (.leave s) [] []
  | index (s : SocketId) (hs : sv.connected s = true) (hi : sv.rooms = false) :
      Moved room sv (.join s) [] [.join s]
  | join (s : SocketId) (hs : sv.connected s = true) (hi : sv.rooms = true)
      (hr : sv.rooms2 s = false) : Moved room sv (.join s) [] [.joined s]
  | rejoin (s : SocketId) (hr : sv.rooms2 s = true) : Moved room sv (.join s) [] []
  | indexed (s : SocketId) (hr : sv.rooms2 s = false) :
      Moved room sv (.addIdx s) [.join s] [.joined s]
  | reindexed (s : SocketId) (hr : sv.rooms2 s = true) : Moved room sv (.addIdx s) [.join s] []
  | refused (s : SocketId) (err : Bool) (h : err = true ∨ sv.del s = true) :
      Moved room sv (.joined s err) [.joined s] []
  | dropped {s : SocketId} {e : Event} {t : Task} (hb : Broadcasts s e t)
      (h : sv.connected s = false ∨ room = "" ∨ sv.del s = true) : Moved room sv e [t] []
  | later {s : SocketId} {e : Event} {t : Task} (hb : Broadcasts s e t)
      (hs : sv.connected s = true) (hc : sv.critical = some true) : Moved room sv e [t] [.retry s]
  | enter {s : SocketId} {e : Event} {t : Task} (hb : Broadcasts s e t)
      (hs : sv.connected s = true) (hr : room ≠ "") (hd : sv.del s = false)
      (hc : sv.critical ≠ some true) :
      Moved room sv e [t] [.inside (.call (.picking ⟨s, [], 0, sv.userOf s⟩ 2 []))]
  | stay (s : SocketId) (hs : sv.connected s = true) (hr : sv.rooms2 s = false) :
      Moved room sv (.disconnect s) [] []
  | skip {s : SocketId} {e : Event} {l : List Task} (hf : Frees sv s e l) (hd : sv.del s = true) :
      Moved room sv e l []
  | wait {s : SocketId} {e : Event} {l : List Task} (hf : Frees sv s e l) (hd : sv.del s = false)
      (hc : sv.critical = some true) : Moved room sv e l [.wait s]
  | free {s : SocketId} {e : Event} {l : List Task} (hf : Frees sv s e l) (hd : sv.del s = false)
      (hc : sv.critical ≠ some true) : Moved room sv e l [.inside (.call (.deleting s))]
  | db {c : Call} {r : Return} {docs' : List Doc} (h : DbStep sv.docs c docs' r) :
      Moved room sv (.db r) [.inside (.call c)] [.inside (.ret r)]
  | next {r : Return} {c : Call} (h : r.next sv.connected sv.userOf = .call c) :
      Moved room sv (.resume r) [.inside (.ret r)] [.inside (.call c)]
  | finish {r : Return} {client : Client} {sendTo : List SocketId}
      (h : r.next sv.connected sv.userOf = .joined client sendTo) :
      Moved room sv (.resume r) [.inside (.ret r)] []
  | miss {r : Return} {s : SocketId} (h : r.next sv.connected sv.userOf = .missed s) :
      Moved room sv (.resume r) [.inside (.ret r)] [.wait s]
  | freed {r : Return} {s : SocketId} (h : r.next sv.connected sv.userOf = .freed s) :
      Moved room sv (.resume r) [.inside (.ret r)] []
  | reject (c : Call) : Moved room sv (.reject c) [.inside (.call c)] []

variable {room : RoomId} {sv sv' : Server} {e : Event}

theorem Broadcasts.moved (room : RoomId) (sv : Server) (l : List Task) {s : SocketId} {t : Task}
    (hb : Broadcasts s e t) : ∃ new, Moved room sv e [t] new ∧
      (({ sv with tasks := l } : Server).broadcastInRoom room s).tasks = l ++ new := by
  have h := broadcastInRoom_cases room { sv with tasks := l } s
  generalize ({ sv with tasks := l } : Server).broadcastInRoom room s = sv' at h
  cases h with
  | dropped h => exact ⟨[], .dropped hb h, (List.append_nil l).symm⟩
  | later hs hc => exact ⟨_, .later hb hs hc, rfl⟩
  | enter hs hr hd hc => exact ⟨_, .enter hb hs hr hd hc, rfl⟩

theorem Frees.moved (room : RoomId) (sv₁ : Server) {s : SocketId} {l : List Task}
    (hf : Frees sv s e l) (hd : sv₁.del = sv.del) (hc : sv₁.critical = sv.critical) :
    ∃ new, Moved room sv e l new ∧ (sv₁.free s).tasks = sv₁.tasks ++ new := by
  have h := free_cases sv₁ s
  generalize sv₁.free s = sv' at h
  cases h with
  | dropped h => exact ⟨[], .skip hf (hd ▸ h), (List.append_nil _).symm⟩
  | later h h' => exact ⟨_, .wait hf (hd ▸ h) (hc ▸ h'), rfl⟩
  | enter h h' => exact ⟨_, .free hf (hd ▸ h) (hc ▸ h'), rfl⟩

theorem resume_tasks (room : RoomId) (sv : Server) (r : Return) (l : List Task) :
    ∃ new, Moved room sv (.resume r) [.inside (.ret r)] new ∧
      (({ sv with tasks := l } : Server).resume r).tasks = l ++ new := by
  cases hn : r.next sv.connected sv.userOf with
  | call c => exact ⟨_, .next hn, congrArg Server.tasks (resume_eq hn l)⟩
  | joined client sendTo =>
    exact ⟨[], .finish hn, (congrArg Server.tasks (resume_eq hn l)).trans (List.append_nil l).symm⟩
  | missed s => exact ⟨_, .miss hn, congrArg Server.tasks (resume_eq hn l)⟩
  | freed s =>
    exact ⟨[], .freed hn, (congrArg Server.tasks (resume_eq hn l)).trans (List.append_nil l).symm⟩

/-- **What a step does to the tasks.** -/
theorem Step.moved (h : Step room sv e sv') : ∃ old new rest,
    Moved room sv e old new ∧ sv.tasks.Perm (old ++ rest) ∧ sv'.tasks.Perm (new ++ rest) := by
  have hmid {t : Task} {l₁ l₂ : List Task} (h : sv.tasks = l₁ ++ t :: l₂) :
      sv.tasks.Perm ([t] ++ (l₁ ++ l₂)) := h ▸ List.perm_middle
  have hpush {l new : List Task} : (l ++ new).Perm (new ++ l) := List.perm_append_comm
  cases h with
  | announce s u => exact ⟨[], [], sv.tasks, .announce s u, .refl _, .refl _⟩
  | join s hs =>
    split_ifs with hr
    · unfold enterRoom
      split_ifs with hr₂
      · exact ⟨[], [], sv.tasks, .rejoin s hr₂, .refl _, .refl _⟩
      · exact ⟨[], _, sv.tasks, .join s hs hr (by simpa using hr₂), .refl _, hpush⟩
    · exact ⟨[], _, sv.tasks, .index s hs (by simpa using hr), .refl _, hpush⟩
  | addIdx l₁ s l₂ h =>
    unfold enterRoom
    split_ifs with hr
    · exact ⟨_, [], l₁ ++ l₂, .reindexed s hr, hmid h, .refl _⟩
    · exact ⟨_, _, l₁ ++ l₂, .indexed s (by simpa using hr), hmid h, hpush⟩
  | joined l₁ s err l₂ h =>
    unfold Server.joined
    split_ifs with hd he
    · exact ⟨_, [], l₁ ++ l₂, .refused s err (.inr hd), hmid h, .refl _⟩
    · exact ⟨_, [], l₁ ++ l₂, .refused s err (.inl he), hmid h, .refl _⟩
    · rw [Bool.not_eq_true] at he
      obtain ⟨new, hm, ht⟩ := (Broadcasts.joined (s := s)).moved room sv (l₁ ++ l₂)
      exact ⟨_, new, l₁ ++ l₂, he ▸ hm, hmid h, ht ▸ hpush⟩
  | leave s => exact ⟨[], [], sv.tasks, .leave s, .refl _, .refl _⟩
  | disconnect s hs =>
    unfold onDisconnect
    split_ifs with hr
    · obtain ⟨new, hm, ht⟩ := (Frees.disconnect hs hr).moved room
        { sv with connected := Function.update sv.connected s false } rfl rfl
      exact ⟨[], new, sv.tasks, hm, .refl _, ht ▸ hpush⟩
    · exact ⟨[], [], sv.tasks, .stay s hs (by simpa using hr), .refl _, .refl _⟩
  | retry l₁ s l₂ h =>
    obtain ⟨new, hm, ht⟩ := (Broadcasts.retry (s := s)).moved room sv (l₁ ++ l₂)
    exact ⟨_, new, l₁ ++ l₂, hm, hmid h, ht ▸ hpush⟩
  | wait l₁ s l₂ h =>
    have hf : Frees sv s (.wait s) [.wait s] := .wait
    obtain ⟨new, hm, ht⟩ := hf.moved room { sv with tasks := l₁ ++ l₂ } rfl rfl
    exact ⟨_, new, l₁ ++ l₂, hm, hmid h, ht ▸ hpush⟩
  | db l₁ c l₂ docs' r h hdb =>
    exact ⟨_, _, l₁ ++ l₂, .db hdb, hmid h, List.perm_middle⟩
  | resume l₁ r l₂ h =>
    obtain ⟨new, hm, ht⟩ := resume_tasks room sv r (l₁ ++ l₂)
    exact ⟨_, new, l₁ ++ l₂, hm, hmid h, ht ▸ hpush⟩
  | reject l₁ c l₂ h => exact ⟨_, [], l₁ ++ l₂, .reject c, hmid h, .refl _⟩

/-- The same, task by task. -/
theorem Step.moved_mem (h : Step room sv e sv') : ∃ old new : List Task, Moved room sv e old new ∧
    ((∀ t ∈ old, t ∈ sv.tasks) ∧ ∀ t ∈ sv.tasks, t ∈ old ∨ t ∈ sv'.tasks) ∧
    (∀ t ∈ new, t ∈ sv'.tasks) ∧ ∀ t ∈ sv'.tasks, t ∈ new ∨ t ∈ sv.tasks := by
  obtain ⟨old, new, rest, hm, hold, hnew⟩ := h.moved
  have hold (t : Task) : t ∈ sv.tasks ↔ t ∈ old ∨ t ∈ rest := hold.mem_iff.trans List.mem_append
  have hnew (t : Task) : t ∈ sv'.tasks ↔ t ∈ new ∨ t ∈ rest := hnew.mem_iff.trans List.mem_append
  refine ⟨old, new, hm, ⟨fun t ht => (hold t).mpr (.inl ht), fun t ht => ?_⟩,
    fun t ht => (hnew t).mpr (.inl ht), fun t ht => ?_⟩
  · exact ((hold t).mp ht).imp id fun ht => (hnew t).mpr (.inr ht)
  · exact ((hnew t).mp ht).imp id fun ht => (hold t).mpr (.inr ht)

/-! ### Broadcasts and clean-ups under way -/

/-- The client that `broadcastInRoom` is filling. -/
def Phase.client : Phase → Option Client
  | .call (.picking client _ _) | .call (.owning client _) | .call (.inserting client _)
  | .ret (.picked client _ _ _) | .ret (.owned client _ _) | .ret (.inserted client _) => some client
  | _ => none

/-- The socket that `free` cleans up after. -/
def Phase.leaver : Phase → Option SocketId
  | .call (.deleting s) | .call (.aggregating s _) | .call (.updating s _ _ _)
  | .call (.repicking s _ _) | .call (.linking s _ _ _) | .ret (.deleted s _)
  | .ret (.aggregated s _) | .ret (.updated s _ _) | .ret (.repicked s _ _ _)
  | .ret (.linked s _ _ _) => some s
  | _ => none

/-- The socket whose `broadcastInRoom` the task is, or leads to. -/
def Task.chain : Task → Option SocketId
  | .joined s | .retry s => some s
  | .inside p => p.client.map Client.addr
  | _ => none

/-- The socket whose `free` the task is, or leads to. -/
def Task.leaver : Task → Option SocketId
  | .wait s => some s
  | .inside p => p.leaver
  | _ => none

def Server.chains (sv : Server) : List SocketId := sv.tasks.filterMap Task.chain

def Server.frees (sv : Server) : List SocketId := sv.tasks.filterMap Task.leaver

/-- Who the client is; what it has collected aside. -/
def Phase.joiner (p : Phase) : Option (SocketId × UserId) :=
  p.client.map fun client => (client.addr, client.sockId)

theorem Phase.chain_eq (p : Phase) : (Task.inside p).chain = p.joiner.map Prod.fst := by
  rw [Phase.joiner, Option.map_map]
  rfl

/-- The user that has the lock for its first document. -/
def Phase.newcomer : Phase → Option UserId
  | .call (.picking client _ _) | .call (.owning client _) | .call (.inserting client _)
  | .ret (.picked client _ _ _) | .ret (.owned client _ none) => some client.sockId
  | _ => none

theorem Phase.joiner_of_newcomer {p : Phase} {a : UserId} (h : p.newcomer = some a) :
    ∃ s, p.joiner = some (s, a) := by
  match p with
  | .call (.picking ..) | .call (.owning ..) | .call (.inserting ..) | .ret (.picked ..)
  | .ret (.owned _ _ none) =>
    cases h
    exact ⟨_, rfl⟩
  | .ret (.owned _ _ (some _)) | .ret (.inserted ..) | .call (.deleting _)
  | .call (.aggregating ..) | .call (.updating ..) | .call (.repicking ..) | .call (.linking ..)
  | .ret (.deleted ..) | .ret (.aggregated ..) | .ret (.updated ..) | .ret (.repicked ..)
  | .ret (.linked ..) => cases h

/-- How a task goes on from its return, by whose it is. -/
inductive Continues (r : Return) : Next → Prop
  | call {c : Call} (hj : (Phase.call c).joiner = (Phase.ret r).joiner)
      (hl : (Phase.call c).leaver = (Phase.ret r).leaver)
      (hn : (Phase.call c).newcomer = (Phase.ret r).newcomer) (hc : ∀ s, c ≠ .deleting s) :
      Continues r (.call c)
  | joined {client : Client} {sendTo : List SocketId} (hj : (Phase.ret r).client = some client)
      (hl : (Phase.ret r).leaver = none) (hn : (Phase.ret r).newcomer = none) :
      Continues r (.joined client sendTo)
  | missed {s : SocketId} {n : ℕ} (hr : r = .deleted s n) (hn : n ≠ 1) : Continues r (.missed s)
  | freed {s : SocketId} (hj : (Phase.ret r).client = none)
      (hl : (Phase.ret r).leaver = some s) : Continues r (.freed s)

theorem Phase.newcomer_of_client {p : Phase} (h : p.client = none) : p.newcomer = none := by
  by_contra hne
  obtain ⟨a, ha⟩ := Option.ne_none_iff_exists'.mp hne
  obtain ⟨s, hj⟩ := Phase.joiner_of_newcomer ha
  rw [Phase.joiner, h] at hj
  cases hj

theorem repair_continues {connected : SocketId → Bool} {s : SocketId} {r : Return}
    (hj : (Phase.ret r).client = none) (hl : (Phase.ret r).leaver = some s) :
    ∀ l : List Aggr, Continues r (repair connected s l)
  | [] => .freed hj hl
  | t :: l => by
    unfold repair
    split_ifs
    · have hn := Phase.newcomer_of_client hj
      exact .call (by rw [Phase.joiner, Phase.joiner, hj]; rfl) hl.symm hn.symm nofun
    · exact repair_continues hj hl l

theorem unlink_continues {connected : SocketId → Bool} {s : SocketId} {tmpaggrs : List Aggr}
    {r : Return} (hj : (Phase.ret r).client = none) (hl : (Phase.ret r).leaver = some s) :
    ∀ l : List Aggr, Continues r (unlink connected s tmpaggrs l)
  | [] => repair_continues hj hl tmpaggrs
  | t :: l =>
    have hn := Phase.newcomer_of_client hj
    .call (by rw [Phase.joiner, Phase.joiner, hj]; rfl) hl.symm hn.symm nofun

theorem Return.continues (connected : SocketId → Bool) (user : SocketId → UserId) (r : Return) :
    Continues r (r.next connected user) := by
  match r with
  | .picked client iterations sendTo none => exact .call rfl rfl rfl nofun
  | .picked client iterations sendTo (some cl) =>
    simp only [Return.next]
    split_ifs <;> exact .call rfl rfl rfl nofun
  | .owned client sendTo none => exact .call rfl rfl rfl nofun
  | .owned client sendTo (some _) => exact .joined rfl rfl rfl
  | .inserted client sendTo => exact .joined rfl rfl rfl
  | .deleted s n =>
    simp only [Return.next]
    split_ifs with hn
    · exact .missed rfl hn
    · exact .call rfl rfl rfl nofun
  | .aggregated s tmpaggrs => exact unlink_continues rfl rfl tmpaggrs
  | .updated s tmpaggrs rest => exact unlink_continues rfl rfl rest
  | .repicked s t rest none => exact repair_continues rfl rfl rest
  | .repicked s t rest (some cl) => exact .call rfl rfl rfl nofun
  | .linked s t cl rest => exact repair_continues rfl rfl rest

section

variable {connected : SocketId → Bool} {user : SocketId → UserId} {r : Return} {c : Call}

/-- The next call is by the same task. -/
theorem Return.joiner_call (h : r.next connected user = .call c) :
    (Phase.call c).joiner = (Phase.ret r).joiner ∧
      (Phase.call c).leaver = (Phase.ret r).leaver := by
  have hc := r.continues connected user
  rw [h] at hc
  cases hc with
  | call hj hl => exact ⟨hj, hl⟩

theorem Return.newcomer_call (h : r.next connected user = .call c) :
    (Phase.call c).newcomer = (Phase.ret r).newcomer := by
  have hc := r.continues connected user
  rw [h] at hc
  cases hc with
  | call _ _ hn => exact hn

theorem Return.call_ne_deleting (h : r.next connected user = .call c) (s : SocketId) :
    c ≠ .deleting s := by
  have hc := r.continues connected user
  rw [h] at hc
  cases hc with
  | call _ _ _ hc => exact hc s

/-- A newcomer does not give the lock back. -/
theorem Return.newcomer_of_leaves (h : ∀ c, r.next connected user ≠ .call c) :
    (Phase.ret r).newcomer = none := by
  have hc := r.continues connected user
  generalize r.next connected user = n at hc h
  cases hc with
  | call => exact absurd rfl (h _)
  | joined _ _ hn => exact hn
  | missed hr => exact hr ▸ rfl
  | freed hj => exact Phase.newcomer_of_client hj

theorem Return.joiner_freed {s : SocketId} (h : r.next connected user = .freed s) :
    (Phase.ret r).joiner = none := by
  have hc := r.continues connected user
  rw [h] at hc
  cases hc with
  | freed hj => rw [Phase.joiner, hj]; rfl

theorem Return.leaver_freed {s : SocketId} (h : r.next connected user = .freed s) :
    (Phase.ret r).leaver = some s := by
  have hc := r.continues connected user
  rw [h] at hc
  cases hc with
  | freed _ hl => exact hl

end

theorem DbStep.joiner {docs docs' : List Doc} {c : Call} {r : Return} (h : DbStep docs c docs' r) :
    (Phase.ret r).joiner = (Phase.call c).joiner ∧ (Phase.ret r).leaver = (Phase.call c).leaver := by
  cases h <;> exact ⟨rfl, rfl⟩

/-- A step ends a broadcast, carries it on, or starts one when a socket comes into the room. -/
theorem Moved.chain {old new : List Task} (h : Moved room sv e old new) :
    (new.filterMap Task.chain).Sublist (old.filterMap Task.chain) ∨
      ∃ s, sv.rooms2 s = false ∧ e.rooms2 sv.rooms sv.rooms2 s = true ∧ new = [.joined s] ∧
        old.filterMap Task.chain = [] := by
  cases h with
  | join s hs hi hr =>
    exact .inr ⟨s, hr, by rw [Event.rooms2, if_pos hi, Function.update_self], rfl, rfl⟩
  | indexed s hr => exact .inr ⟨s, hr, Function.update_self .., rfl, rfl⟩
  | announce | leave | index | rejoin | reindexed | stay => exact .inl (.refl _)
  | refused | dropped | skip | finish | freed | reject => exact .inl (List.nil_sublist _)
  | later hb => cases hb <;> exact .inl (.refl _)
  | enter hb => cases hb <;> exact .inl (.refl _)
  | wait hf => cases hf <;> exact .inl (.refl _)
  | free hf => cases hf <;> exact .inl (.refl _)
  | db h =>
    left
    simp only [List.filterMap_cons, Phase.chain_eq, h.joiner.1]
    exact .refl _
  | next h =>
    left
    simp only [List.filterMap_cons, Phase.chain_eq, (Return.joiner_call h).1]
    exact .refl _
  | miss => exact .inl (List.nil_sublist _)

/-- A step ends a clean-up, carries it on, or starts one when a socket disconnects. -/
theorem Moved.leaver {old new : List Task} (h : Moved room sv e old new) :
    (new.filterMap Task.leaver).Sublist (old.filterMap Task.leaver) ∨
      ∃ s, e = .disconnect s ∧ sv.rooms2 s = true ∧ new.filterMap Task.leaver = [s] ∧ old = [] := by
  cases h with
  | announce | leave | index | rejoin | join | indexed | reindexed | stay => exact .inl (.refl _)
  | refused | dropped | skip | finish | freed | reject => exact .inl (List.nil_sublist _)
  | later hb => cases hb <;> exact .inl (.refl _)
  | enter hb => cases hb <;> exact .inl (.refl _)
  | wait hf =>
    cases hf with
    | disconnect hs hr => exact .inr ⟨_, rfl, hr, rfl, rfl⟩
    | wait => exact .inl (.refl _)
  | free hf =>
    cases hf with
    | disconnect hs hr => exact .inr ⟨_, rfl, hr, rfl, rfl⟩
    | wait => exact .inl (.refl _)
  | db h =>
    left
    simp only [List.filterMap_cons, Task.leaver, h.joiner.2]
    exact .refl _
  | next h =>
    left
    simp only [List.filterMap_cons, Task.leaver, (Return.joiner_call h).2]
    exact .refl _
  | @miss r s h =>
    have hc := r.continues sv.connected sv.userOf
    rw [h] at hc
    cases hc with
    | missed hr =>
      left
      rw [hr]
      exact .refl _

theorem newcomer_of_work {docs docs' : List Doc} {p p' : Phase} {a : UserId}
    (h : sv.Works e docs p docs' p') (hn : p'.newcomer = some a) : p.newcomer = some a := by
  cases h with
  | db h =>
    cases h with
    | @own _ upd client sendTo h =>
      cases upd with
      | none => exact hn
      | some => cases hn
    | pick => exact hn
    | insert | delete | aggregate | update | repick | link => cases hn
  | next h => exact (Return.newcomer_call h).symm.trans hn

theorem perm_filterMap {f : Task → Option SocketId} {old rest l : List Task}
    (h : l.Perm (old ++ rest)) : (l.filterMap f).Perm (old.filterMap f ++ rest.filterMap f) := by
  rw [← List.filterMap_append]
  exact h.filterMap f

theorem Step.rooms2_eq (h : Step room sv e sv') : sv'.rooms2 = e.rooms2 sv.rooms sv.rooms2 := by
  cases h with
  | announce | leave | db | reject => rfl
  | join s hs =>
    unfold Event.rooms2
    split_ifs with hr
    · exact enterRoom_rooms2 sv s
    · rfl
  | addIdx l₁ s l₂ h => exact enterRoom_rooms2 _ s
  | joined l₁ s err l₂ h => exact (joined_sockets room { sv with tasks := l₁ ++ l₂ } s err).rooms2
  | disconnect s hs =>
    unfold onDisconnect
    split_ifs with hr
    · exact (free_sockets _ s).rooms2
    · rfl
  | retry l₁ s l₂ h => exact (broadcastInRoom_sockets room { sv with tasks := l₁ ++ l₂ } s).rooms2
  | wait l₁ s l₂ h => exact (free_sockets { sv with tasks := l₁ ++ l₂ } s).rooms2
  | resume l₁ r l₂ h => exact (resume_sockets { sv with tasks := l₁ ++ l₂ } r).rooms2

/-- A room is left by `leave` only. -/
theorem Step.rooms2_mono (h : Step room sv e sv') {s : SocketId} (he : e ≠ .leave s)
    (hr : sv.rooms2 s = true) : sv'.rooms2 s = true := by
  have hup (s' : SocketId) : Function.update sv.rooms2 s' true s = true := by
    by_cases hs : s = s'
    · rw [hs, Function.update_self]
    · rwa [Function.update_of_ne hs]
  rw [h.rooms2_eq]
  cases e with
  | join s' =>
    unfold Event.rooms2
    split_ifs
    · exact hup s'
    · exact hr
  | addIdx s' => exact hup s'
  | leave s' =>
    have hs : s ≠ s' := fun hs => he (hs ▸ rfl)
    rwa [Event.rooms2, Function.update_of_ne hs]
  | _ => exact hr

/-- A step ends a broadcast, carries it on, or starts the one of a socket that comes into the room. -/
theorem Step.chains (h : Step room sv e sv') : sv'.chains.Subperm sv.chains ∨
    ∃ s, sv.rooms2 s = false ∧ sv'.rooms2 s = true ∧ sv'.chains.Perm (s :: sv.chains) := by
  obtain ⟨old, new, rest, hm, hold, hnew⟩ := h.moved
  have hold := perm_filterMap (f := Task.chain) hold
  have hnew := perm_filterMap (f := Task.chain) hnew
  rcases hm.chain with hs | ⟨s, hr, hr', rfl, hnil⟩
  · exact .inl ((hnew.subperm.trans (hs.append_right _).subperm).trans hold.symm.subperm)
  · rw [hnil, List.nil_append] at hold
    exact .inr ⟨s, hr, h.rooms2_eq ▸ hr', hnew.trans (hold.symm.cons s)⟩

/-- A step ends a clean-up, carries it on, or starts the one of a socket that disconnects. -/
theorem Step.frees (h : Step room sv e sv') : sv'.frees.Subperm sv.frees ∨
    ∃ s, e = .disconnect s ∧ sv.rooms2 s = true ∧ sv'.frees.Perm (s :: sv.frees) := by
  obtain ⟨old, new, rest, hm, hold, hnew⟩ := h.moved
  have hold := perm_filterMap (f := Task.leaver) hold
  have hnew := perm_filterMap (f := Task.leaver) hnew
  rcases hm.leaver with hs | ⟨s, he, hr, hn, rfl⟩
  · exact .inl ((hnew.subperm.trans (hs.append_right _).subperm).trans hold.symm.subperm)
  · rw [List.filterMap_nil, List.nil_append] at hold
    rw [hn] at hnew
    exact .inr ⟨s, he, hr, hnew.trans (hold.symm.cons s)⟩

end Yamb.Symple
