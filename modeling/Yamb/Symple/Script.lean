import Yamb.Symple.Lock

/-!
# Running a script

* `Command`, `Server.exec`: one step, with the choices made;
* `Server.script`, `exists_run`: a list of commands, and the run it stands for;
* `announced`: the users of the sockets, to be read off a run.
-/

set_option autoImplicit false

namespace Yamb.Symple

open Collection

/-- `run i k` lets the task number `i` go on; where it awaits an operation, that takes the match number
`k`, and where it is the callback of `socket.join`, `k` tells whether there was an error. -/
inductive Command
  | announce (s : SocketId) (user : UserId)
  | join (s : SocketId)
  | leave (s : SocketId)
  | disconnect (s : SocketId)
  | run (i k : ℕ)

/-- An `_id` that no document has. -/
def newId (docs : List Doc) : ℕ := docs.foldr (fun d n => max (d.id + 1) n) 0

theorem lt_newId {docs : List Doc} : ∀ d ∈ docs, d.id < newId docs := by
  induction docs with
  | nil => simp
  | cons x docs ih =>
    intro d hd
    rw [newId, List.foldr_cons]
    rcases List.mem_cons.mp hd with rfl | hd
    · exact Nat.lt_of_lt_of_le (Nat.lt_succ_self _) (Nat.le_max_left _ _)
    · exact Nat.lt_of_lt_of_le (ih d hd) (Nat.le_max_right _ _)

def Call.exec (docs : List Doc) (k : ℕ) : Call → Option (List Doc × Return)
  | .picking client iterations sendTo =>
    (updateAt (Doc.Eligible client.sockId) (Doc.push [client.sockId]) k docs).map fun r =>
      (r.2, .picked client iterations sendTo r.1)
  | .owning client sendTo =>
    (updateAt (fun d => d.sockId = client.sockId) (Doc.push client.connects) k docs).map fun r =>
      (r.2, .owned client sendTo r.1)
  | .inserting client sendTo => some (docs ++ [client.doc (newId docs)], .inserted client sendTo)
  | .deleting s => (deleteAt (fun d => d.addr = s) docs).map fun r => (r.2, .deleted s r.1)
  | .aggregating s user => some (docs, .aggregated s (aggregate docs user))
  | .updating s tmpaggrs t rest =>
    (updateAt (fun d => d.id = t.id) (Doc.pull t.newnconnects) k docs).map fun r =>
      (r.2, .updated s tmpaggrs rest)
  | .repicking s t rest =>
    (updateAt (Doc.Eligible t.sockId) (Doc.push [t.sockId]) k docs).map fun r =>
      (r.2, .repicked s t rest r.1)
  | .linking s t cl rest =>
    (updateAt (fun d => d.sockId = t.addr) (Doc.push [cl.sockId]) k docs).map fun r =>
      (r.2, .linked s t cl rest)

theorem dbStep_of_exec {docs docs' : List Doc} {k : ℕ} {c : Call} {r : Return}
    (h : c.exec docs k = some (docs', r)) : DbStep docs c docs' r := by
  cases c with
  | picking client iterations sendTo =>
    obtain ⟨q, hq, heq⟩ := Option.map_eq_some_iff.mp h
    cases heq
    exact .pick client iterations sendTo (updateOne_of_updateAt hq)
  | owning client sendTo =>
    obtain ⟨q, hq, heq⟩ := Option.map_eq_some_iff.mp h
    cases heq
    exact .own client sendTo (updateOne_of_updateAt hq)
  | inserting client sendTo =>
    cases h
    exact .insert client sendTo _ fun d hd => Nat.ne_of_lt (lt_newId d hd)
  | deleting s =>
    obtain ⟨q, hq, heq⟩ := Option.map_eq_some_iff.mp h
    cases heq
    exact .delete s (deleteOne_of_deleteAt hq)
  | aggregating s user =>
    cases h
    exact .aggregate s user
  | updating s tmpaggrs t rest =>
    obtain ⟨q, hq, heq⟩ := Option.map_eq_some_iff.mp h
    cases heq
    exact .update s tmpaggrs t rest (updateOne_of_updateAt hq)
  | repicking s t rest =>
    obtain ⟨q, hq, heq⟩ := Option.map_eq_some_iff.mp h
    cases heq
    exact .repick s t rest (updateOne_of_updateAt hq)
  | linking s t cl rest =>
    obtain ⟨q, hq, heq⟩ := Option.map_eq_some_iff.mp h
    cases heq
    exact .link s t cl rest (updateOne_of_updateAt hq)

namespace Server

/-- The task `t`, between `l₁` and `l₂`, goes on. -/
def go (room : RoomId) (sv : Server) (l₁ : List Task) (k : ℕ) (l₂ : List Task) :
    Task → Option (Event × Server)
  | .join s => some (.addIdx s, { sv with tasks := l₁ ++ l₂, rooms := true }.enterRoom s)
  | .joined s =>
    some (.joined s (k != 0), { sv with tasks := l₁ ++ l₂ }.joined room s (k != 0))
  | .retry s => some (.retry s, { sv with tasks := l₁ ++ l₂ }.broadcastInRoom room s)
  | .wait s => some (.wait s, { sv with tasks := l₁ ++ l₂ }.free s)
  | .inside (.call c) => (c.exec sv.docs k).map fun r =>
      (.db r.2, { sv with docs := r.1, tasks := l₁ ++ .inside (.ret r.2) :: l₂ })
  | .inside (.ret r) => some (.resume r, { sv with tasks := l₁ ++ l₂ }.resume r)

def exec (room : RoomId) (sv : Server) : Command → Option (Event × Server)
  | .announce s user =>
    if sv.user s = none ∧ user ≠ "" then
      some (.announce s user, { sv with
        connected := Function.update sv.connected s true
        user := Function.update sv.user s (some user) })
    else none
  | .join s =>
    if sv.connected s = true then
      some (.join s, if sv.rooms then sv.enterRoom s else sv.push (.join s))
    else none
  | .leave s =>
    if sv.connected s = true then
      some (.leave s, { sv with rooms2 := Function.update sv.rooms2 s false })
    else none
  | .disconnect s =>
    if sv.connected s = true then some (.disconnect s, sv.onDisconnect s) else none
  | .run i k =>
    match sv.tasks.drop i with
    | [] => none
    | t :: l₂ => sv.go room (sv.tasks.take i) k l₂ t

/-- The commands run one after the other, as long as the events satisfy `P` where they happen. -/
def script (room : RoomId) (P : Server → Event → Prop) [∀ sv e, Decidable (P sv e)] :
    Server → List Command → Option (List Event × Server)
  | sv, [] => some ([], sv)
  | sv, c :: cs =>
    match sv.exec room c with
    | none => none
    | some (e, sv') =>
      if P sv e then (script room P sv' cs).map fun r => (e :: r.1, r.2) else none

variable {room : RoomId} {sv sv' : Server} {e : Event}

theorem step_of_go {l₁ l₂ : List Task} {t : Task} {k : ℕ} (ht : sv.tasks = l₁ ++ t :: l₂)
    (h : sv.go room l₁ k l₂ t = some (e, sv')) : Step room sv e sv' := by
  match t with
  | .join s => cases h; exact .addIdx l₁ s l₂ ht
  | .joined s => cases h; exact .joined l₁ s _ l₂ ht
  | .retry s => cases h; exact .retry l₁ s l₂ ht
  | .wait s => cases h; exact .wait l₁ s l₂ ht
  | .inside (.call c) =>
    obtain ⟨⟨docs', r⟩, hq, heq⟩ := Option.map_eq_some_iff.mp h
    cases heq
    exact .db l₁ c l₂ docs' r ht (dbStep_of_exec hq)
  | .inside (.ret r) => cases h; exact .resume l₁ r l₂ ht

theorem step_of_exec {c : Command} (h : sv.exec room c = some (e, sv')) : Step room sv e sv' := by
  cases c with
  | announce s user =>
    simp only [exec] at h
    split_ifs at h with hs
    cases h
    exact .announce s user hs.1 hs.2
  | join s =>
    rw [exec] at h
    by_cases hs : sv.connected s = true
    · rw [if_pos hs] at h
      cases h
      exact .join s hs
    · rw [if_neg hs] at h
      cases h
  | leave s =>
    simp only [exec] at h
    split_ifs at h with hs
    cases h
    exact .leave s hs
  | disconnect s =>
    simp only [exec] at h
    split_ifs at h with hs
    cases h
    exact .disconnect s hs
  | run i k =>
    simp only [exec] at h
    split at h
    · cases h
    · rename_i t l₂ hd
      refine step_of_go ?_ h
      rw [← hd, List.take_append_drop]

variable {P : Server → Event → Prop} [∀ sv e, Decidable (P sv e)]

theorem run_of_script {cs : List Command} : ∀ {sv sv' : Server} {tr : List Event},
    script room P sv cs = some (tr, sv') → Lts.Run (Lts.Only (Step room) P) sv tr sv' := by
  induction cs with
  | nil =>
    intro sv sv' tr h
    cases h
    exact .nil
  | cons c cs ih =>
    intro sv sv' tr h
    simp only [script] at h
    split at h
    · cases h
    · rename_i e sv₁ hc
      split_ifs at h with hP
      obtain ⟨r, hr, heq⟩ := Option.map_eq_some_iff.mp h
      cases heq
      exact (ih hr).cons ⟨step_of_exec hc, hP⟩

/-- A script whose outcome can be checked gives a run. -/
theorem exists_run (room : RoomId) (cs : List Command) (P : Server → Event → Prop)
    [∀ sv e, Decidable (P sv e)] (Q : List Event → Server → Prop) [∀ tr sv, Decidable (Q tr sv)]
    (h : (script room P start cs).any (fun r => decide (Q r.1 r.2)) = true) :
    ∃ tr sv, Lts.Run (Lts.Only (Step room) P) start tr sv ∧ Q tr sv := by
  obtain ⟨⟨tr, sv⟩, hs, hq⟩ := (Option.any_eq_true _ _).mp h
  exact ⟨tr, sv, run_of_script hs, of_decide_eq_true hq⟩

end Server

/-! ### Scripts of joins -/

/-- The first task goes on, with these choices. -/
def steps (ks : List ℕ) : List Command := ks.map (Command.run 0)

/-- The first user comes into the room. -/
def founding (s : SocketId) (user : UserId) : List Command :=
  [.announce s user, .join s] ++ steps [0, 0, 0, 0, 0, 0, 0, 0]

/-- Another one comes, and picks these matches. -/
def joining (s : SocketId) (user : UserId) (k₁ k₂ : ℕ) : List Command :=
  [.announce s user, .join s] ++ steps [0, k₁, 0, k₂, 0, 0, 0, 0, 0]

/-! ### Who has announced itself -/

def Event.announced : Event → Option (SocketId × UserId)
  | .announce s user => some (s, user)
  | _ => none

def announced (tr : List Event) : List (SocketId × UserId) := tr.filterMap Event.announced

variable {room : RoomId} {sv : Server} {tr : List Event}

theorem mem_announced (h : Lts.Run (Step room) Server.start tr sv) {s : SocketId} {u : UserId}
    (hu : sv.user s = some u) : (s, u) ∈ announced tr := by
  refine h.trace_invariant (I := fun tr sv => ∀ s u, sv.user s = some u → (s, u) ∈ announced tr)
    (fun s u hu => by cases hu) (fun tr sv e sv' ih he s u hu => ?_) s u hu
  rw [announced, List.filterMap_append, List.mem_append]
  rw [he.user_eq] at hu
  cases e with
  | announce s' u' =>
    by_cases hs : s = s'
    · rw [hs, Event.user, Function.update_self] at hu
      cases hu
      exact .inr (hs ▸ List.mem_singleton.mpr rfl)
    · rw [Event.user, Function.update_of_ne hs] at hu
      exact .inl (ih s u hu)
  | _ => exact .inl (ih s u hu)

theorem apart_of_announced (h : Lts.Run (Step room) Server.start tr sv)
    (ha : ∀ x ∈ announced tr, ∀ y ∈ announced tr, y.2 ≠ x.1) : sv.Apart := by
  intro s s' hs hu
  obtain ⟨u, hu'⟩ := Option.ne_none_iff_exists'.mp hs
  exact ha _ (mem_announced h hu') _ (mem_announced h hu) rfl

theorem distinct_of_announced (h : Lts.Run (Step room) Server.start tr sv)
    (hd : ∀ x ∈ announced tr, ∀ y ∈ announced tr, x.2 = y.2 → x.1 = y.1) : sv.Distinct :=
  fun _ _ _ hu hu' => hd _ (mem_announced h hu) _ (mem_announced h hu') rfl

end Yamb.Symple
