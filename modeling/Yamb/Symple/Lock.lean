import Yamb.Lib.Lock
import Yamb.Symple.Model

/-!
# `Critical[room]` as a lock

* `Server.lock`: the documents, the flag and the critical sections of a server as a `Lock.State`;
* `Server.Enters`, `Server.Works`, `Server.Leaves`: how tasks come in, go on and go out;
* `Step.lock`: every step of the server is one of the lock, so critical sections exclude each other
  (`run_excl`);
* `Server.Apart`, `Server.Distinct`: no user id is a socket id, no user is on two sockets.
-/

set_option autoImplicit false

namespace Yamb.Symple

def Task.phase : Task → Option Phase
  | .inside p => some p
  | _ => none

namespace Server

/-- The tasks between setting `Critical` and unsetting it. -/
def phases (sv : Server) : List Phase := sv.tasks.filterMap Task.phase

def lock (sv : Server) : Lock.State (List Doc) Phase :=
  ⟨sv.docs, sv.critical.getD false, sv.phases⟩

theorem mem_phases {sv : Server} {p : Phase} : p ∈ sv.phases ↔ Task.inside p ∈ sv.tasks := by
  constructor
  · intro h
    obtain ⟨t, ht, htp⟩ := List.mem_filterMap.mp h
    cases t with
    | inside q => cases htp; exact ht
    | join | joined | retry | wait => cases htp
  · exact fun h => List.mem_filterMap.mpr ⟨_, h, rfl⟩

theorem getD_critical {sv : Server} : sv.critical.getD false = true ↔ sv.critical = some true := by
  cases sv.critical <;> simp

theorem getD_critical_eq_false {sv : Server} :
    sv.critical.getD false = false ↔ sv.critical ≠ some true := by
  rw [← Bool.not_eq_true, getD_critical]

/-- A task sets `Critical` at the start of `broadcastInRoom` or of `free`. -/
inductive Enters (room : RoomId) (sv : Server) : Event → Phase → Prop
  | joined {s : SocketId} (h : .joined s ∈ sv.tasks) (hs : sv.connected s = true)
      (hd : sv.del s = false) (hr : room ≠ "") :
      Enters room sv (.joined s false) (.call (.picking ⟨s, [], 0, sv.userOf s⟩ 2 []))
  | retry {s : SocketId} (h : .retry s ∈ sv.tasks) (hs : sv.connected s = true)
      (hd : sv.del s = false) (hr : room ≠ "") :
      Enters room sv (.retry s) (.call (.picking ⟨s, [], 0, sv.userOf s⟩ 2 []))
  | wait {s : SocketId} (h : .wait s ∈ sv.tasks) (hd : sv.del s = false) :
      Enters room sv (.wait s) (.call (.deleting s))
  | disconnect {s : SocketId} (hs : sv.connected s = true) (hr : sv.rooms2 s = true)
      (hd : sv.del s = false) : Enters room sv (.disconnect s) (.call (.deleting s))

inductive Works (sv : Server) : Event → List Doc → Phase → List Doc → Phase → Prop
  | db {docs docs' : List Doc} {c : Call} {r : Return} (h : DbStep docs c docs' r) :
      Works sv (.db r) docs (.call c) docs' (.ret r)
  | next {docs : List Doc} {r : Return} {c : Call}
      (h : r.next sv.connected sv.userOf = .call c) :
      Works sv (.resume r) docs (.ret r) docs (.call c)

inductive Leaves (sv : Server) : Event → Phase → Prop
  | leave {r : Return} (h : ∀ c, r.next sv.connected sv.userOf ≠ .call c) :
      Leaves sv (.resume r) (.ret r)

inductive GivesUp : Event → Phase → Prop
  | reject (c : Call) : GivesUp (.reject c) (.call c)

abbrev LockStep (room : RoomId) (sv : Server) (e : Event) :
    Lock.State (List Doc) Phase → Lock.State (List Doc) Phase → Prop :=
  Lock.Step (sv.Enters room e) (sv.Works e) (sv.Leaves e) (GivesUp e)

/-! ### The pieces of code -/

variable {room : RoomId} {sv : Server} {s : SocketId}

/-- `broadcastInRoom` returns, comes back later, or takes the lock. -/
inductive BroadcastInRoom (room : RoomId) (sv : Server) (s : SocketId) : Server → Prop
  | dropped (h : sv.connected s = false ∨ room = "" ∨ sv.del s = true) :
      BroadcastInRoom room sv s sv
  | later (hs : sv.connected s = true) (hc : sv.critical = some true) :
      BroadcastInRoom room sv s (sv.push (.retry s))
  | enter (hs : sv.connected s = true) (hr : room ≠ "") (hd : sv.del s = false)
      (hc : sv.critical ≠ some true) : BroadcastInRoom room sv s
        ({ sv with critical := some true }.call (.picking ⟨s, [], 0, sv.userOf s⟩ 2 []))

theorem broadcastInRoom_cases (room : RoomId) (sv : Server) (s : SocketId) :
    BroadcastInRoom room sv s (sv.broadcastInRoom room s) := by
  unfold broadcastInRoom
  split_ifs with hs hr hd hc
  · exact .dropped (.inl (by simpa using hs))
  · exact .dropped (.inr (.inl hr))
  · exact .dropped (.inr (.inr hd))
  · exact .later (by simpa using hs) hc
  · exact .enter (by simpa using hs) hr (by simpa using hd) hc

inductive Free (sv : Server) (s : SocketId) : Server → Prop
  | dropped (h : sv.del s = true) : Free sv s sv
  | later (hd : sv.del s = false) (hc : sv.critical = some true) : Free sv s (sv.push (.wait s))
  | enter (hd : sv.del s = false) (hc : sv.critical ≠ some true) : Free sv s
      ({ sv with critical := some true, del := Function.update sv.del s true }.call (.deleting s))

theorem free_cases (sv : Server) (s : SocketId) : Free sv s (sv.free s) := by
  unfold free
  split_ifs with hd hc
  · exact .dropped hd
  · exact .later (by simpa using hd) hc
  · exact .enter (by simpa using hd) hc

/-! ### Steps of the lock -/

theorem phases_push_inside (sv : Server) (p : Phase) :
    (sv.push (.inside p)).phases = sv.phases ++ [p] := by
  simp [phases, push, Task.phase]

theorem phases_push_of_phase {t : Task} (h : t.phase = none) (sv : Server) :
    (sv.push t).phases = sv.phases := by
  simp [phases, push, h]

theorem push_inside_lock (sv : Server) (p : Phase) : (sv.push (.inside p)).lock =
    ⟨sv.docs, sv.critical.getD false, sv.phases ++ [p]⟩ :=
  congrArg (Lock.State.mk _ _) (phases_push_inside sv p)

theorem push_lock {t : Task} (h : t.phase = none) (sv : Server) : (sv.push t).lock = sv.lock :=
  congrArg (Lock.State.mk _ _) (phases_push_of_phase h sv)

theorem phases_middle {l₁ l₂ : List Task} {t : Task} (h : sv.tasks = l₁ ++ t :: l₂)
    (ht : t.phase = none) : sv.phases = { sv with tasks := l₁ ++ l₂ }.phases := by
  simp [phases, h, ht]

theorem lock_idle {sv' : Server} (hdocs : sv'.docs = sv.docs) (hcrit : sv'.critical.getD false =
    sv.critical.getD false) (hph : sv'.phases = sv.phases) : sv'.lock = sv.lock := by
  simp only [lock, hdocs, hcrit, hph]

/-- The step is idle for the lock. -/
theorem idle_of_lock_eq {sv' : Server} {e : Event} (h : sv'.lock = sv.lock) :
    LockStep room sv e sv.lock sv'.lock := h ▸ .idle

theorem enter_of_critical {e : Event} {c : Call} {sv' : Server} (hc : sv.critical ≠ some true)
    (hp : sv.Enters room e (.call c)) (hdocs : sv'.docs = sv.docs) (hcrit : sv'.critical = some true)
    (hph : sv'.phases = sv.phases ++ [.call c]) : LockStep room sv e sv.lock sv'.lock := by
  have hlock : sv'.lock = ⟨sv.lock.data, true, sv.phases ++ [.call c]⟩ := by
    simp only [lock, hdocs, hcrit, hph, Option.getD_some]
  rw [hlock]
  exact .enter (getD_critical_eq_false.mpr hc) hp (List.perm_append_singleton _ _)

theorem broadcastInRoom_lock {e : Event} {sv₁ sv' : Server} (hb : BroadcastInRoom room sv₁ s sv')
    (hlock : sv₁.lock = sv.lock) (hcrit : sv₁.critical = sv.critical)
    (hp : sv₁.connected s = true → room ≠ "" → sv₁.del s = false →
      sv.Enters room e (.call (.picking ⟨s, [], 0, sv₁.userOf s⟩ 2 []))) :
    LockStep room sv e sv.lock sv'.lock := by
  have hdocs : sv₁.docs = sv.docs := congrArg Lock.State.data hlock
  have hph : sv₁.phases = sv.phases := congrArg Lock.State.inside hlock
  cases hb with
  | dropped => exact idle_of_lock_eq hlock
  | later => exact idle_of_lock_eq ((push_lock rfl _).trans hlock)
  | enter hs hr hd hc =>
    rw [hcrit] at hc
    refine enter_of_critical hc (hp hs hr hd) hdocs rfl ?_
    exact (phases_push_inside _ _).trans (congrArg (· ++ [_]) hph)

theorem free_lock {e : Event} {sv₁ sv' : Server} (hf : Free sv₁ s sv') (hlock : sv₁.lock = sv.lock)
    (hcrit : sv₁.critical = sv.critical)
    (hp : sv₁.del s = false → sv.Enters room e (.call (.deleting s))) :
    LockStep room sv e sv.lock sv'.lock := by
  have hdocs : sv₁.docs = sv.docs := congrArg Lock.State.data hlock
  have hph : sv₁.phases = sv.phases := congrArg Lock.State.inside hlock
  cases hf with
  | dropped => exact idle_of_lock_eq hlock
  | later => exact idle_of_lock_eq ((push_lock rfl _).trans hlock)
  | enter hd hc =>
    rw [hcrit] at hc
    refine enter_of_critical hc (hp hd) hdocs rfl ?_
    exact (phases_push_inside _ _).trans (congrArg (· ++ [_]) hph)

theorem enterRoom_lock (sv : Server) (s : SocketId) : (sv.enterRoom s).lock = sv.lock := by
  unfold enterRoom
  split_ifs with h
  · rfl
  · exact push_lock rfl _

theorem resume_eq {r : Return} {n : Next} (hn : r.next sv.connected sv.userOf = n)
    (ts : List Task) : { sv with tasks := ts }.resume r =
      { sv with tasks := ts, sent := sv.sent ++ sv.presences r }.goOn n := by
  subst hn
  rfl

theorem phases_of_ret {r : Return} {l₁ l₂ : List Task} (h : sv.tasks = l₁ ++ .inside (.ret r) :: l₂) :
    sv.phases.Perm (.ret r :: (l₁ ++ l₂).filterMap Task.phase) := by
  simp only [phases, h, List.filterMap_append, List.filterMap_cons_some
    (show (Task.inside (.ret r)).phase = some _ from rfl)]
  exact List.perm_middle

/-- A task that goes out unsets the flag and leaves the documents as they are. -/
theorem resume_lock_of_leaves {r : Return} (h : ∀ c, r.next sv.connected sv.userOf ≠ .call c)
    (ts : List Task) :
    ({ sv with tasks := ts }.resume r).lock = ⟨sv.docs, false, ts.filterMap Task.phase⟩ := by
  cases hn : r.next sv.connected sv.userOf with
  | call c => exact absurd hn (h c)
  | joined client sendTo =>
    rw [resume_eq hn]
    rfl
  | missed s =>
    rw [resume_eq hn, Server.goOn, push_lock rfl]
    rfl
  | freed s =>
    rw [resume_eq hn]
    rfl

theorem resume_lock {r : Return} {l₁ l₂ : List Task} (h : sv.tasks = l₁ ++ .inside (.ret r) :: l₂) :
    LockStep room sv (.resume r) sv.lock ({ sv with tasks := l₁ ++ l₂ }.resume r).lock := by
  by_cases hc : ∃ c, r.next sv.connected sv.userOf = .call c
  · obtain ⟨c, hn⟩ := hc
    rw [resume_eq hn, Server.goOn, Server.call, push_inside_lock]
    exact .work (phases_of_ret h) (.next hn) (List.perm_append_singleton _ _)
  · have hne := not_exists.mp hc
    rw [resume_lock_of_leaves hne]
    exact .leave (phases_of_ret h) (.leave hne)

end Server

open Server

variable {room : RoomId} {sv sv' : Server} {e : Event}

/-- Every step is one of the lock. -/
theorem Step.lock (h : Step room sv e sv') : LockStep room sv e sv.lock sv'.lock := by
  cases h with
  | announce s user hs hu => exact .idle
  | join s hs =>
    split_ifs with hr
    · exact idle_of_lock_eq (enterRoom_lock sv s)
    · exact idle_of_lock_eq (push_lock rfl sv)
  | addIdx l₁ s l₂ h =>
    refine idle_of_lock_eq ((enterRoom_lock _ s).trans ?_)
    exact lock_idle rfl rfl (phases_middle h rfl).symm
  | joined l₁ s err l₂ h =>
    have hlock : { sv with tasks := l₁ ++ l₂ }.lock = sv.lock :=
      lock_idle rfl rfl (phases_middle h rfl).symm
    unfold Server.joined
    split_ifs with hd he
    · exact idle_of_lock_eq hlock
    · exact idle_of_lock_eq hlock
    · refine broadcastInRoom_lock (broadcastInRoom_cases _ _ _) hlock rfl fun hs hr hd' => ?_
      rw [Bool.not_eq_true] at he
      exact he ▸ .joined (h ▸ by simp) hs hd' hr
  | leave s hs => exact .idle
  | disconnect s hs =>
    unfold onDisconnect
    split_ifs with hr
    · exact free_lock (free_cases _ _) rfl rfl fun hd => .disconnect hs hr hd
    · exact .idle
  | retry l₁ s l₂ h =>
    refine broadcastInRoom_lock (broadcastInRoom_cases _ _ _)
      (lock_idle rfl rfl (phases_middle h rfl).symm) rfl fun hs hr hd => ?_
    exact .retry (h ▸ by simp) hs hd hr
  | wait l₁ s l₂ h =>
    refine free_lock (free_cases _ _) (lock_idle rfl rfl (phases_middle h rfl).symm) rfl fun hd => ?_
    exact .wait (h ▸ by simp) hd
  | db l₁ c l₂ docs' r h hdb =>
    have hph : sv.phases.Perm (.call c :: (l₁ ++ l₂).filterMap Task.phase) := by
      simp only [phases, h, List.filterMap_append, List.filterMap_cons_some
        (show (Task.inside (.call c)).phase = some _ from rfl)]
      exact List.perm_middle
    refine .work hph (.db hdb) ?_
    simp only [phases, List.filterMap_append, List.filterMap_cons_some
      (show (Task.inside (.ret r)).phase = some _ from rfl)]
    exact List.perm_middle
  | resume l₁ r l₂ h => exact resume_lock h
  | reject l₁ c l₂ h =>
    refine .giveUp (p := .call c) ?_ (.reject c)
    simp only [lock, phases, h, List.filterMap_append, List.filterMap_cons_some
      (show (Task.inside (.call c)).phase = some _ from rfl)]
    exact List.perm_middle

/-! ### One critical section -/

theorem Step.returns {r : Return} (h : Step room sv (.resume r) sv') : .ret r ∈ sv.phases := by
  cases h with
  | resume l₁ _ l₂ ht => exact mem_phases.mpr (ht ▸ List.mem_append_right _ List.mem_cons_self)

theorem Step.answered {r : Return} (h : Step room sv (.db r) sv') : .ret r ∈ sv'.phases := by
  cases h with
  | db => exact mem_phases.mpr (List.mem_append_right _ List.mem_cons_self)

theorem Step.lock_of_leaves {r : Return} (h : Step room sv (.resume r) sv') (hx : Lock.Excl sv.lock)
    (hne : ∀ c, r.next sv.connected sv.userOf ≠ .call c) : sv'.lock = ⟨sv.docs, false, []⟩ := by
  cases h with
  | resume l₁ _ l₂ ht =>
    rw [resume_lock_of_leaves hne, hx.rest_eq_nil (phases_of_ret ht)]

/-- Where the tasks inside come from. -/
theorem Step.phase_cases (h : Step room sv e sv') {p' : Phase} (hp : p' ∈ sv'.phases) :
    p' ∈ sv.phases ∨ sv.Enters room e p' ∨
      ∃ p ∈ sv.phases, sv.Works e sv.docs p sv'.docs p' := by
  have hl := h.lock
  have hp : p' ∈ sv'.lock.inside := hp
  have hd : sv'.lock.data = sv'.docs := rfl
  generalize sv'.lock = k' at hl hp hd
  cases hl with
  | idle => exact .inl hp
  | enter _ hE hperm =>
    rcases List.mem_cons.mp (hperm.mem_iff.mp hp) with rfl | hp
    · exact .inr (.inl hE)
    · exact .inl hp
  | work hperm hW hperm' =>
    rcases List.mem_cons.mp (hperm'.mem_iff.mp hp) with rfl | hp
    · exact .inr (.inr ⟨_, hperm.mem_iff.mpr List.mem_cons_self, hd ▸ hW⟩)
    · exact .inl (hperm.mem_iff.mpr (List.mem_cons_of_mem _ hp))
  | leave hperm => exact .inl (hperm.mem_iff.mpr (List.mem_cons_of_mem _ hp))
  | giveUp hperm => exact .inl (hperm.mem_iff.mpr (List.mem_cons_of_mem _ hp))

/-- Where they go. -/
theorem Step.phase_next (h : Step room sv e sv') {p : Phase} (hp : p ∈ sv.phases) :
    p ∈ sv'.phases ∨ (∃ p' ∈ sv'.phases, sv.Works e sv.docs p sv'.docs p') ∨ sv.Leaves e p ∨
      GivesUp e p := by
  have hl := h.lock
  have hp : p ∈ sv.lock.inside := hp
  have hph : sv'.lock.inside = sv'.phases := rfl
  have hd : sv'.lock.data = sv'.docs := rfl
  generalize sv'.lock = k' at hl hph hd
  rw [← hph, ← hd]
  cases hl with
  | idle => exact .inl hp
  | enter _ _ hperm => exact .inl (hperm.mem_iff.mpr (List.mem_cons_of_mem _ hp))
  | work hperm hW hperm' =>
    rcases List.mem_cons.mp (hperm.mem_iff.mp hp) with rfl | hp
    · exact .inr (.inl ⟨_, hperm'.mem_iff.mpr List.mem_cons_self, hW⟩)
    · exact .inl (hperm'.mem_iff.mpr (List.mem_cons_of_mem _ hp))
  | leave hperm hL =>
    rcases List.mem_cons.mp (hperm.mem_iff.mp hp) with rfl | hp
    · exact .inr (.inr (.inl hL))
    · exact .inl hp
  | giveUp hperm hX =>
    rcases List.mem_cons.mp (hperm.mem_iff.mp hp) with rfl | hp
    · exact .inr (.inr (.inr hX))
    · exact .inl hp

theorem broadcastInRoom_del (room : RoomId) (sv : Server) (s : SocketId) :
    (sv.broadcastInRoom room s).del = sv.del := by
  have h := broadcastInRoom_cases room sv s
  generalize sv.broadcastInRoom room s = sv' at h
  cases h <;> rfl

theorem joined_del (room : RoomId) (sv : Server) (s : SocketId) (err : Bool) :
    (sv.joined room s err).del = sv.del := by
  unfold Server.joined
  split_ifs
  · rfl
  · rfl
  · exact broadcastInRoom_del room sv s

theorem enterRoom_del (sv : Server) (s : SocketId) : (sv.enterRoom s).del = sv.del := by
  unfold enterRoom
  split_ifs <;> rfl

theorem free_del (sv : Server) {s s' : SocketId} (hd : (sv.free s').del s = true) :
    .call (.deleting s) ∈ (sv.free s').phases ∨ sv.del s = true := by
  have h := free_cases sv s'
  generalize sv.free s' = sv' at h hd
  cases h with
  | dropped | later => exact .inr hd
  | enter =>
    by_cases hs : s = s'
    · subst hs
      exact .inl (mem_phases.mpr (List.mem_append_right _ List.mem_cons_self))
    · exact .inr ((Function.update_of_ne hs _ _).symm.trans hd)

theorem resume_del (sv : Server) (r : Return) {s : SocketId} (hd : (sv.resume r).del s = true) :
    sv.del s = true ∧ r.next sv.connected sv.userOf ≠ .missed s ∧
      r.next sv.connected sv.userOf ≠ .freed s := by
  have hup {s' : SocketId} (hd : Function.update sv.del s' false s = true) :
      sv.del s = true ∧ s' ≠ s := by
    by_cases hs : s = s'
    · rw [hs, Function.update_self] at hd
      cases hd
    · exact ⟨(Function.update_of_ne hs _ _).symm.trans hd, Ne.symm hs⟩
  unfold resume at hd
  cases hn : r.next sv.connected sv.userOf with
  | call c => rw [hn] at hd; exact ⟨hd, nofun, nofun⟩
  | joined client sendTo => rw [hn] at hd; exact ⟨hd, nofun, nofun⟩
  | missed s' =>
    rw [hn] at hd
    obtain ⟨hd, hne⟩ := hup hd
    exact ⟨hd, fun he => hne (Next.missed.inj he), nofun⟩
  | freed s' =>
    rw [hn] at hd
    obtain ⟨hd, hne⟩ := hup hd
    exact ⟨hd, nofun, fun he => hne (Next.freed.inj he)⟩

/-- `Del` is set by a clean-up that takes the lock, and stays set until it gives it back. -/
theorem Step.del_cases (h : Step room sv e sv') {s : SocketId} (hd : sv'.del s = true) :
    .call (.deleting s) ∈ sv'.phases ∨ sv.del s = true ∧ ∀ r, e = .resume r →
      r.next sv.connected sv.userOf ≠ .missed s ∧ r.next sv.connected sv.userOf ≠ .freed s := by
  cases h with
  | announce | leave | db | reject => exact .inr ⟨hd, nofun⟩
  | join s' hs =>
    split_ifs at hd with hr
    · exact .inr ⟨(congrFun (enterRoom_del sv s') s).symm.trans hd, nofun⟩
    · exact .inr ⟨hd, nofun⟩
  | addIdx l₁ s' l₂ h =>
    rw [enterRoom_del] at hd
    exact .inr ⟨hd, nofun⟩
  | joined l₁ s' err l₂ h =>
    rw [joined_del] at hd
    exact .inr ⟨hd, nofun⟩
  | disconnect s' hs =>
    unfold onDisconnect at hd ⊢
    split_ifs at hd ⊢ with hr
    · exact (free_del _ hd).imp id fun hd => ⟨hd, nofun⟩
    · exact .inr ⟨hd, nofun⟩
  | retry l₁ s' l₂ h =>
    rw [broadcastInRoom_del] at hd
    exact .inr ⟨hd, nofun⟩
  | wait l₁ s' l₂ h => exact (free_del _ hd).imp id fun hd => ⟨hd, nofun⟩
  | resume l₁ r l₂ h =>
    obtain ⟨hd, hn⟩ := resume_del { sv with tasks := l₁ ++ l₂ } r hd
    refine .inr ⟨hd, ?_⟩
    rintro r' he
    cases he
    exact hn

/-! ### The sockets -/

/-- The code leaves the sockets alone. -/
structure SameSockets (sv sv' : Server) : Prop where
  connected : sv'.connected = sv.connected
  user : sv'.user = sv.user
  rooms2 : sv'.rooms2 = sv.rooms2

theorem broadcastInRoom_sockets (room : RoomId) (sv : Server) (s : SocketId) :
    SameSockets sv (sv.broadcastInRoom room s) := by
  have h := broadcastInRoom_cases room sv s
  generalize sv.broadcastInRoom room s = sv' at h
  cases h <;> exact ⟨rfl, rfl, rfl⟩

theorem joined_sockets (room : RoomId) (sv : Server) (s : SocketId) (err : Bool) :
    SameSockets sv (sv.joined room s err) := by
  unfold Server.joined
  split_ifs
  · exact ⟨rfl, rfl, rfl⟩
  · exact ⟨rfl, rfl, rfl⟩
  · exact broadcastInRoom_sockets room sv s

theorem free_sockets (sv : Server) (s : SocketId) : SameSockets sv (sv.free s) := by
  have h := free_cases sv s
  generalize sv.free s = sv' at h
  cases h <;> exact ⟨rfl, rfl, rfl⟩

theorem resume_sockets (sv : Server) (r : Return) : SameSockets sv (sv.resume r) := by
  unfold resume
  cases r.next sv.connected sv.userOf <;> exact ⟨rfl, rfl, rfl⟩

/-- `io.sockets.connected` after an event. -/
def Event.connected (connected : SocketId → Bool) : Event → SocketId → Bool
  | .announce s _ => Function.update connected s true
  | .disconnect s => Function.update connected s false
  | _ => connected

/-- The users of the sockets after an event. -/
def Event.user (user : SocketId → Option UserId) : Event → SocketId → Option UserId
  | .announce s u => Function.update user s (some u)
  | _ => user

theorem enterRoom_rooms2 (sv : Server) (s : SocketId) :
    (sv.enterRoom s).rooms2 = Function.update sv.rooms2 s true := by
  unfold enterRoom
  split_ifs with h
  · exact (Function.update_eq_self_iff.mpr h.symm).symm
  · rfl

theorem enterRoom_connected (sv : Server) (s : SocketId) :
    (sv.enterRoom s).connected = sv.connected := by
  unfold enterRoom
  split_ifs <;> rfl

theorem enterRoom_user (sv : Server) (s : SocketId) : (sv.enterRoom s).user = sv.user := by
  unfold enterRoom
  split_ifs <;> rfl

theorem Step.connected_eq (h : Step room sv e sv') : sv'.connected = e.connected sv.connected := by
  cases h with
  | announce | leave | db | reject => rfl
  | join s hs =>
    split_ifs with hr
    · exact enterRoom_connected sv s
    · rfl
  | addIdx l₁ s l₂ h => exact enterRoom_connected _ s
  | joined l₁ s err l₂ h => exact (joined_sockets room { sv with tasks := l₁ ++ l₂ } s err).connected
  | disconnect s hs =>
    unfold onDisconnect
    split_ifs with hr
    · exact (free_sockets _ s).connected
    · rfl
  | retry l₁ s l₂ h => exact (broadcastInRoom_sockets room { sv with tasks := l₁ ++ l₂ } s).connected
  | wait l₁ s l₂ h => exact (free_sockets { sv with tasks := l₁ ++ l₂ } s).connected
  | resume l₁ r l₂ h => exact (resume_sockets { sv with tasks := l₁ ++ l₂ } r).connected

theorem Step.user_eq (h : Step room sv e sv') : sv'.user = e.user sv.user := by
  cases h with
  | announce | leave | db | reject => rfl
  | join s hs =>
    split_ifs with hr
    · exact enterRoom_user sv s
    · rfl
  | addIdx l₁ s l₂ h => exact enterRoom_user _ s
  | joined l₁ s err l₂ h => exact (joined_sockets room { sv with tasks := l₁ ++ l₂ } s err).user
  | disconnect s hs =>
    unfold onDisconnect
    split_ifs with hr
    · exact (free_sockets _ s).user
    · rfl
  | retry l₁ s l₂ h => exact (broadcastInRoom_sockets room { sv with tasks := l₁ ++ l₂ } s).user
  | wait l₁ s l₂ h => exact (free_sockets { sv with tasks := l₁ ++ l₂ } s).user
  | resume l₁ r l₂ h => exact (resume_sockets { sv with tasks := l₁ ++ l₂ } r).user

/-- A socket keeps its user. -/
theorem Step.user_mono (h : Step room sv e sv') {s : SocketId} {u : UserId}
    (hu : sv.user s = some u) : sv'.user s = some u := by
  rw [h.user_eq]
  cases h with
  | announce s' u' hs' =>
    have hne : s ≠ s' := by
      rintro rfl
      rw [hs'] at hu
      cases hu
    rwa [Event.user, Function.update_of_ne hne]
  | _ => exact hu

/-- A connected socket has announced itself. -/
theorem Step.user_of_connected (h : Step room sv e sv')
    (hs : ∀ s, sv.connected s = true → ∃ u, sv.user s = some u) :
    ∀ s, sv'.connected s = true → ∃ u, sv'.user s = some u := by
  intro s hc
  rw [h.connected_eq] at hc
  by_cases hconn : sv.connected s = true
  · obtain ⟨u, hu⟩ := hs s hconn
    exact ⟨u, h.user_mono hu⟩
  · rw [h.user_eq]
    cases e with
    | announce s' u' =>
      by_cases hne : s = s'
      · exact ⟨u', by rw [Event.user, hne, Function.update_self]⟩
      · exact absurd (by rwa [Event.connected, Function.update_of_ne hne] at hc) hconn
    | disconnect s' =>
      by_cases hne : s = s'
      · rw [Event.connected, hne, Function.update_self] at hc
        cases hc
      · exact absurd (by rwa [Event.connected, Function.update_of_ne hne] at hc) hconn
    | _ => exact absurd hc hconn

/-- The id of a socket that has announced itself is not the user of one. -/
def Server.Apart (sv : Server) : Prop := ∀ s s', sv.user s ≠ none → sv.user s' ≠ some s

/-- No user has announced itself on two sockets. -/
def Server.Distinct (sv : Server) : Prop :=
  ∀ s s' u, sv.user s = some u → sv.user s' = some u → s = s'

theorem Step.apart (h : Step room sv e sv') (ha : sv'.Apart) : sv.Apart := by
  intro s s' hs hu
  obtain ⟨u, hu'⟩ := Option.ne_none_iff_exists'.mp hs
  exact ha s s' (by simp [h.user_mono hu']) (h.user_mono hu)

theorem Step.distinct (h : Step room sv e sv') (hd : sv'.Distinct) : sv.Distinct :=
  fun s s' u hs hs' => hd s s' u (h.user_mono hs) (h.user_mono hs')

/-! ### Runs -/

theorem start_excl : Lock.Excl Server.start.lock := Nat.le_refl 0

/-- At most one task is in its critical section, whatever the database answers. -/
theorem run_excl {tr : List Event} (h : Lts.Run (Step room) Server.start tr sv) :
    Lock.Excl sv.lock :=
  h.invariant (I := fun sv => Lock.Excl sv.lock) start_excl fun _ _ _ hs he => he.lock.excl hs

end Yamb.Symple
