import Yamb.Symple.Documents
import Yamb.Symple.Tasks

/-!
# Users that come and go once

Runs of joins and disconnects in which every user has a socket of its own.

* `Event.Churn`: no `leave`, and no failure of the database;
* `Seen`: a user has a document or is listed in one;
* `Server.Fresh`: a user that has not yet got the lock is unseen, so its socket comes to a room that
  does not know it;
* `run_fresh`: that holds in every state of such a run.
-/

set_option autoImplicit false

namespace Yamb.Symple

open Collection

/-- Joins and disconnects, with a database that does not fail. -/
def Event.Churn : Event → Prop
  | .reject _ | .leave _ => False
  | _ => True

instance : DecidablePred Event.Churn
  | .reject _ | .leave _ => .isFalse id
  | .announce .. | .join _ | .addIdx _ | .joined .. | .disconnect _ | .retry _ | .wait _ | .db _
  | .resume _ => .isTrue trivial

theorem Event.Churn.succeeds {e : Event} (h : e.Churn) : e.Succeeds := by
  cases e <;> trivial

theorem Event.Churn.ne_leave {e : Event} (h : e.Churn) (s : SocketId) : e ≠ .leave s := by
  rintro rfl
  exact h

abbrev ChurnStep (room : RoomId) : Server → Event → Server → Prop :=
  Lts.Only (Step room) fun _ e => e.Churn

def Seen (docs : List Doc) (a : UserId) : Prop := a ∈ members docs ∨ ∃ b, Lists docs b a

variable {user : SocketId → Option UserId} {docs docs' : List Doc} {p : Doc → Prop}
  {found : Option Doc} {ids : List UserId} {room : RoomId} {sv sv' : Server} {e : Event} {a : UserId}

theorem Seen.of_push (h : Seen docs' a) (hp : UpdateOne p (Doc.push ids) docs found docs') :
    Seen docs a ∨ a ∈ ids := by
  rcases h with hm | ⟨b, hl⟩
  · exact .inl (.inl (members_of_push hp ▸ hm))
  · rcases (lists_of_push hp).mp hl with hl | ⟨-, -, -, ha⟩
    · exact .inl (.inr ⟨b, hl⟩)
    · exact .inr ha

theorem Seen.of_forall (h : Seen docs' a)
    (hd : ∀ d' ∈ docs', ∃ d ∈ docs, d.sockId = d'.sockId ∧ ∀ u ∈ d'.connects, u ∈ d.connects) :
    Seen docs a := by
  rcases h with hm | ⟨b, d', hd', -, ha⟩
  · obtain ⟨d', hd', rfl⟩ := mem_members.mp hm
    obtain ⟨d, hmem, hk, -⟩ := hd d' hd'
    exact .inl (hk ▸ List.mem_map_of_mem hmem)
  · obtain ⟨d, hmem, -, hl⟩ := hd d' hd'
    exact .inr ⟨d.sockId, d, hmem, rfl, hl a ha⟩

/-- Only the user that is joining can come to be seen. -/
theorem DbStep.seen {c : Call} {r : Return} (h : DbStep docs c docs' r)
    (hc : Held user docs (.call c)) (ha : Seen docs' a) :
    Seen docs a ∨ ∃ s, (Phase.call c).joiner = some (s, a) ∧ user s = some a := by
  have hpicked {client : Client} (h : Collected user docs client) (hu : a ∈ client.connects) :
      Seen docs a := .inl (h.picked a hu).2.mem_members
  cases h with
  | pick client iterations sendTo h =>
    refine (ha.of_push h).imp id fun hu => ?_
    obtain rfl := List.mem_singleton.mp hu
    exact ⟨client.addr, rfl, hc.1.owner⟩
  | own client sendTo h => exact .inl ((ha.of_push h).elim id (hpicked hc))
  | insert client sendTo id h =>
    rcases ha with hm | ⟨b, hl⟩
    · rw [members_insert, List.mem_append, List.mem_singleton] at hm
      refine hm.imp .inl ?_
      rintro rfl
      exact ⟨client.addr, rfl, hc.1.owner⟩
    · refine .inl ((lists_insert.mp hl).elim (fun hl => .inr ⟨b, hl⟩) fun hu => ?_)
      exact hpicked hc.1 hu.2
  | delete s h =>
    exact .inl (ha.of_forall fun d hd => ⟨d, h.sublist.subset hd, rfl, fun _ hu => hu⟩)
  | aggregate s u => exact .inl ha
  | update s tmpaggrs t rest h =>
    refine .inl (ha.of_forall fun d' hd' => ?_)
    rcases h.mem hd' with hd | ⟨d, hd, -, -, rfl⟩
    · exact ⟨d', hd, rfl, fun _ hu => hu⟩
    · exact ⟨d, hd, rfl, fun u hu => (Doc.mem_pull_connects.mp hu).1⟩
  | repick s t rest h =>
    obtain ⟨u, hc⟩ := hc
    refine .inl ((ha.of_push h).elim id fun hu => .inl ?_)
    exact List.mem_singleton.mp hu ▸ (hc.kept t List.mem_cons_self).1
  | link s t cl rest h =>
    obtain ⟨u, -, hcl⟩ := hc
    exact .inl ((ha.of_push h).elim id fun hu => .inl (List.mem_singleton.mp hu ▸ hcl))

/-- The client has no document, and nobody lists it but those it has collected. -/
structure Stranger (docs : List Doc) (client : Client) : Prop where
  absent : client.sockId ∉ members docs
  listed : ∀ b, Lists docs b client.sockId → b ∈ client.connects

/-- What `broadcastInRoom` of a new user can rely on, beyond `Held`. -/
def Strange (docs : List Doc) : Phase → Prop
  | .call (.picking client _ _) | .call (.owning client _) | .call (.inserting client _)
  | .ret (.picked client _ _ none) | .ret (.owned client _ none) => Stranger docs client
  | .ret (.picked client _ _ (some cl)) => Stranger docs (client.add cl)
  | .ret (.owned _ _ (some _)) => False
  | _ => True

theorem DbStep.strange {c : Call} {r : Return} (h : DbStep docs c docs' r)
    (hc : Strange docs (.call c)) : Strange docs' (.ret r) := by
  cases h with
  | @pick _ cl client iterations sendTo h =>
    have hc : Stranger docs client := hc
    cases cl with
    | none => exact h.of_none.1.symm ▸ hc
    | some cl =>
      refine ⟨fun hm => hc.absent (members_of_push h ▸ hm), fun b hl => ?_⟩
      rcases (lists_of_push h).mp hl with hl | ⟨d, hd, rfl, -⟩
      · exact List.mem_append_left _ (hc.listed b hl)
      · cases hd
        exact List.mem_append_right _ (List.mem_singleton.mpr rfl)
  | @own _ upd client sendTo h =>
    have hc : Stranger docs client := hc
    cases upd with
    | none => exact h.of_none.1.symm ▸ hc
    | some d => exact hc.absent (mem_members.mpr ⟨d, h.value_mem, h.value_matches⟩)
  | _ => trivial

theorem strange_of_joiner {p : Phase} (h : p.joiner = none) : Strange docs p := by
  match p with
  | .call (.picking ..) | .call (.owning ..) | .call (.inserting ..) | .ret (.picked ..)
  | .ret (.owned ..) => cases h
  | .ret (.inserted ..) | .call (.deleting _) | .call (.aggregating ..) | .call (.updating ..)
  | .call (.repicking ..) | .call (.linking ..) | .ret (.deleted ..) | .ret (.aggregated ..)
  | .ret (.updated ..) | .ret (.repicked ..) | .ret (.linked ..) => trivial

theorem strange_next {connected : SocketId → Bool} {userOf : SocketId → UserId} {r : Return}
    {c : Call} (h : Strange docs (.ret r)) (hn : r.next connected userOf = .call c) :
    Strange docs (.call c) := by
  match r, h with
  | .picked client iterations sendTo none, h => cases hn; exact h
  | .picked client iterations sendTo (some cl), h =>
    simp only [Return.next] at hn
    split_ifs at hn <;> (cases hn; exact h)
  | .owned client sendTo none, h => cases hn; exact h
  | .inserted client sendTo, _ => cases hn
  | .deleted .., _ | .aggregated .., _ | .updated .., _ | .repicked .., _ | .linked .., _ =>
    exact strange_of_joiner (Return.joiner_call hn).1

/-! ### The invariant -/

/-- The broadcast of the socket has not come to the lock yet. -/
def Server.Waiting (sv : Server) (s : SocketId) : Prop :=
  sv.rooms2 s = false ∨ .joined s ∈ sv.tasks ∨ .retry s ∈ sv.tasks

structure Server.Fresh (sv : Server) : Prop where
  held : sv.Held
  known : ∀ a, Seen sv.docs a → ∃ s, sv.user s = some a
  announced : ∀ s, sv.user s = none → sv.rooms2 s = false ∧ .join s ∉ sv.tasks
  once : sv.chains.Nodup
  outside : ∀ s, sv.rooms2 s = false → s ∉ sv.chains
  unseen : ∀ s u, sv.user s = some u → sv.Waiting s → ¬ Seen sv.docs u
  strange : Lock.Guarded (fun _ => True) Strange sv.lock

theorem mem_chains {s : SocketId} : s ∈ sv.chains ↔ ∃ t ∈ sv.tasks, t.chain = some s :=
  List.mem_filterMap

theorem Server.Fresh.not_waiting_of_mem (h : sv.Fresh) {s : SocketId} {p : Phase} {u : UserId}
    (hp : p ∈ sv.phases) (hj : p.joiner = some (s, u)) : ¬ sv.Waiting s := by
  have ht := Server.mem_phases.mp hp
  have hc : (Task.inside p).chain = some s := by rw [p.chain_eq, hj]; rfl
  rintro (hr | hw | hw)
  · exact h.outside s hr (mem_chains.mpr ⟨_, ht, hc⟩)
  · cases Lts.eq_of_nodup_filterMap h.once ht hw hc rfl
  · cases Lts.eq_of_nodup_filterMap h.once ht hw hc rfl

/-- A socket waits for the lock from the start, or it has just announced itself. -/
theorem Step.waiting (h : Step room sv e sv') (he : e.Churn) {s : SocketId} (hw : sv'.Waiting s) :
    sv.Waiting s := by
  obtain ⟨old, new, hm, ⟨hold, -⟩, -, hback⟩ := h.moved_mem
  have hrun {t : Task} {s : SocketId} (hb : Broadcasts s e t) (ht : old = [t]) : sv.Waiting s := by
    subst ht
    have hmem : t ∈ sv.tasks := hold t List.mem_cons_self
    cases hb with
    | joined => exact .inr (.inl hmem)
    | retry => exact .inr (.inr hmem)
  rcases hw with hr | ht | ht
  · by_contra hc
    rw [h.rooms2_mono (he.ne_leave s) (by simpa using fun hr => hc (.inl hr))] at hr
    cases hr
  · rcases hback _ ht with ht | ht
    · cases hm with
      | join _ _ _ hr => cases List.mem_singleton.mp ht; exact .inl hr
      | indexed _ hr => cases List.mem_singleton.mp ht; exact .inl hr
      | announce | leave | rejoin | reindexed | refused | dropped | stay | skip | finish | freed
      | reject => cases ht
      | index | later | enter | wait | free | db | next | miss => cases List.mem_singleton.mp ht
    · exact .inr (.inl ht)
  · rcases hback _ ht with ht | ht
    · cases hm with
      | later hb => cases List.mem_singleton.mp ht; exact hrun hb rfl
      | announce | leave | rejoin | reindexed | refused | dropped | stay | skip | finish | freed
      | reject => cases ht
      | index | join | indexed | enter | wait | free | db | next | miss =>
        cases List.mem_singleton.mp ht
    · exact .inr (.inr ht)

theorem Step.docs_seen (h : Step room sv e sv') (hs : sv.Held) (ha : Seen sv'.docs a) :
    Seen sv.docs a ∨ ∃ p ∈ sv.phases, ∃ s, p.joiner = some (s, a) ∧ sv.user s = some a := by
  rcases h.docs_cases with ⟨-, hd⟩ | ⟨c, r, rfl, hc, hdb⟩
  · exact .inl (hd ▸ ha)
  · exact (hdb.seen (hs.held_of_mem hc) ha).imp id fun ⟨s, hj, hu⟩ => ⟨_, hc, s, hj, hu⟩

theorem Step.announced (h : Step room sv e sv')
    (hu : ∀ s, sv.connected s = true → ∃ u, sv.user s = some u)
    (hs : ∀ s, sv.user s = none → sv.rooms2 s = false ∧ .join s ∉ sv.tasks) :
    ∀ s, sv'.user s = none → sv'.rooms2 s = false ∧ .join s ∉ sv'.tasks := by
  intro s hn
  have hn₀ : sv.user s = none := by
    by_contra hne
    obtain ⟨u, hu⟩ := Option.ne_none_iff_exists'.mp hne
    rw [h.user_mono hu] at hn
    cases hn
  obtain ⟨hr, ht⟩ := hs s hn₀
  have hconn : sv.connected s ≠ true := fun hc => by
    obtain ⟨u, hu⟩ := hu s hc
    rw [hu] at hn₀
    cases hn₀
  constructor
  · rw [h.rooms2_eq]
    cases h with
    | join s' hs' =>
      have hne : s ≠ s' := fun hne => hconn (hne ▸ hs')
      simp only [Event.rooms2]
      split_ifs
      · rwa [Function.update_of_ne hne]
      · exact hr
    | addIdx l₁ s' l₂ hl =>
      have hne : s ≠ s' := fun hne => ht (by rw [hl, hne]; simp)
      rwa [Event.rooms2, Function.update_of_ne hne]
    | leave s' =>
      by_cases hne : s = s'
      · rw [hne]; exact Function.update_self ..
      · rwa [Event.rooms2, Function.update_of_ne hne]
    | _ => exact hr
  · intro ht'
    obtain ⟨old, new, hm, -, -, hback⟩ := h.moved_mem
    rcases hback _ ht' with ht' | ht'
    · cases hm with
      | index s' hc => cases List.mem_singleton.mp ht'; exact hconn hc
      | announce | leave | rejoin | reindexed | refused | dropped | stay | skip | finish | freed
      | reject => cases ht'
      | join | indexed | later | enter | wait | free | db | next | miss =>
        cases List.mem_singleton.mp ht'
    · exact ht ht'

theorem Server.Fresh.enters {p : Phase} (hs : sv.Fresh) (h : sv.Enters room e p) :
    Strange sv.docs p := by
  have hpick {s : SocketId} (hc : sv.connected s = true) (hw : sv.Waiting s) :
      Strange sv.docs (.call (.picking ⟨s, [], 0, sv.userOf s⟩ 2 [])) := by
    obtain ⟨u, hu⟩ := hs.held.users s hc
    have hn := hs.unseen s u hu hw
    rw [Server.userOf_of_user hu]
    exact ⟨fun hm => hn (.inl hm), fun b hl => absurd (.inr ⟨b, hl⟩) hn⟩
  cases h with
  | joined h hc => exact hpick hc (.inr (.inl h))
  | retry h hc => exact hpick hc (.inr (.inr h))
  | wait => trivial
  | disconnect => trivial

theorem Step.fresh (h : Step room sv e sv') (he : e.Churn) (hd : sv'.Distinct) (hs : sv.Fresh) :
    sv'.Fresh where
  held := h.held he.succeeds hs.held
  known a ha := by
    rcases h.docs_seen hs.held ha with ha | ⟨-, -, s, -, hu⟩
    · obtain ⟨s, hu⟩ := hs.known a ha
      exact ⟨s, h.user_mono hu⟩
    · exact ⟨s, h.user_mono hu⟩
  announced := h.announced hs.held.users hs.announced
  once := by
    rcases h.chains with hsub | ⟨s, hr, -, hp⟩
    · obtain ⟨l, hl, hl'⟩ := hsub
      exact hl.nodup_iff.mp (hs.once.sublist hl')
    · exact hp.nodup_iff.mpr (List.nodup_cons.mpr ⟨hs.outside s hr, hs.once⟩)
  outside s hr hm := by
    have hr₀ : sv.rooms2 s = false := by
      by_contra hc
      rw [h.rooms2_mono (he.ne_leave s) (by simpa using hc)] at hr
      cases hr
    rcases h.chains with hsub | ⟨s', -, hr', hp⟩
    · exact hs.outside s hr₀ (hsub.subset hm)
    · rcases List.mem_cons.mp (hp.mem_iff.mp hm) with rfl | hm
      · rw [hr'] at hr
        cases hr
      · exact hs.outside s hr₀ hm
  unseen s u hu hw hseen := by
    have hw := h.waiting he hw
    rcases h.docs_seen hs.held hseen with hseen | ⟨p, hp, s', hj, hu'⟩
    · obtain ⟨s', hu'⟩ := hs.known u hseen
      obtain rfl := hd s' s u (h.user_mono hu') hu
      exact hs.unseen s' u hu' hw hseen
    · obtain rfl := hd s' s u (h.user_mono hu') hu
      exact hs.not_waiting_of_mem hp hj hw
  strange := by
    refine h.lock.guarded hs.strange he.succeeds.not_givesUp id (fun _ _ _ h => h)
      (fun p _ hp _ => hs.enters hp) ?_ fun _ _ _ _ => trivial
    rintro p docs' p' - hw hp
    cases hw with
    | db hdb => exact hdb.strange hp
    | next hn => exact strange_next hp hn

theorem start_fresh : Server.start.Fresh where
  held := start_held
  known a ha := by
    rcases ha with ha | ⟨b, d, hd, -⟩
    · cases ha
    · cases hd
  announced s _ := ⟨rfl, nofun⟩
  once := List.nodup_nil
  outside s _ := nofun
  unseen s u hu := by cases hu
  strange := .rest trivial

theorem run_fresh {tr : List Event} (h : Lts.Run (ChurnStep room) Server.start tr sv)
    (hd : sv.Distinct) : sv.Fresh :=
  h.invariant_while hd (fun _ _ _ he => he.1.distinct) start_fresh fun _ _ _ _ hd hs he =>
    he.1.fresh he.2 hd hs

end Yamb.Symple
