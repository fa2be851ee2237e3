import Yamb.Symple.Documents
import Yamb.Symple.Script
import Yamb.Symple.Tasks

/-!
# The clean-up after a disconnect

* `Server.Tidy`: a socket has at most one clean-up, it is gone for good, and `Del` is set only while
  its clean-up has the lock;
* `Server.Covered`: there is a document at the address of a socket, or its broadcast is about to
  insert one;
* `Server.Leaving`: what a clean-up finds, from the disconnect on;
* **`run_deleted_iff`**: a clean-up finds a document, or can still hope for one, exactly when its
  socket was covered at the disconnect.
-/

set_option autoImplicit false

namespace Yamb.Symple

open Collection

variable {docs docs' : List Doc} {room : RoomId} {sv sv' : Server} {e : Event} {s : SocketId}

theorem mem_frees : s ∈ sv.frees ↔ ∃ t ∈ sv.tasks, t.leaver = some s := List.mem_filterMap

theorem mem_frees_of_phase {p : Phase} (hp : p ∈ sv.phases) (hl : p.leaver = some s) :
    s ∈ sv.frees := mem_frees.mpr ⟨_, Server.mem_phases.mp hp, hl⟩

structure Server.Tidy (sv : Server) : Prop where
  held : sv.Held
  frees : sv.frees.Nodup
  gone : ∀ s ∈ sv.frees, sv.connected s = false ∧ ∃ u, sv.user s = some u
  del : ∀ s, sv.del s = true → ∃ p ∈ sv.phases, p.leaver = some s

/-- A socket that has announced itself connects no more. -/
theorem Step.gone (h : Step room sv e sv') {u : UserId} (hc : sv.connected s = false)
    (hu : sv.user s = some u) : sv'.connected s = false ∧ sv'.user s = some u := by
  refine ⟨?_, h.user_mono hu⟩
  rw [h.connected_eq]
  cases h with
  | announce s' u' hs' =>
    have hne : s ≠ s' := by
      rintro rfl
      rw [hs'] at hu
      cases hu
    rwa [Event.connected, Function.update_of_ne hne]
  | disconnect s' =>
    by_cases hne : s = s'
    · rw [Event.connected, hne, Function.update_self]
    · rwa [Event.connected, Function.update_of_ne hne]
  | _ => exact hc

theorem Step.connected_mono (h : Step room sv e sv') (he : e ≠ .disconnect s)
    (hc : sv.connected s = true) : sv'.connected s = true := by
  rw [h.connected_eq]
  cases e with
  | announce s' =>
    by_cases hs : s = s'
    · rw [Event.connected, hs, Function.update_self]
    · rwa [Event.connected, Function.update_of_ne hs]
  | disconnect s' =>
    have hs : s ≠ s' := fun hs => he (hs ▸ rfl)
    rwa [Event.connected, Function.update_of_ne hs]
  | _ => exact hc

/-- A socket connects when it announces itself. -/
theorem Step.user_of_connects (h : Step room sv e sv') (hc : sv.connected s = false)
    (hc' : sv'.connected s = true) : sv.user s = none := by
  by_contra hne
  obtain ⟨u, hu⟩ := Option.ne_none_iff_exists'.mp hne
  rw [(h.gone hc hu).1] at hc'
  cases hc'

theorem Step.disconnected (h : Step room sv (.disconnect s) sv') :
    sv.connected s = true ∧ sv'.connected s = false := by
  have hc := h.connected_eq
  cases h with
  | disconnect _ hs => exact ⟨hs, by rw [hc, Event.connected, Function.update_self]⟩

theorem leaver_of_works {p p' : Phase} (h : sv.Works e docs p docs' p') : p'.leaver = p.leaver := by
  cases h with
  | db h => exact h.joiner.2
  | next h => exact (Return.joiner_call h).2

theorem joiner_of_works {p p' : Phase} (h : sv.Works e docs p docs' p') : p'.joiner = p.joiner := by
  cases h with
  | db h => exact h.joiner.1
  | next h => exact (Return.joiner_call h).1

theorem Step.tidy (h : Step room sv e sv') (he : e.Succeeds) (hs : sv.Tidy) : sv'.Tidy where
  held := h.held he hs.held
  frees := by
    rcases h.frees with ⟨l, hl, hl'⟩ | ⟨s, rfl, -, hp⟩
    · exact hl.nodup_iff.mp (hs.frees.sublist hl')
    · refine hp.nodup_iff.mpr (List.nodup_cons.mpr ⟨fun hm => ?_, hs.frees⟩)
      have := (hs.gone s hm).1
      rw [h.disconnected.1] at this
      cases this
  gone s hm := by
    have hold (hm : s ∈ sv.frees) : sv'.connected s = false ∧ ∃ u, sv'.user s = some u := by
      obtain ⟨hc, u, hu⟩ := hs.gone s hm
      exact ⟨(h.gone hc hu).1, u, (h.gone hc hu).2⟩
    rcases h.frees with hsub | ⟨s', rfl, -, hp⟩
    · exact hold (hsub.subset hm)
    · rcases List.mem_cons.mp (hp.mem_iff.mp hm) with rfl | hm
      · obtain ⟨u, hu⟩ := hs.held.users s h.disconnected.1
        exact ⟨h.disconnected.2, u, h.user_mono hu⟩
      · exact hold hm
  del s hd := by
    rcases h.del_cases hd with hp | ⟨hd, hn⟩
    · exact ⟨_, hp, rfl⟩
    · obtain ⟨p, hp, hl⟩ := hs.del s hd
      rcases h.phase_next hp with hp | ⟨p', hp', hw⟩ | hL | hX
      · exact ⟨p, hp, hl⟩
      · exact ⟨p', hp', (leaver_of_works hw).trans hl⟩
      · cases hL with
        | @leave r hL =>
          have hc := r.continues sv.connected sv.userOf
          obtain ⟨hm, hf⟩ := hn r rfl
          generalize r.next sv.connected sv.userOf = n at hL hc hm hf
          cases hc with
          | call => exact absurd rfl (hL _)
          | joined _ hnone =>
            rw [hl] at hnone
            cases hnone
          | missed hr =>
            rw [hr] at hl
            cases hl
            exact absurd rfl hm
          | freed _ hl' =>
            cases hl.symm.trans hl'
            exact absurd rfl hf
      · exact absurd hX (he.not_givesUp p)

theorem start_tidy : Server.start.Tidy := ⟨start_held, List.nodup_nil, nofun, nofun⟩

theorem run_tidy {tr : List Event} (h : Lts.Run (MongoStep room) Server.start tr sv) : sv.Tidy :=
  h.invariant start_tidy fun _ _ _ hs he => he.1.tidy he.2 hs

/-! ### The document of a socket -/

def addrs (docs : List Doc) : List SocketId := docs.map Doc.addr

theorem mem_addrs : s ∈ addrs docs ↔ ∃ d ∈ docs, d.addr = s := List.mem_map

/-- The broadcast at this position is about to insert a document at the address of the socket. -/
def Inserts (docs : List Doc) (s : SocketId) (p : Phase) : Prop :=
  ∃ u, p.newcomer = some u ∧ p.joiner = some (s, u) ∧ u ∉ members docs

/-- There is a document at the address of the socket, or there is about to be one. -/
def Server.Covered (sv : Server) (s : SocketId) : Prop :=
  s ∈ addrs sv.docs ∨ ∃ p ∈ sv.phases, Inserts sv.docs s p

variable {user : SocketId → Option UserId} {p p' : Phase} {b : Prop}

theorem not_inserts (h : p.newcomer = none) : ¬ Inserts docs s p := by
  rintro ⟨u, hn, -⟩
  rw [h] at hn
  cases hn

theorem inserts_congr (hn : p'.newcomer = p.newcomer) (hj : p'.joiner = p.joiner)
    (hm : members docs' = members docs) : Inserts docs' s p' ↔ Inserts docs s p := by
  rw [Inserts, Inserts, hn, hj, hm]

theorem addrs_of_update {q : Doc → Prop} {f : Doc → Doc} {found : Option Doc}
    (h : UpdateOne q f docs found docs') (hf : ∀ d, (f d).addr = d.addr) :
    addrs docs' = addrs docs := h.map_eq hf

/-- A document comes to an address when the newcomer inserts its own, and goes when a clean-up
deletes it. -/
theorem DbStep.covered_iff {c : Call} {r : Return} (h : DbStep docs c docs' r)
    (hc : Held user docs (.call c)) (hr : r ≠ .deleted s 1) :
    s ∈ addrs docs' ∨ Inserts docs' s (.ret r) ↔ s ∈ addrs docs ∨ Inserts docs s (.call c) := by
  have hfree {docs₁ : List Doc} {p : Phase} (hn : p.newcomer = none) :
      (s ∈ addrs docs₁ ∨ Inserts docs₁ s p) ↔ s ∈ addrs docs₁ :=
    or_iff_left (not_inserts hn)
  cases h with
  | pick client iterations sendTo h =>
    rw [addrs_of_update h fun _ => rfl]
    exact or_congr .rfl (inserts_congr rfl rfl (members_of_push h))
  | @own _ upd client sendTo h =>
    cases upd with
    | none =>
      obtain ⟨rfl, -⟩ := h.of_none
      exact or_congr .rfl (inserts_congr rfl rfl rfl)
    | some d =>
      have hm : ¬ Inserts docs s (.call (.owning client sendTo)) := by
        rintro ⟨u, hn, -, hu⟩
        cases hn
        exact hu (mem_members.mpr ⟨d, h.value_mem, h.value_matches⟩)
      rw [hfree rfl, or_iff_left hm, addrs_of_update h fun _ => rfl]
  | insert client sendTo id h =>
    rw [hfree rfl, addrs, List.map_append, List.mem_append]
    refine or_congr .rfl ?_
    constructor
    · intro hs
      obtain rfl := List.mem_singleton.mp hs
      exact ⟨client.sockId, rfl, rfl, hc.2⟩
    · rintro ⟨u, -, hj, -⟩
      cases hj
      exact List.mem_singleton.mpr rfl
  | @delete _ n s' h =>
    rw [hfree rfl, hfree rfl]
    rcases h.eq_zero_or_one with rfl | rfl
    · rw [h.of_zero.1]
    · obtain ⟨l₁, d, l₂, rfl, rfl, rfl⟩ := h.of_one
      have hne : s ≠ d.addr := fun hs => hr (hs ▸ rfl)
      simp [addrs, hne]
  | aggregate => rw [hfree rfl, hfree rfl]
  | update s' tmpaggrs t rest h => rw [hfree rfl, hfree rfl, addrs_of_update h fun _ => rfl]
  | repick s' t rest h => rw [hfree rfl, hfree rfl, addrs_of_update h fun _ => rfl]
  | link s' t cl rest h => rw [hfree rfl, hfree rfl, addrs_of_update h fun _ => rfl]

theorem Server.Enters.joiner_connected (h : sv.Enters room e p) {u : UserId}
    (hj : p.joiner = some (s, u)) : sv.connected s = true := by
  cases h with
  | joined _ hc => cases hj; exact hc
  | retry _ hc => cases hj; exact hc
  | wait => cases hj
  | disconnect => cases hj

/-- A socket stays covered until its clean-up deletes the document, and comes to be covered only when
its broadcast takes the lock. -/
theorem Step.covered (h : Step room sv e sv') (he : e.Succeeds) (hs : sv.Held)
    (hr : e ≠ .db (.deleted s 1)) : (sv.Covered s → sv'.Covered s) ∧
      (sv'.Covered s → sv.Covered s ∨ ∃ p u, sv.Enters room e p ∧ p.joiner = some (s, u)) := by
  have hl := h.lock
  have hx := hs.guarded.excl
  let K (k : Lock.State (List Doc) Phase) : Prop :=
    s ∈ addrs k.data ∨ ∃ p ∈ k.inside, Inserts k.data s p
  show (K sv.lock → K sv'.lock) ∧ (K sv'.lock → K sv.lock ∨ _)
  have hiff {k k' : Lock.State (List Doc) Phase} {q : Prop} (hk : K k' ↔ K k) :
      (K k → K k') ∧ (K k' → K k ∨ q) := ⟨hk.mpr, fun hk' => .inl (hk.mp hk')⟩
  generalize sv'.lock = k' at hl
  cases hl with
  | idle => exact hiff .rfl
  | @enter p _ hflag hp hperm =>
    have hnil := hx.of_flag hflag
    rw [hnil] at hperm
    have hold : K sv.lock → s ∈ addrs sv.lock.data := by
      rintro (hm | ⟨q, hq, -⟩)
      · exact hm
      · rw [hnil] at hq
        cases hq
    refine ⟨fun hk => .inl (hold hk), ?_⟩
    rintro (hm | ⟨q, hq, u, -, hj, -⟩)
    · exact .inl (.inl hm)
    · rw [List.perm_singleton.mp hperm, List.mem_singleton] at hq
      exact .inr ⟨p, u, hp, hq ▸ hj⟩
  | @work p p' rest inside' docs' hperm hw hperm' =>
    obtain rfl := hx.rest_eq_nil hperm
    have hheld := hs.held_of_mem (hperm.mem_iff.mpr List.mem_cons_self)
    refine hiff ?_
    simp only [K, List.perm_singleton.mp hperm, List.perm_singleton.mp hperm', List.mem_singleton,
      exists_eq_left]
    cases hw with
    | db hdb => exact hdb.covered_iff hheld fun hr' => hr (congrArg Event.db hr')
    | next hn =>
      exact or_congr .rfl (inserts_congr (Return.newcomer_call hn) (Return.joiner_call hn).1 rfl)
  | leave hperm hL =>
    obtain rfl := hx.rest_eq_nil hperm
    cases hL with
    | leave hL =>
      refine hiff ?_
      simp only [K, List.perm_singleton.mp hperm, List.mem_singleton, exists_eq_left,
        List.not_mem_nil, false_and, exists_false, or_false]
      exact (or_iff_left (not_inserts (Return.newcomer_of_leaves hL))).symm
  | giveUp _ hX => exact absurd hX (he.not_givesUp _)

/-! ### From the disconnect to the deletion -/

/-- The clean-up of the socket is about to look for its document. -/
def Server.Due (sv : Server) (s : SocketId) : Prop :=
  .wait s ∈ sv.tasks ∨ .call (.deleting s) ∈ sv.phases

/-- A clean-up looks for the document after the disconnect, and again after it has found none. -/
theorem Step.due (h : Step room sv e sv') (hd : sv'.Due s) : sv.Due s ∨ e = .disconnect s ∨
    ∃ n, n ≠ 1 ∧ .ret (.deleted s n) ∈ sv.phases := by
  obtain ⟨old, new, hm, ⟨hmem, -⟩, -, hback⟩ := h.moved_mem
  have hfrees {l : List Task} (hf : Frees sv s e l) (hl : old = l) :
      sv.Due s ∨ e = .disconnect s ∨ ∃ n, n ≠ 1 ∧ .ret (.deleted s n) ∈ sv.phases := by
    subst hl
    cases hf with
    | disconnect => exact .inr (.inl rfl)
    | wait => exact .inl (.inl (hmem _ List.mem_cons_self))
  rcases hd with ht | hp
  · rcases hback _ ht with ht | ht
    · cases hm with
      | wait hf => cases List.mem_singleton.mp ht; exact hfrees hf rfl
      | @miss r s' hn =>
        cases List.mem_singleton.mp ht
        have hc := r.continues sv.connected sv.userOf
        rw [hn] at hc
        cases hc with
        | missed hr hne =>
          subst hr
          exact .inr (.inr ⟨_, hne, Server.mem_phases.mpr (hmem _ List.mem_cons_self)⟩)
      | announce | leave | rejoin | reindexed | refused | dropped | stay | skip | finish | freed
      | reject => cases ht
      | index | join | indexed | later | enter | free | db | next =>
        cases List.mem_singleton.mp ht
    · exact .inl (.inl ht)
  · rcases hback _ (Server.mem_phases.mp hp) with ht | ht
    · cases hm with
      | free hf => cases List.mem_singleton.mp ht; exact hfrees hf rfl
      | next hn =>
        cases List.mem_singleton.mp ht
        exact absurd rfl (Return.call_ne_deleting hn s)
      | announce | leave | rejoin | reindexed | refused | dropped | stay | skip | finish | freed
      | reject => cases ht
      | index | join | indexed | later | enter | wait | db | miss =>
        cases List.mem_singleton.mp ht
    · exact .inl (.inr (Server.mem_phases.mpr ht))

/-- After the disconnect of a socket that was covered, or was not: `b` tells which. -/
structure Server.Leaving (sv : Server) (s : SocketId) (b : Prop) : Prop where
  tidy : sv.Tidy
  gone : sv.connected s = false
  user : ∃ u, sv.user s = some u
  due : b → sv.Due s → sv.Covered s
  uncovered : ¬ b → ¬ sv.Covered s
  deleted : ∀ n, .ret (.deleted s n) ∈ sv.phases → (n = 1 ↔ b)

/-- While the clean-up looks for the document no broadcast is about to insert it. -/
theorem Server.Held.covered_iff (hs : sv.Held) (hp : p ∈ sv.phases) (hn : p.newcomer = none) :
    sv.Covered s ↔ s ∈ addrs sv.docs := by
  refine or_iff_left fun ⟨q, hq, hi⟩ => ?_
  obtain rfl := hs.guarded.excl.eq_of_mem hp hq
  exact not_inserts hn hi

/-- The answer to the deletion comes from a clean-up that was looking. -/
theorem Step.deleted (h : Step room sv e sv') {n : ℕ} (hp : .ret (.deleted s n) ∈ sv'.phases) :
    .ret (.deleted s n) ∈ sv.phases ∨ e = .db (.deleted s n) ∧ .call (.deleting s) ∈ sv.phases ∧
      DeleteOne (fun d => d.addr = s) sv.docs n sv'.docs := by
  rcases h.phase_cases hp with hp | hE | ⟨p, hp, hW⟩
  · exact .inl hp
  · cases hE
  · generalize sv.docs = docs, sv'.docs = docs' at hW ⊢
    cases hW with
    | db hdb =>
      cases hdb with
      | delete _ hdel => exact .inr ⟨rfl, hp, hdel⟩

theorem Server.Tidy.not_due (hs : sv.Tidy) {n : ℕ} (hp : .ret (.deleted s n) ∈ sv.phases) :
    ¬ sv.Due s := by
  have hp := Server.mem_phases.mp hp
  rintro (ht | ht)
  · cases Lts.eq_of_nodup_filterMap hs.frees hp ht rfl rfl
  · cases Lts.eq_of_nodup_filterMap hs.frees hp (Server.mem_phases.mp ht) rfl rfl

/-- What the deletion answers is what the disconnect has decided. -/
theorem Step.deleted_iff (h : Step room sv e sv') (hs : sv.Leaving s b) {n : ℕ}
    (hp : .ret (.deleted s n) ∈ sv'.phases) : n = 1 ↔ b := by
  rcases h.deleted hp with hp | ⟨-, hp, hdel⟩
  · exact hs.deleted n hp
  · have hcov : sv.Covered s ↔ s ∈ addrs sv.docs := hs.tidy.held.covered_iff hp rfl
    constructor
    · rintro rfl
      obtain ⟨l₁, d, l₂, hd, hl, -⟩ := hdel.of_one
      by_contra hb
      exact hs.uncovered hb (hcov.mpr (mem_addrs.mpr ⟨d, hl ▸ by simp, hd⟩))
    · intro hb
      obtain ⟨d, hd, ha⟩ := mem_addrs.mp (hcov.mp (hs.due hb (.inr hp)))
      exact hdel.eq_one_of_mem hd ha

theorem Step.leaving (h : Step room sv e sv') (he : e.Succeeds) (hs : sv.Leaving s b) :
    sv'.Leaving s b := by
  obtain ⟨u, hu⟩ := hs.user
  have htidy := h.tidy he hs.tidy
  have hdel {n : ℕ} (hp : .ret (.deleted s n) ∈ sv'.phases) : n = 1 ↔ b := h.deleted_iff hs hp
  have hgone : sv.connected s ≠ true := by simp [hs.gone]
  refine ⟨htidy, (h.gone hs.gone hu).1, ⟨u, (h.gone hs.gone hu).2⟩, fun hb hd => ?_, fun hb => ?_,
    fun n => hdel⟩
  · have hr : e ≠ .db (.deleted s 1) := by
      rintro rfl
      exact htidy.not_due h.answered hd
    refine (h.covered he hs.tidy.held hr).1 ?_
    rcases h.due hd with hd | rfl | ⟨n, hn, hp⟩
    · exact hs.due hb hd
    · exact absurd h.disconnected.1 hgone
    · exact absurd ((hs.deleted n hp).mpr hb) hn
  · have hr : e ≠ .db (.deleted s 1) := by
      rintro rfl
      exact hb ((hdel h.answered).mp rfl)
    intro hc
    rcases (h.covered he hs.tidy.held hr).2 hc with hc | ⟨p, u, hE, hj⟩
    · exact hs.uncovered hb hc
    · exact hgone (hE.joiner_connected hj)

/-- The disconnect decides. -/
theorem Step.leaving_of_disconnect (h : Step room sv (.disconnect s) sv') (hs : sv.Tidy) :
    sv'.Leaving s (sv.Covered s) := by
  obtain ⟨hc, hc'⟩ := h.disconnected
  obtain ⟨u, hu⟩ := hs.held.users s hc
  have hcov : sv'.Covered s ↔ sv.Covered s := by
    obtain ⟨hmp, hmpr⟩ := h.covered (s := s) trivial hs.held nofun
    refine ⟨fun hc => (hmpr hc).elim id ?_, hmp⟩
    rintro ⟨p, u, hE, hj⟩
    cases hE with
    | disconnect => cases hj
  refine ⟨h.tidy trivial hs, hc', ⟨u, h.user_mono hu⟩, fun hb _ => hcov.mpr hb,
    fun hb hb' => hb (hcov.mp hb'), fun n hp => ?_⟩
  rcases h.deleted hp with hp | ⟨he, -⟩
  · have hm : s ∈ sv.frees := mem_frees_of_phase hp rfl
    rw [(hs.gone s hm).1] at hc
    cases hc
  · cases he

theorem leaving_of_run {tr : List Event} (h : Lts.Run (MongoStep room) sv tr sv')
    (hs : sv.Leaving s b) : sv'.Leaving s b :=
  h.invariant hs fun _ _ _ hs he => he.1.leaving he.2 hs

/-- A clean-up is that of a socket that has disconnected. -/
theorem run_disconnected {tr : List Event} (h : Lts.Run (MongoStep room) Server.start tr sv)
    (hs : s ∈ sv.frees) : ∃ t₁ t₂ sv₁ sv₂, tr = t₁ ++ .disconnect s :: t₂ ∧
      Lts.Run (MongoStep room) Server.start t₁ sv₁ ∧ Step room sv₁ (.disconnect s) sv₂ ∧
      Lts.Run (MongoStep room) sv₂ t₂ sv := by
  induction h generalizing s with
  | nil => cases hs
  | @snoc tr sv sv' e hr he ih =>
    have hold (hs : s ∈ sv.frees) : ∃ t₁ t₂ sv₁ sv₂, tr ++ [e] = t₁ ++ .disconnect s :: t₂ ∧
        Lts.Run (MongoStep room) Server.start t₁ sv₁ ∧ Step room sv₁ (.disconnect s) sv₂ ∧
        Lts.Run (MongoStep room) sv₂ t₂ sv' := by
      obtain ⟨t₁, t₂, sv₁, sv₂, rfl, h₁, hd, h₂⟩ := ih hs
      exact ⟨t₁, t₂ ++ [e], sv₁, sv₂, by simp, h₁, hd, h₂.snoc he⟩
    rcases he.1.frees with hsub | ⟨s', rfl, -, hp⟩
    · exact hold (hsub.subset hs)
    · rcases List.mem_cons.mp (hp.mem_iff.mp hs) with rfl | hs
      · exact ⟨tr, [], sv, sv', rfl, hr, he.1, .nil⟩
      · exact hold hs

/-- **Is the retry in vain?** Whenever a clean-up has looked for the document of its socket, it has
found it, or a document can still come to that address, if and only if the socket was covered when it
disconnected. -/
theorem run_deleted_iff {tr : List Event} {n : ℕ}
    (h : Lts.Run (MongoStep room) Server.start tr sv) (hp : .ret (.deleted s n) ∈ sv.phases) :
    ∃ t₁ t₂ sv₁ sv₂, tr = t₁ ++ .disconnect s :: t₂ ∧
      Lts.Run (MongoStep room) Server.start t₁ sv₁ ∧ Step room sv₁ (.disconnect s) sv₂ ∧
      Lts.Run (MongoStep room) sv₂ t₂ sv ∧
      ((n = 1 ∨ ∃ tr' sv', Lts.Run (MongoStep room) sv tr' sv' ∧ ∃ d ∈ sv'.docs, d.addr = s) ↔
        sv₁.Covered s) := by
  have hm : s ∈ sv.frees := mem_frees_of_phase hp rfl
  obtain ⟨t₁, t₂, sv₁, sv₂, htr, h₁, hd, h₂⟩ := run_disconnected h hm
  have hs := leaving_of_run h₂ (hd.leaving_of_disconnect (run_tidy h₁))
  refine ⟨t₁, t₂, sv₁, sv₂, htr, h₁, hd, h₂, ?_, fun hb => .inl ((hs.deleted n hp).mpr hb)⟩
  rintro (hn | ⟨tr', sv', h', hdoc⟩)
  · exact (hs.deleted n hp).mp hn
  · by_contra hb
    exact (leaving_of_run h' hs).uncovered hb (.inl (mem_addrs.mpr hdoc))

/-- The socket is gone before the callback of `socket.join` runs. -/
def cutShort : List Command :=
  [.announce "S0" "a", .join "S0", .run 0 0, .disconnect "S0", .run 0 0, .run 0 0]

theorem not_retried_for_a_broadcast : ¬ ∀ tr sv s n,
    Lts.Run (MongoStep "r") Server.start tr sv → .ret (.deleted s n) ∈ sv.phases →
      n = 1 ∨ s ∈ sv.chains := by
  intro h
  obtain ⟨tr, sv, hr, hp, hs⟩ := Server.exists_run "r" cutShort (fun _ e => e.Succeeds)
    (fun _ sv => Phase.ret (.deleted "S0" 0) ∈ sv.phases ∧ "S0" ∉ sv.chains) (by decide +kernel)
  rcases h tr sv "S0" 0 hr hp with hn | hc
  · cases hn
  · exact hs hc

theorem run_deleted_iff_founding : ∃ tr sv, Lts.Run (MongoStep "r") Server.start tr sv ∧
    .ret (.deleted "S0" 1) ∈ sv.phases ∧
    ∃ t₁ t₂ sv₁ sv₂, tr = t₁ ++ .disconnect "S0" :: t₂ ∧
      Lts.Run (MongoStep "r") Server.start t₁ sv₁ ∧ Step "r" sv₁ (.disconnect "S0") sv₂ ∧
      Lts.Run (MongoStep "r") sv₂ t₂ sv ∧
      ((1 = 1 ∨ ∃ tr' sv', Lts.Run (MongoStep "r") sv tr' sv' ∧ ∃ d ∈ sv'.docs, d.addr = "S0") ↔
        sv₁.Covered "S0") := by
  obtain ⟨tr, sv, hr, hp⟩ := Server.exists_run "r"
    (founding "S0" "a" ++ [.disconnect "S0", .run 0 0]) (fun _ e => e.Succeeds)
    (fun _ sv => Phase.ret (.deleted "S0" 1) ∈ sv.phases) (by decide +kernel)
  exact ⟨tr, sv, hr, hp, run_deleted_iff hr hp⟩

end Yamb.Symple
