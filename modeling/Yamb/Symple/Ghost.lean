import Yamb.Symple.Churn
import Yamb.Symple.Cleanup

/-!
# No ghost after the clean-up

* `held_freed`: when `free` comes to its end, nobody lists the user and it has no document;
* `Server.Buried`: that, and no broadcast that could bring the user back;
* **`run_no_ghost`**: once buried, for ever.
-/

set_option autoImplicit false

namespace Yamb.Symple

variable {user : SocketId → Option UserId} {docs : List Doc} {room : RoomId} {sv sv' : Server}
  {e : Event} {s : SocketId} {u : UserId} {r : Return}

theorem repair_eq_freed {connected : SocketId → Bool} {s' : SocketId} :
    ∀ {l : List Aggr}, repair connected s l = .freed s' → s' = s
  | [], h => (Next.freed.inj h).symm
  | t :: l, h => by
    unfold repair at h
    split_ifs at h
    exact repair_eq_freed h

theorem Cleared.freed {connected : SocketId → Bool} {s' : SocketId}
    {rest rest' : List Aggr} (h : Cleared user docs s u rest)
    (hn : Symple.repair connected s rest' = .freed s') : Cleared user docs s' u [] := by
  obtain rfl := repair_eq_freed hn
  exact h.subset (List.nil_subset _)

theorem Unlinking.freed {connected : SocketId → Bool} {s' : SocketId} {tmpaggrs rest : List Aggr}
    (h : Unlinking user docs s u tmpaggrs rest)
    (hn : Symple.unlink connected s tmpaggrs rest = .freed s') : Cleared user docs s' u [] := by
  cases rest with
  | nil => exact h.cleared.freed hn
  | cons t rest => cases hn

/-- The end of `free`. -/
theorem held_freed {connected : SocketId → Bool} {userOf : SocketId → UserId}
    (h : Held user docs (.ret r)) (hn : r.next connected userOf = .freed s) :
    ∃ u, Cleared user docs s u [] := by
  match r, h with
  | .picked client iterations sendTo none, _ => cases hn
  | .picked client iterations sendTo (some cl), _ =>
    simp only [Return.next] at hn
    split_ifs at hn
  | .owned client sendTo none, _ | .owned client sendTo (some _), _ | .inserted client sendTo, _ =>
    cases hn
  | .deleted s' n, _ =>
    simp only [Return.next] at hn
    split_ifs at hn
  | .aggregated s' tmpaggrs, ⟨u, h⟩ => exact ⟨u, h.freed hn⟩
  | .updated s' tmpaggrs rest, ⟨u, h⟩ => exact ⟨u, h.freed hn⟩
  | .repicked s' t rest none, ⟨u, h, _⟩ => exact ⟨u, h.freed hn⟩
  | .repicked s' t rest (some cl), _ => cases hn
  | .linked s' t cl rest, ⟨u, h⟩ => exact ⟨u, h.freed hn⟩

/-- The user of a socket that is gone is not seen, and no broadcast is under way for it. -/
structure Server.Buried (sv : Server) (s : SocketId) (u : UserId) : Prop where
  held : sv.Held
  gone : sv.connected s = false
  user : sv.user s = some u
  unseen : ¬ Seen sv.docs u
  idle : ∀ p ∈ sv.phases, ∀ s', p.joiner ≠ some (s', u)

theorem Server.Enters.joiner_user {p : Phase} (h : sv.Enters room e p) (hs : sv.Held)
    (hj : p.joiner = some (s, u)) : sv.connected s = true ∧ sv.user s = some u := by
  have hc := h.joiner_connected hj
  refine ⟨hc, ?_⟩
  obtain ⟨u', hu'⟩ := hs.users s hc
  have hpick {s' : SocketId} (hj : some (s', sv.userOf s') = some (s, u)) : sv.user s = some u := by
    cases hj
    rw [hu', Server.userOf_of_user hu']
  cases h with
  | joined => exact hpick hj
  | retry => exact hpick hj
  | wait => cases hj
  | disconnect => cases hj

theorem Step.buried (h : Step room sv e sv') (he : e.Succeeds) (hd : sv.Distinct)
    (hs : sv.Buried s u) : sv'.Buried s u where
  held := h.held he hs.held
  gone := (h.gone hs.gone hs.user).1
  user := h.user_mono hs.user
  unseen hseen := by
    rcases h.docs_seen hs.held hseen with hseen | ⟨p, hp, s', hj, -⟩
    · exact hs.unseen hseen
    · exact hs.idle p hp s' hj
  idle p' hp' s' hj := by
    rcases h.phase_cases hp' with hp | hE | ⟨p, hp, hW⟩
    · exact hs.idle p' hp s' hj
    · obtain ⟨hc, hu⟩ := hE.joiner_user hs.held hj
      obtain rfl := hd s' s u hu hs.user
      rw [hs.gone] at hc
      cases hc
    · exact hs.idle p hp s' ((joiner_of_works hW).symm.trans hj)

/-- The clean-up buries the user. -/
theorem Step.buried_of_freed (h : Step room sv (.resume r) sv') (hs : sv.Tidy)
    (hn : r.next sv.connected sv.userOf = .freed s) (hu : sv.user s = some u) :
    sv'.Buried s u := by
  have hr := h.returns
  have hm : s ∈ sv.frees := mem_frees_of_phase hr (Return.leaver_freed hn)
  have hdocs : sv'.docs = sv.docs := by
    rcases h.docs_cases with ⟨-, hd⟩ | ⟨c, r', he, -⟩
    · exact hd
    · cases he
  obtain ⟨u', hc⟩ := held_freed (hs.held.held_of_mem hr) hn
  obtain rfl : u = u' := Option.some.inj (hu.symm.trans hc.owner)
  -- the clean-up was alone in its critical section
  have hidle : ∀ p ∈ sv.phases, ∀ s', p.joiner ≠ some (s', u) := by
    intro p hp s' hj
    obtain rfl := hs.held.guarded.excl.eq_of_mem hr hp
    rw [Return.joiner_freed hn] at hj
    cases hj
  refine ⟨h.held trivial hs.held, (h.gone (hs.gone s hm).1 hu).1, h.user_mono hu, ?_, ?_⟩
  · rw [hdocs]
    rintro (hm | ⟨b, hl⟩)
    · exact hc.absent hm
    · exact hc.unlisted b hl
  · intro p' hp' s' hj
    rcases h.phase_cases hp' with hp | hE | ⟨p, hp, hW⟩
    · exact hidle p' hp s' hj
    · cases hE
    · exact hidle p hp s' ((joiner_of_works hW).symm.trans hj)

/-- **No ghosts.** From the end of the clean-up of a socket on, its user has no document and is in
none. -/
theorem run_no_ghost {sv₁ sv₂ : Server} {tr₁ tr₂ : List Event}
    (h₁ : Lts.Run (MongoStep room) Server.start tr₁ sv₁) (he : Step room sv₁ (.resume r) sv₂)
    (hn : r.next sv₁.connected sv₁.userOf = .freed s) (hu : sv₁.user s = some u)
    (h₂ : Lts.Run (MongoStep room) sv₂ tr₂ sv) (hd : sv.Distinct) :
    ∀ d ∈ sv.docs, d.sockId ≠ u ∧ u ∉ d.connects := by
  have hb : sv.Buried s u :=
    h₂.invariant_while hd (fun _ _ _ he => he.1.distinct) (he.buried_of_freed (run_tidy h₁) hn hu)
      fun _ _ _ hd _ hs he => he.1.buried he.2 hd hs
  intro d hd
  refine ⟨fun hk => hb.unseen (.inl (hk ▸ List.mem_map_of_mem hd)), fun hl => ?_⟩
  exact hb.unseen (.inr ⟨d.sockId, d, hd, rfl, hl⟩)

/-- `b` comes and goes, then `c` comes. -/
def passing : List Command :=
  founding "S0" "a" ++ joining "S1" "b" 0 0 ++ [.disconnect "S1"] ++ steps (List.replicate 8 0) ++
    joining "S2" "c" 0 0

theorem run_no_ghost_passing : ∃ tr₁ sv₁ r sv₂ tr₂ sv,
    Lts.Run (MongoStep "r") Server.start tr₁ sv₁ ∧ Step "r" sv₁ (.resume r) sv₂ ∧
    r.next sv₁.connected sv₁.userOf = .freed "S1" ∧ sv₁.user "S1" = some "b" ∧
    Lts.Run (MongoStep "r") sv₂ tr₂ sv ∧ sv.Distinct ∧ sv.docs.length = 2 ∧
    ∀ d ∈ sv.docs, d.sockId ≠ "b" ∧ "b" ∉ d.connects := by
  obtain ⟨tr, sv, hr, ha, he, hu, hl⟩ := Server.exists_run "r" passing (fun _ e => e.Succeeds)
    (fun tr sv => (∀ x ∈ announced tr, ∀ y ∈ announced tr, x.2 = y.2 → x.1 = y.1) ∧
      Event.resume (.repicked "S1" ⟨⟨0, "S0", ["b"], 1, "a"⟩, []⟩ [] none) ∈ tr ∧
      sv.user "S1" = some "b" ∧ sv.docs.length = 2)
    (by decide +kernel)
  have hd := distinct_of_announced hr.of_only ha
  obtain ⟨tr₁, tr₂, rfl⟩ := List.append_of_mem he
  obtain ⟨sv₁, sv₂, h₁, ⟨hs, -⟩, h₂⟩ := hr.split
  have hm : "S1" ∈ sv₁.frees := mem_frees_of_phase hs.returns rfl
  obtain ⟨-, u, hu₁⟩ := (run_tidy h₁).gone "S1" hm
  have hu' : sv.user "S1" = some u :=
    h₂.invariant (I := fun sv => sv.user "S1" = some u) (hs.user_mono hu₁)
      fun _ _ _ hu he => he.1.user_mono hu
  obtain rfl : u = "b" := Option.some.inj (hu'.symm.trans hu)
  exact ⟨tr₁, sv₁, _, sv₂, tr₂, sv, h₁, hs, rfl, hu₁, h₂, hd, hl, run_no_ghost h₁ hs rfl hu₁ h₂ hd⟩

end Yamb.Symple
