import Yamb.Symple.Churn
import Yamb.Symple.Counters
import Yamb.Symple.Script

/-!
# Are the links of a room symmetric?

A joiner and the documents it picks list each other. In the repair after a disconnect only the picked
document lists the other one: the second write looks for a user by an address.

* `Newcomer`: a user that has no document yet; once it has had one it never is one again
  (`Step.newcomer`);
* `Repicked`: the picks that repairs have made in a run;
* `Mirrored`, `DbStep.mirrored`: the links between documents are symmetric but for those picks;
* **`run_symmetric_iff`**: the links are symmetric exactly when the picks between the documents are.
-/

set_option autoImplicit false

namespace Yamb.Symple

open Collection

variable {user : SocketId → Option UserId} {docs docs' : List Doc} {room : RoomId}
  {sv sv' : Server} {e : Event} {a b : UserId}

/-! ### Newcomers -/

def Newcomer (sv : Server) (a : UserId) : Prop :=
  (∃ s, sv.user s = some a ∧ sv.Waiting s) ∨ ∃ p ∈ sv.phases, p.newcomer = some a

theorem Strange.not_mem {p : Phase} (h : Strange docs p) (hp : p.newcomer = some a) :
    a ∉ members docs := by
  match p, h with
  | .call (.picking ..), h | .call (.owning ..), h | .call (.inserting ..), h
  | .ret (.picked _ _ _ none), h | .ret (.owned _ _ none), h =>
    cases hp
    exact h.absent
  | .ret (.picked _ _ _ (some _)), h =>
    cases hp
    exact h.absent
  | .ret (.owned _ _ (some _)), _ | .ret (.inserted ..), _ | .call (.deleting _), _
  | .call (.aggregating ..), _ | .call (.updating ..), _ | .call (.repicking ..), _
  | .call (.linking ..), _
  | .ret (.deleted ..), _ | .ret (.aggregated ..), _ | .ret (.updated ..), _
  | .ret (.repicked ..), _ | .ret (.linked ..), _ => cases hp

theorem Server.Fresh.not_mem (h : sv.Fresh) (ha : Newcomer sv a) : a ∉ members sv.docs := by
  rcases ha with ⟨s, hu, hw⟩ | ⟨p, hp, hn⟩
  · exact fun hm => h.unseen s a hu hw (.inl hm)
  · exact (h.strange.at_of_mem hp).not_mem hn

theorem newcomer_of_enters {p : Phase} (h : sv.Enters room e p)
    (hu : ∀ s, sv.connected s = true → ∃ u, sv.user s = some u) (hn : p.newcomer = some a) :
    Newcomer sv a := by
  have hpick {s : SocketId} (hc : sv.connected s = true) (hw : sv.Waiting s)
      (hn : some (sv.userOf s) = some a) : Newcomer sv a := by
    obtain ⟨u, hu⟩ := hu s hc
    rw [Server.userOf_of_user hu] at hn
    exact .inl ⟨s, hu.trans hn, hw⟩
  cases h with
  | joined h hc => exact hpick hc (.inr (.inl h)) hn
  | retry h hc => exact hpick hc (.inr (.inr h)) hn
  | wait => cases hn
  | disconnect => cases hn

/-- A known user is a newcomer only as long as it has been one. -/
theorem Step.newcomer (h : Step room sv e sv') (he : e.Churn) (hd : sv'.Distinct) (hs : sv.Held)
    {s : SocketId} (hu : sv.user s = some a) (ha : Newcomer sv' a) : Newcomer sv a := by
  rcases ha with ⟨s', hu', hw⟩ | ⟨p', hp', hn⟩
  · obtain rfl := hd s' s a hu' (h.user_mono hu)
    exact .inl ⟨s', hu, h.waiting he hw⟩
  · rcases h.phase_cases hp' with hp | hE | ⟨p, hp, hW⟩
    · exact .inr ⟨p', hp, hn⟩
    · exact newcomer_of_enters hE hs.users hn
    · exact .inr ⟨p, hp, newcomer_of_work hW hn⟩

/-! ### Picks of repairs -/

/-- The users of the documents that a repair links: the one repaired and the one it picks. -/
def Event.repicks : Event → Option (UserId × UserId)
  | .db (.repicked _ t _ (some cl)) => some (t.sockId, cl.sockId)
  | _ => none

/-- A repair of the document of `a` has picked the document of `b`. -/
def Repicked (tr : List Event) (a b : UserId) : Prop := (a, b) ∈ tr.filterMap Event.repicks

instance (tr : List Event) (a b : UserId) : Decidable (Repicked tr a b) :=
  inferInstanceAs (Decidable ((a, b) ∈ tr.filterMap Event.repicks))

theorem repicked_append {tr : List Event} : Repicked (tr ++ [e]) a b ↔
    Repicked tr a b ∨ e.repicks = some (a, b) := by
  rw [Repicked, Repicked, List.filterMap_append, List.mem_append, List.mem_filterMap]
  simp

/-- The links between documents are symmetric, but for the pairs of `R`, where the second lists the
first. -/
structure Mirrored (R : UserId → UserId → Prop) (docs : List Doc) : Prop where
  listed : ∀ a ∈ members docs, ∀ b ∈ members docs, R a b → Lists docs b a
  mirror : ∀ a ∈ members docs, ∀ b ∈ members docs, Lists docs b a → ¬ R a b →
    Lists docs a b ∧ ¬ R b a

variable {R R' : UserId → UserId → Prop}

/-- The documents that are there afterwards were there before, with the same links among them. -/
theorem Mirrored.congr (h : Mirrored R docs) (hR : ∀ a b, R' a b ↔ R a b)
    (hm : ∀ a ∈ members docs', a ∈ members docs)
    (hl : ∀ a ∈ members docs', ∀ b ∈ members docs', Lists docs' a b ↔ Lists docs a b) :
    Mirrored R' docs' where
  listed a ha b hb hab := (hl b hb a ha).mpr (h.listed a (hm a ha) b (hm b hb) ((hR a b).mp hab))
  mirror a ha b hb hba hab := by
    rw [hR] at hab ⊢
    rw [hl a ha b hb]
    exact h.mirror a (hm a ha) b (hm b hb) ((hl b hb a ha).mp hba) hab

/-- Links to a user without a document do not count. -/
theorem Mirrored.push_absent (h : Mirrored R docs) (hR : ∀ a b, R' a b ↔ R a b) {p : Doc → Prop}
    {u : UserId} {found : Option Doc} (hp : UpdateOne p (Doc.push [u]) docs found docs')
    (hu : u ∉ members docs) : Mirrored R' docs' := by
  refine h.congr hR (fun a ha => members_of_push hp ▸ ha) fun a _ b hb => ?_
  rw [lists_of_push hp]
  refine or_iff_left ?_
  rintro ⟨d, -, -, hb'⟩
  obtain rfl := List.mem_singleton.mp hb'
  exact hu (members_of_push hp ▸ hb)

/-- The document of a joiner lists those that list it. -/
theorem Mirrored.insert (h : Mirrored R docs) (hR : ∀ a b, R' a b ↔ R a b) {client : Client}
    {id : ℕ} (hc : Collected user docs client) (hs : Stranger docs client)
    (hn : ∀ b, ¬ R client.sockId b ∧ ¬ R b client.sockId) :
    Mirrored R' (docs ++ [client.doc id]) := by
  have hne {a : UserId} (ha : a ∈ members docs) : client.sockId ≠ a := fun he => hs.absent (he ▸ ha)
  constructor
  · intro a ha b hb hab
    rw [hR] at hab
    rw [members_insert, List.mem_append, List.mem_singleton] at ha hb
    rcases ha with ha | rfl
    · rcases hb with hb | rfl
      · exact lists_insert.mpr (.inl (h.listed a ha b hb hab))
      · exact absurd hab (hn a).2
    · exact absurd hab (hn b).1
  · intro a ha b hb hba hab
    rw [hR] at hab ⊢
    rw [members_insert, List.mem_append, List.mem_singleton] at ha hb
    rw [lists_insert] at hba ⊢
    rcases ha with ha | rfl
    · rcases hb with hb | rfl
      · have hba := hba.resolve_right fun hb' => hne hb hb'.1
        exact (h.mirror a ha b hb hba hab).imp .inl fun hn => hn
      · have hmem := hba.elim (fun hl => absurd hl.mem_members hs.absent) And.right
        exact ⟨.inl (hc.picked a hmem).2, (hn a).1⟩
    · rcases hba with hba | ⟨-, hmem⟩
      · exact ⟨.inr ⟨rfl, hs.listed b hba⟩, (hn b).2⟩
      · exact absurd rfl (hc.picked client.sockId hmem).1

/-- A repair adds the link that it is known by. -/
theorem Mirrored.repick (h : Mirrored R docs) (hs : Sound user docs) {u : UserId} {cl : Doc}
    (hp : UpdateOne (Doc.Eligible u) (Doc.push [u]) docs (some cl) docs')
    (hR : ∀ a b, R' a b ↔ R a b ∨ some (u, cl.sockId) = some (a, b)) : Mirrored R' docs' := by
  have hl {a b : UserId} : Lists docs' b a ↔ Lists docs b a ∨ cl.sockId = b ∧ a = u := by
    rw [lists_of_push hp]
    simp
  have hnl : ¬ Lists docs cl.sockId u := by
    rintro ⟨d, hd, hk, hu⟩
    obtain rfl := List.inj_on_of_nodup_map hs.nodup hd hp.value_mem hk
    exact hp.value_matches.2.1 hu
  constructor
  · intro a ha b hb hab
    rw [members_of_push hp] at ha hb
    rw [hl]
    rcases (hR a b).mp hab with hab | hab
    · exact .inl (h.listed a ha b hb hab)
    · obtain ⟨rfl, rfl⟩ := Prod.mk.inj (Option.some.inj hab)
      exact .inr ⟨rfl, rfl⟩
  · intro a ha b hb hba hab
    rw [members_of_push hp] at ha hb
    rw [hR, not_or] at hab
    have hba : Lists docs b a := (hl.mp hba).resolve_right fun ⟨hb', ha'⟩ => hab.2 (by rw [ha', hb'])
    obtain ⟨hab', hn⟩ := h.mirror a ha b hb hba hab.1
    refine ⟨hl.mpr (.inl hab'), fun hc => ?_⟩
    rcases (hR b a).mp hc with hc | hc
    · exact hn hc
    · obtain ⟨rfl, rfl⟩ := Prod.mk.inj (Option.some.inj hc)
      exact hnl hab'

theorem DbStep.mirrored {c : Call} {r : Return} (h : DbStep docs c docs' r)
    (ha : ∀ s s', user s ≠ none → user s' ≠ some s) (hs : Sound user docs)
    (hc : Held user docs (.call c)) (hst : Strange docs (.call c)) (hm : Mirrored R docs)
    (hn : ∀ a, (Phase.call c).newcomer = some a → ∀ b, ¬ R a b ∧ ¬ R b a)
    (hR : ∀ a b, R' a b ↔ R a b ∨ (Event.db r).repicks = some (a, b)) : Mirrored R' docs' := by
  have hold (hr : (Event.db r).repicks = none) (a b : UserId) : R' a b ↔ R a b := by
    rw [hR, hr]
    exact or_iff_left nofun
  cases h with
  | pick client iterations sendTo h =>
    have hst : Stranger docs client := hst
    exact hm.push_absent (hold rfl) h hst.absent
  | @own _ upd client sendTo h =>
    have hst : Stranger docs client := hst
    cases upd with
    | none =>
      rw [h.of_none.1]
      exact hm.congr (hold rfl) (fun _ h => h) fun _ _ _ _ => .rfl
    | some d => exact absurd (mem_members.mpr ⟨d, h.value_mem, h.value_matches⟩) hst.absent
  | insert client sendTo id h => exact hm.insert (hold rfl) hc.1 hst (hn _ rfl)
  | @delete _ n s h =>
    rcases h.eq_zero_or_one with rfl | rfl
    · rw [h.of_zero.1]
      exact hm.congr (hold rfl) (fun _ h => h) fun _ _ _ _ => .rfl
    · obtain ⟨d, -, -, -, habs, hmem⟩ := hs.not_mem_of_delete h
      refine hm.congr (hold rfl) (fun a hma => ?_) fun a hma b hmb => ⟨?_, ?_⟩
      · obtain ⟨x, hx, rfl⟩ := mem_members.mp hma
        exact List.mem_map_of_mem ((hmem x).mp hx).1
      · rintro ⟨x, hx, hk, hl⟩
        exact ⟨x, ((hmem x).mp hx).1, hk, hl⟩
      · rintro ⟨x, hx, rfl, hl⟩
        exact ⟨x, (hmem x).mpr ⟨hx, fun he => habs (he ▸ hma)⟩, rfl, hl⟩
  | aggregate s u => exact hm.congr (hold rfl) (fun _ h => h) fun _ _ _ _ => .rfl
  | update s tmpaggrs t rest h =>
    obtain ⟨u, hc⟩ := hc
    refine hm.congr (hold rfl) (fun a ha => members_of_pull h ▸ ha) fun a _ b hb => ?_
    refine hc.lists_iff hs h fun hu => hc.absent ?_
    exact hu ▸ members_of_pull h ▸ hb
  | @repick _ cl s t rest h =>
    cases cl with
    | none =>
      rw [h.of_none.1]
      exact hm.congr (hold rfl) (fun _ h => h) fun _ _ _ _ => .rfl
    | some cl => exact hm.repick hs h hR
  | link s t cl rest h =>
    obtain ⟨u, hc, -⟩ := hc
    rw [(link_missed ha hs (hc.kept t List.mem_cons_self) h).2]
    exact hm.congr (hold rfl) (fun _ h => h) fun _ _ _ _ => .rfl

/-! ### Runs -/

/-- The users of past picks have had a document, and the links are symmetric but for the picks. -/
structure Server.Linked (tr : List Event) (sv : Server) : Prop where
  fresh : sv.Fresh
  past : ∀ a b, Repicked tr a b → ¬ Newcomer sv a ∧ ¬ Newcomer sv b ∧
    (∃ s, sv.user s = some a) ∧ ∃ s, sv.user s = some b
  mirrored : Mirrored (Repicked tr) sv.docs

theorem start_linked : Server.start.Linked [] := ⟨start_fresh, nofun, nofun, nofun⟩

/-- A pick is of two documents. -/
theorem Step.repicks_mem (h : Step room sv e sv') (hs : sv.Held) (he : e.repicks = some (a, b)) :
    a ∈ members sv.docs ∧ b ∈ members sv.docs := by
  cases h with
  | db l₁ c l₂ docs' r hl hdb =>
    cases hdb with
    | @repick _ cl s t rest h =>
      cases cl with
      | none => cases he
      | some cl =>
        cases he
        have hmem : .call (.repicking s t rest) ∈ sv.phases :=
          Server.mem_phases.mpr (hl ▸ List.mem_append_right _ List.mem_cons_self)
        obtain ⟨u, hc⟩ := hs.held_of_mem hmem
        exact ⟨(hc.kept t List.mem_cons_self).1, List.mem_map_of_mem h.value_mem⟩
    | _ => cases he
  | _ => cases he

theorem Step.linked {tr : List Event} (h : Step room sv e sv') (he : e.Churn) (hd : sv'.Distinct)
    (ha : sv'.Apart) (hs : sv.Linked tr) : sv'.Linked (tr ++ [e]) where
  fresh := h.fresh he hd hs.fresh
  past a b hab := by
    have hpast {u : UserId} (hu : ∃ s, sv.user s = some u) (hn : ¬ Newcomer sv u) :
        ¬ Newcomer sv' u ∧ ∃ s, sv'.user s = some u := by
      obtain ⟨s, hu⟩ := hu
      exact ⟨fun hn' => hn (h.newcomer he hd hs.fresh.held hu hn'), s, h.user_mono hu⟩
    have hmem {u : UserId} (hu : u ∈ members sv.docs) :=
      hpast (hs.fresh.known u (.inl hu)) fun hn => hs.fresh.not_mem hn hu
    rcases repicked_append.mp hab with hab | hab
    · obtain ⟨hna, hnb, hua, hub⟩ := hs.past a b hab
      exact ⟨(hpast hua hna).1, (hpast hub hnb).1, (hpast hua hna).2, (hpast hub hnb).2⟩
    · obtain ⟨hma, hmb⟩ := h.repicks_mem hs.fresh.held hab
      exact ⟨(hmem hma).1, (hmem hmb).1, (hmem hma).2, (hmem hmb).2⟩
  mirrored := by
    rcases h.docs_cases with ⟨hne, hdocs⟩ | ⟨c, r, rfl, hc, hdb⟩
    · have hnone : e.repicks = none := by
        cases e with
        | db r => exact absurd rfl (hne r)
        | _ => rfl
      rw [hdocs]
      refine hs.mirrored.congr (fun a b => ?_) (fun _ h => h) fun _ _ _ _ => .rfl
      rw [repicked_append, hnone]
      exact or_iff_left nofun
    · refine hdb.mirrored (h.apart ha) hs.fresh.held.sound (hs.fresh.held.held_of_mem hc)
        (hs.fresh.strange.at_of_mem hc) hs.mirrored (fun a hn b => ?_) fun a b => repicked_append
      have hnew : Newcomer sv a := .inr ⟨_, hc, hn⟩
      exact ⟨fun hab => (hs.past a b hab).1 hnew, fun hab => (hs.past b a hab).2.1 hnew⟩

theorem run_linked {tr : List Event} (h : Lts.Run (ChurnStep room) Server.start tr sv)
    (hd : sv.Distinct) (ha : sv.Apart) : sv.Linked tr := by
  induction h with
  | nil => exact start_linked
  | snoc _ he ih => exact he.1.linked he.2 hd ha (ih (he.1.distinct hd) (he.1.apart ha))

def Symmetric (docs : List Doc) : Prop :=
  ∀ a ∈ docs, ∀ b ∈ docs, b.sockId ∈ a.connects ↔ a.sockId ∈ b.connects

instance : DecidablePred Symmetric := fun docs =>
  inferInstanceAs (Decidable (∀ a ∈ docs, ∀ b ∈ docs, b.sockId ∈ a.connects ↔ a.sockId ∈ b.connects))

theorem Sound.lists_iff (h : Sound user docs) {d : Doc} (hd : d ∈ docs) :
    Lists docs d.sockId b ↔ b ∈ d.connects := by
  constructor
  · rintro ⟨x, hx, hk, hl⟩
    obtain rfl := List.inj_on_of_nodup_map h.nodup hx hd hk
    exact hl
  · exact fun hl => ⟨d, hd, rfl, hl⟩

/-- **When the links are symmetric**: in every run of joins and disconnects of distinct users, exactly
when each pick between two documents that are there is answered by the pick the other way. -/
theorem run_symmetric_iff {tr : List Event} (h : Lts.Run (ChurnStep room) Server.start tr sv)
    (hd : sv.Distinct) (ha : sv.Apart) : Symmetric sv.docs ↔ ∀ a ∈ sv.docs, ∀ b ∈ sv.docs,
      Repicked tr a.sockId b.sockId → Repicked tr b.sockId a.sockId := by
  have hl := run_linked h hd ha
  have hs := hl.fresh.held.sound
  have hm {d : Doc} (hd : d ∈ sv.docs) : d.sockId ∈ members sv.docs := List.mem_map_of_mem hd
  constructor
  · intro hsym a ha b hb hab
    have hba := hl.mirrored.listed _ (hm ha) _ (hm hb) hab
    have hab' := (hs.lists_iff ha).mpr ((hsym b hb a ha).mp ((hs.lists_iff hb).mp hba))
    by_contra hn
    exact (hl.mirrored.mirror _ (hm hb) _ (hm ha) hab' hn).2 hab
  · intro hR
    have hone : ∀ a ∈ sv.docs, ∀ b ∈ sv.docs, b.sockId ∈ a.connects → a.sockId ∈ b.connects := by
      intro a ha b hb hab
      have hl' := (hs.lists_iff ha).mpr hab
      rw [← hs.lists_iff hb]
      by_cases hp : Repicked tr b.sockId a.sockId
      · exact hl.mirrored.listed _ (hm ha) _ (hm hb) (hR b hb a ha hp)
      · exact (hl.mirrored.mirror _ (hm hb) _ (hm ha) hl' hp).1
    exact fun a ha b hb => ⟨hone a ha b hb, hone b hb a ha⟩

/-- Five users join; when `b` goes, the repair of `c` picks `e`, and `c` does not list `e`. -/
def oneSided : List Command :=
  founding "B0" "a" ++ joining "B1" "b" 0 0 ++ joining "B2" "c" 0 0 ++ joining "B3" "d" 1 1 ++
    joining "B4" "e" 0 2 ++ [.disconnect "B1"] ++ steps (List.replicate 22 0)

theorem oneSided_run : ∃ tr sv, Lts.Run (ChurnStep "r") Server.start tr sv ∧ sv.Distinct ∧ sv.Apart ∧
    sv.critical = some false ∧ sv.phases = [] ∧ ¬ Symmetric sv.docs := by
  obtain ⟨tr, sv, hr, hd, ha, hq⟩ := Server.exists_run "r" oneSided (fun _ e => e.Churn)
    (fun tr sv => (∀ x ∈ announced tr, ∀ y ∈ announced tr, x.2 = y.2 → x.1 = y.1) ∧
      (∀ x ∈ announced tr, ∀ y ∈ announced tr, y.2 ≠ x.1) ∧
      sv.critical = some false ∧ sv.phases = [] ∧ ¬ Symmetric sv.docs)
    (by decide +kernel)
  exact ⟨tr, sv, hr, distinct_of_announced hr.of_only hd, apart_of_announced hr.of_only ha, hq⟩

theorem not_symmetric : ¬ ∀ tr sv, Lts.Run (ChurnStep "r") Server.start tr sv → sv.Distinct →
    sv.Apart → sv.critical = some false → sv.phases = [] → Symmetric sv.docs := by
  intro h
  obtain ⟨tr, sv, hr, hd, ha, hc, hp, hn⟩ := oneSided_run
  exact hn (h tr sv hr hd ha hc hp)

theorem run_symmetric_iff_oneSided : ∃ tr sv, Lts.Run (ChurnStep "r") Server.start tr sv ∧
    sv.Distinct ∧ sv.Apart ∧ (Symmetric sv.docs ↔ ∀ a ∈ sv.docs, ∀ b ∈ sv.docs,
      Repicked tr a.sockId b.sockId → Repicked tr b.sockId a.sockId) := by
  obtain ⟨tr, sv, hr, hd, ha, -⟩ := oneSided_run
  exact ⟨tr, sv, hr, hd, ha, run_symmetric_iff hr hd ha⟩

end Yamb.Symple
