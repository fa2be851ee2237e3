import Mathlib.Algebra.Order.BigOperators.Group.List
import Yamb.Symple.Churn
import Yamb.Symple.Graph
import Yamb.Symple.Script

/-!
# Slots while users only join

* `Event.Joins`: runs of joins;
* `Budget`: the free slots, together with the picks of the task inside, depend on the number of
  documents only;
* `Budget.picked`: the picks of a joiner find two documents as soon as there are two;
* **`run_slots`**: six free slots, two neighbours for the next joiner, and a room that survives the loss
  of any one document.
-/

set_option autoImplicit false

namespace Yamb.Symple

open Collection Connectivity

/-- Joins, with a database that does not fail. -/
def Event.Joins : Event → Prop
  | .reject _ | .leave _ | .disconnect _ => False
  | _ => True

instance : DecidablePred Event.Joins
  | .reject _ | .leave _ | .disconnect _ => .isFalse id
  | .announce .. | .join _ | .addIdx _ | .joined .. | .retry _ | .wait _ | .db _ | .resume _ =>
    .isTrue trivial

theorem Event.Joins.churn {e : Event} (h : e.Joins) : e.Churn := by
  cases e <;> trivial

abbrev JoinStep (room : RoomId) : Server → Event → Server → Prop :=
  Lts.Only (Step room) fun _ e => e.Joins

/-- The free slots of the documents. -/
def slots (docs : List Doc) : ℕ := (docs.map fun d => 4 - d.nconnects).sum

/-- The free slots of a room with `n` documents. -/
def freeSlots : ℕ → ℕ
  | 0 => 0
  | 1 => 4
  | _ => 6

/-- `k` slots are taken for a document that is still to come. -/
structure Budget (docs : List Doc) (k : ℕ) : Prop where
  le : ∀ d ∈ docs, d.nconnects ≤ 4
  pos : 2 ≤ docs.length → ∀ d ∈ docs, 1 ≤ d.nconnects
  sum : slots docs + k = freeSlots docs.length

variable {user : SocketId → Option UserId} {docs docs' : List Doc} {client : Client} {k : ℕ}

theorem Budget.nil : Budget [] 0 := ⟨nofun, nofun, rfl⟩

/-- A pick takes one of the free slots. -/
theorem Budget.pick (h : Budget docs k) {u : UserId} {cl : Doc}
    (hp : UpdateOne (Doc.Eligible u) (Doc.push [u]) docs (some cl) docs') : Budget docs' (k + 1) where
  le := hp.forall h.le fun d _ he _ => he.1
  pos hl := by
    rw [hp.length_eq] at hl
    exact hp.forall (h.pos hl) fun d _ _ _ => by simp
  sum := by
    have hsum := hp.sum_eq fun d => 4 - d.nconnects
    have hlt := hp.value_matches.1
    have := h.sum
    rw [hp.length_eq]
    simp only [slots, Doc.push_nconnects, List.length_singleton] at hsum this ⊢
    omega

/-- When only some documents are not full, these hold the free slots, at most three each. -/
theorem slots_le_filter {P : Doc → Prop} [DecidablePred P] (hpos : ∀ d ∈ docs, 1 ≤ d.nconnects)
    (hfull : ∀ d ∈ docs, d.nconnects < 4 → P d) : slots docs ≤ 3 * (docs.filter P).length := by
  induction docs with
  | nil => exact Nat.zero_le _
  | cons d docs ih =>
    have ih := ih (fun x hx => hpos x (List.mem_cons_of_mem _ hx))
      fun x hx => hfull x (List.mem_cons_of_mem _ hx)
    have hd := hpos d List.mem_cons_self
    rw [slots] at ih ⊢
    rw [List.map_cons, List.sum_cons, List.filter_cons]
    split_ifs with hP
    · rw [List.length_cons]
      omega
    · have := mt (hfull d List.mem_cons_self) (by simpa using hP)
      omega

theorem length_filter_le (hs : Sound user docs) (client : Client) :
    (docs.filter fun d => d.sockId ∈ client.connects).length ≤ client.connects.length := by
  rw [← List.length_map (f := Doc.sockId)]
  refine (List.subperm_of_subset (hs.nodup.sublist (List.filter_sublist.map _)) ?_).length_le
  intro v hv
  obtain ⟨d, hd, rfl⟩ := List.mem_map.mp hv
  exact of_decide_eq_true (List.mem_filter.mp hd).2

theorem Collected.length_le (h : Collected user docs client) :
    client.connects.length ≤ docs.length := by
  rw [← List.length_map (f := Doc.sockId)]
  exact (List.subperm_of_subset h.nodup fun v hv => (h.picked v hv).2.mem_members).length_le

/-- **The picks of a joiner.** One that finds no more documents has found two, or all there are. -/
theorem Budget.picked (h : Budget docs client.connects.length) (hs : Sound user docs)
    (hc : Collected user docs client) (hst : Stranger docs client) (hlt : client.connects.length < 2)
    (hnone : ∀ d ∈ docs, ¬ d.Eligible client.sockId) :
    client.connects.length = min 2 docs.length := by
  have hle := hc.length_le
  have hfull : ∀ d ∈ docs, d.nconnects < 4 → d.sockId ∈ client.connects := by
    intro d hd hn
    by_contra hm
    refine hnone d hd ⟨hn, fun hl => hm (hst.listed d.sockId ⟨d, hd, rfl, hl⟩), fun he => ?_⟩
    exact hst.absent (he ▸ List.mem_map_of_mem hd)
  have hsum := h.sum
  match docs, hsum with
  | [], _ => simpa using hle
  | [d], hsum =>
    -- the one document has a free slot as long as it is not picked
    have hd := hfull d List.mem_cons_self
    have hne : client.connects ≠ [] := by
      intro hnil
      rw [hnil] at hsum hd
      simp [slots, freeSlots] at hsum
      exact absurd (hd (by omega)) (List.not_mem_nil)
    have := List.length_pos_iff.mpr hne
    simp at hle ⊢
    omega
  | d :: d' :: docs, hsum =>
    -- at most one document is picked, and it has not all of the slots
    have hpos := h.pos (by simp)
    have := slots_le_filter (P := fun d => d.sockId ∈ client.connects) hpos hfull
    have := length_filter_le hs client
    simp only [freeSlots, List.length_cons] at hsum
    omega

/-- The document of the joiner brings the slots that its picks have taken. -/
theorem Budget.insert (h : Budget docs client.connects.length) (hc : Collected user docs client)
    (hk : client.connects.length = min 2 docs.length) {id : ℕ} :
    Budget (docs ++ [client.doc id]) 0 := by
  have hnew : (client.doc id).nconnects = client.connects.length := hc.count
  have hlength : (docs ++ [client.doc id]).length = docs.length + 1 := by simp
  have hslots : slots (docs ++ [client.doc id]) = slots docs + (4 - client.connects.length) := by
    simp [slots, hnew]
  have hsum := h.sum
  rw [hk] at hnew hslots hsum
  -- a document that was alone has lost one slot to the joiner
  have hone : docs.length = 1 → ∀ d ∈ docs, d.nconnects = 1 := by
    intro hl d hd
    obtain ⟨x, rfl⟩ := List.length_eq_one_iff.mp hl
    obtain rfl := List.mem_singleton.mp hd
    have := h.le d hd
    simp [slots, freeSlots] at hsum
    omega
  refine ⟨fun d hd => ?_, fun hl d hd => ?_, ?_⟩
  · rcases List.mem_append.mp hd with hd | hd
    · exact h.le d hd
    · rw [List.mem_singleton.mp hd, hnew]
      omega
  · rw [hlength] at hl
    rcases List.mem_append.mp hd with hd | hd
    · by_cases hl₂ : 2 ≤ docs.length
      · exact h.pos hl₂ d hd
      · rw [hone (by omega) d hd]
    · rw [List.mem_singleton.mp hd, hnew]
      omega
  · rw [hslots, hlength]
    match hn : docs.length, hsum with
    | 0, hsum | 1, hsum | n + 2, hsum =>
      simp only [freeSlots] at hsum ⊢
      omega

theorem Bilinked.insert_of_length (h : Bilinked docs) (hc : Collected user docs client)
    (hm : client.sockId ∉ members docs) (hk : client.connects.length = min 2 docs.length) {id : ℕ} :
    Bilinked (docs ++ [client.doc id]) := by
  match hcon : client.connects, hk with
  | [], hk =>
    rw [List.length_nil] at hk
    have hlen : (docs ++ [client.doc id]).length ≤ 1 := by
      rw [List.length_append, List.length_singleton]
      omega
    exact biconnectedOn_of_subsingleton (users_subsingleton hlen)
  | [v], hk =>
    rw [List.length_singleton] at hk
    have hl : Linked (docs ++ [client.doc id]) :=
      Linked.insert h.connected hc (hcon ▸ List.mem_cons_self)
    unfold Linked at hl
    unfold Bilinked
    rw [users_insert] at hl ⊢
    exact biconnectedOn_of_insert hl (users_subsingleton (by omega))
  | v :: w :: l, hk =>
    have hne : v ≠ w := by
      rintro rfl
      have := hc.nodup
      rw [hcon] at this
      exact (List.nodup_cons.mp this).1 List.mem_cons_self
    exact h.insert hc hm (hcon ▸ List.mem_cons_self)
      (hcon ▸ List.mem_cons_of_mem _ List.mem_cons_self) hne

/-! ### The critical sections -/

/-- What the broadcast of a joiner can rely on, and that nobody cleans up. -/
def Joining (docs : List Doc) : Phase → Prop
  | .call (.picking client _ _) => Budget docs client.connects.length ∧ Bilinked docs
  | .ret (.picked client _ _ none) | .call (.owning client _) | .ret (.owned client _ _)
  | .call (.inserting client _) =>
    Budget docs client.connects.length ∧ Bilinked docs ∧
      client.connects.length = min 2 docs.length
  | .ret (.picked client _ _ (some cl)) => Budget docs (client.add cl).connects.length ∧ Bilinked docs
  | .ret (.inserted _ _) => Budget docs 0 ∧ Bilinked docs
  | _ => False

theorem DbStep.joining {c : Call} {r : Return} (h : DbStep docs c docs' r) (hs : Sound user docs)
    (hc : Held user docs (.call c)) (hst : Strange docs (.call c)) (hj : Joining docs (.call c)) :
    Joining docs' (.ret r) := by
  cases h with
  | @pick _ cl client iterations sendTo h =>
    obtain ⟨hb, hg⟩ : Budget docs client.connects.length ∧ Bilinked docs := hj
    cases cl with
    | none =>
      obtain ⟨rfl, hnone⟩ := h.of_none
      have hlen := hc.2
      exact ⟨hb, hg, hb.picked hs hc.1 hst (by omega) hnone⟩
    | some cl =>
      refine ⟨?_, hg.push h⟩
      rw [Client.add, List.length_append]
      exact hb.pick h
  | @own _ upd client sendTo h =>
    have hst : Stranger docs client := hst
    cases upd with
    | none =>
      rw [h.of_none.1]
      exact hj
    | some d => exact absurd (mem_members.mpr ⟨d, h.value_mem, h.value_matches⟩) hst.absent
  | insert client sendTo id h =>
    obtain ⟨hb, hg, hk⟩ := hj
    exact ⟨hb.insert hc.1 hk, hg.insert_of_length hc.1 hc.2 hk⟩
  | delete | aggregate | update | repick | link => exact hj.elim

theorem joining_next {connected : SocketId → Bool} {userOf : SocketId → UserId} {r : Return}
    {c : Call} (h : Joining docs (.ret r)) (hh : Held user docs (.ret r))
    (hn : r.next connected userOf = .call c) : Joining docs (.call c) := by
  match r, h with
  | .picked client iterations sendTo none, h =>
    cases hn
    exact h
  | .picked client iterations sendTo (some cl), h =>
    simp only [Return.next] at hn
    have hit := hh.2
    have hlen : (client.add cl).connects.length = client.connects.length + 1 := by
      rw [Client.add, List.length_append, List.length_singleton]
    have hle := Collected.length_le hh.1
    split_ifs at hn with hi
    · cases hn
      exact h
    · cases hn
      exact ⟨h.1, h.2, by omega⟩
  | .owned client sendTo none, h =>
    cases hn
    exact h
  | .owned client sendTo (some _), _ => cases hn
  | .inserted client sendTo, _ => cases hn

variable {room : RoomId} {sv sv' : Server} {e : Event}

/-- A state of a run of joins. -/
structure Server.Joins (sv : Server) : Prop where
  fresh : sv.Fresh
  nobody : sv.frees = []
  guarded : Lock.Guarded (fun docs => Budget docs 0 ∧ Bilinked docs) Joining sv.lock

theorem Server.Joins.enters {p : Phase} (hs : sv.Joins) (he : e.Joins) (h : sv.Enters room e p)
    (hr : Budget docs 0 ∧ Bilinked docs) : Joining docs p := by
  cases h with
  | joined => exact hr
  | retry => exact hr
  | wait h =>
    have hm : _ ∈ sv.frees := List.mem_filterMap.mpr ⟨_, h, rfl⟩
    rw [hs.nobody] at hm
    cases hm
  | disconnect => exact he.elim

theorem Step.joins (h : Step room sv e sv') (he : e.Joins) (hd : sv'.Distinct) (hs : sv.Joins) :
    sv'.Joins where
  fresh := h.fresh he.churn hd hs.fresh
  nobody := by
    rcases h.frees with hsub | ⟨s, rfl, -⟩
    · rw [hs.nobody] at hsub
      exact List.subperm_nil.mp hsub
    · exact he.elim
  guarded := by
    refine h.lock.guarded hs.guarded he.churn.succeeds.not_givesUp id (fun _ _ _ h => h)
      (fun p _ hp hr => hs.enters he hp hr) ?_ ?_
    · rintro p docs' p' hp hw hj
      have hh := hs.fresh.held.held_of_mem hp
      cases hw with
      | db hdb => exact hdb.joining hs.fresh.held.sound hh (hs.fresh.strange.at_of_mem hp) hj
      | next hn => exact joining_next hj hh hn
    · rintro p hp hl hj
      cases hl with
      | @leave r hl =>
        match r, hj with
        | .picked client iterations sendTo none, _ => exact absurd rfl (hl _)
        | .picked client iterations sendTo (some cl), _ =>
          simp only [Return.next] at hl
          split_ifs at hl <;> exact absurd rfl (hl _)
        | .owned client sendTo none, _ => exact absurd rfl (hl _)
        | .owned client sendTo (some _), _ => exact (hs.fresh.strange.at_of_mem hp).elim
        | .inserted client sendTo, hj => exact hj

theorem start_joins : Server.start.Joins :=
  ⟨start_fresh, rfl, .rest ⟨.nil, biconnectedOn_of_subsingleton (users_subsingleton (Nat.zero_le 1))⟩⟩

theorem run_joins {tr : List Event} (h : Lts.Run (JoinStep room) Server.start tr sv)
    (hd : sv.Distinct) : sv.Joins :=
  h.invariant_while hd (fun _ _ _ he => he.1.distinct) start_joins fun _ _ _ _ hd hs he =>
    he.1.joins he.2 hd hs

theorem slots_eq_sum (h : ∀ d ∈ docs, d.nconnects ≤ 4) :
    (docs.map fun d => (4 - d.nconnects : ℤ)).sum = slots docs := by
  induction docs with
  | nil => rfl
  | cons d docs ih =>
    have hd := h d List.mem_cons_self
    rw [List.map_cons, List.sum_cons, ih fun x hx => h x (List.mem_cons_of_mem _ hx)]
    simp only [slots, List.map_cons, List.sum_cons]
    omega

/-- **Slots and joins.** When only distinct users join, then whenever nobody is inside, two or more
documents have six free slots among them, none more than three, and three or more stay connected
without any one of them; and a joiner that finds two documents gets two distinct neighbours. -/
theorem run_slots {tr : List Event} (h : Lts.Run (JoinStep room) Server.start tr sv)
    (hd : sv.Distinct) :
    (sv.phases = [] → 2 ≤ sv.docs.length →
      (sv.docs.map fun d => (4 - d.nconnects : ℤ)).sum = 6 ∧
      ∀ d ∈ sv.docs, 0 ≤ (4 - d.nconnects : ℤ) ∧ (4 - d.nconnects : ℤ) ≤ 3) ∧
    (sv.phases = [] → 3 ≤ sv.docs.length → Bilinked sv.docs) ∧
    ∀ client sendTo, .call (.inserting client sendTo) ∈ sv.phases → 2 ≤ sv.docs.length →
      client.connects.length = 2 ∧ client.connects.Nodup ∧
      ∀ v ∈ client.connects, v ∈ members sv.docs ∧ v ≠ client.sockId := by
  have hs := run_joins h hd
  refine ⟨fun hnil hl => ?_, fun hnil _ => ?_, fun client sendTo hp hl => ?_⟩
  · obtain ⟨hb, -⟩ := (hs.guarded.rest_of_nil hnil).2
    have hb : Budget sv.docs 0 := hb
    refine ⟨?_, fun d hd => ?_⟩
    · obtain ⟨n, hn⟩ := Nat.exists_eq_add_of_le' hl
      rw [slots_eq_sum hb.le, ← Nat.add_zero (slots sv.docs), hb.sum, hn]
      rfl
    · have hle := hb.le d hd
      have hpos := hb.pos hl d hd
      omega
  · exact (hs.guarded.rest_of_nil hnil).2.2
  · obtain ⟨-, -, hk⟩ := hs.guarded.at_of_mem hp
    have hk : client.connects.length = min 2 sv.docs.length := hk
    have hc : Collected sv.user sv.docs client := (hs.fresh.held.held_of_mem hp).1
    exact ⟨by omega, hc.nodup, fun v hv => ⟨(hc.picked v hv).2.mem_members, (hc.picked v hv).1⟩⟩

theorem run_slots_three : ∃ tr sv, Lts.Run (JoinStep "r") Server.start tr sv ∧ sv.Distinct ∧
    (sv.docs.map fun d => (4 - d.nconnects : ℤ)).sum = 6 ∧ Bilinked sv.docs := by
  obtain ⟨tr, sv, hr, hd, hp, hl⟩ := Server.exists_run "r"
    (founding "S0" "a" ++ joining "S1" "b" 0 0 ++ joining "S2" "c" 0 0) (fun _ e => e.Joins)
    (fun tr sv => (∀ x ∈ announced tr, ∀ y ∈ announced tr, x.2 = y.2 → x.1 = y.1) ∧
      sv.phases = [] ∧ sv.docs.length = 3) (by decide +kernel)
  have hd := distinct_of_announced hr.of_only hd
  obtain ⟨hslots, hbi, -⟩ := run_slots hr hd
  exact ⟨tr, sv, hr, hd, (hslots hp (by omega)).1, hbi hp (by omega)⟩

end Yamb.Symple
