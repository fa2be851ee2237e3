import Yamb.Symple.Documents
import Yamb.Symple.Script

/-!
# The lock protects the counters

* `LoopFree`, `DbStep.loopFree`: no document lists its own user;
* **`run_counters`**: critical sections exclude each other, and at all times every document counts its
  list and does not list itself.
-/

set_option autoImplicit false

namespace Yamb.Symple

open Collection

def LoopFree (docs : List Doc) : Prop := ∀ d ∈ docs, d.sockId ∉ d.connects

variable {user : SocketId → Option UserId} {docs docs' : List Doc} {p : Doc → Prop}
  {found : Option Doc} {ids : List UserId} {room : RoomId} {sv sv' : Server} {e : Event}

theorem LoopFree.push (h : LoopFree docs) (hp : UpdateOne p (Doc.push ids) docs found docs')
    (hids : ∀ d ∈ docs, p d → d.sockId ∉ ids) : LoopFree docs' := by
  refine hp.forall h fun d hd hpd hl => ?_
  rw [Doc.push_sockId, Doc.push_connects, List.mem_append]
  exact not_or.mpr ⟨hl, hids d hd hpd⟩

/-- The second write of a repair looks for a user id equal to an address. -/
theorem link_missed {t : Aggr} (ha : ∀ s s', user s ≠ none → user s' ≠ some s)
    (hs : Sound user docs) (ht : Kept user docs t)
    (hp : UpdateOne (fun d => d.sockId = t.addr) (Doc.push ids) docs found docs') :
    found = none ∧ docs' = docs := by
  cases hp with
  | found l₁ d l₂ hd =>
    have ho := hs.owner d (by simp)
    exact absurd (hd ▸ ho) (ha t.addr d.addr (by simp [ht.2]))
  | missed => exact ⟨rfl, rfl⟩

theorem DbStep.loopFree {c : Call} {r : Return} (h : DbStep docs c docs' r)
    (ha : ∀ s s', user s ≠ none → user s' ≠ some s) (hs : Sound user docs)
    (hc : Held user docs (.call c)) (hl : LoopFree docs) : LoopFree docs' := by
  have hself {client : Client} (h : Collected user docs client) : client.sockId ∉ client.connects :=
    fun hm => (h.picked _ hm).1 rfl
  cases h with
  | pick client iterations sendTo h => exact hl.push h fun d _ he => by simpa using he.2.2
  | own client sendTo h => exact hl.push h fun d _ he => he ▸ hself hc
  | insert client sendTo id h =>
    intro d hd
    rcases List.mem_append.mp hd with hd | hd
    · exact hl d hd
    · obtain rfl := List.mem_singleton.mp hd
      exact hself hc.1
  | delete s h => exact fun d hd => hl d (h.sublist.subset hd)
  | aggregate s u => exact hl
  | update s tmpaggrs t rest h =>
    exact h.forall hl fun d _ _ hd hm => hd (Doc.mem_pull_connects.mp hm).1
  | repick s t rest h => exact hl.push h fun d _ he => by simpa using he.2.2
  | link s t cl rest h =>
    obtain ⟨u, hc, -⟩ := hc
    rw [(link_missed ha hs (hc.kept t List.mem_cons_self) h).2]
    exact hl

theorem Step.loopFree (h : Step room sv e sv') (ha : sv.Apart) (hs : sv.Held)
    (hl : LoopFree sv.docs) : LoopFree sv'.docs := by
  rcases h.docs_cases with ⟨-, hd⟩ | ⟨c, r, rfl, hc, hdb⟩
  · exact hd ▸ hl
  · exact hdb.loopFree ha hs.sound (hs.held_of_mem hc) hl

/-- **The lock holds and protects the counters**, in every run of the handlers in which the database
does not fail and no user id is a socket id. -/
theorem run_counters {tr : List Event} (h : Lts.Run (MongoStep room) Server.start tr sv)
    (ha : sv.Apart) : sv.phases.length ≤ 1 ∧ (sv.phases ≠ [] → sv.critical = some true) ∧
      ∀ d ∈ sv.docs, d.nconnects = d.connects.length ∧ d.sockId ∉ d.connects := by
  have hx := run_excl h.of_only
  have hs := (run_held h).sound
  have hl : LoopFree sv.docs := by
    refine (h.invariant_while (I := fun sv => sv.Held ∧ LoopFree sv.docs) ha
      (fun _ _ _ he => he.1.apart) ⟨start_held, nofun⟩ fun sv e sv' ha _ hi he => ?_).2
    exact ⟨he.1.held he.2 hi.1, he.1.loopFree ha hi.1 hi.2⟩
  refine ⟨hx.length_le_one, fun hne => ?_, fun d hd => ⟨hs.count d hd, hl d hd⟩⟩
  by_contra hc
  exact hne (hx.of_flag (Server.getD_critical_eq_false.mpr hc))

/-- Two users join at the same time, and the second waits for the lock. -/
def crossing : List Command :=
  [.announce "S0" "a", .join "S0", .announce "S1" "b", .join "S1", .run 0 0, .run 0 0, .run 0 0,
    .run 0 0, .run 1 0, .run 0 0, .run 0 0] ++ List.replicate 4 (.run 1 0) ++
    steps (List.replicate 9 0)

theorem run_counters_crossing : ∃ tr sv, Lts.Run (MongoStep "r") Server.start tr sv ∧ sv.Apart ∧
    sv.docs.length = 2 ∧ sv.phases.length ≤ 1 ∧
    ∀ d ∈ sv.docs, d.nconnects = d.connects.length ∧ d.sockId ∉ d.connects := by
  obtain ⟨tr, sv, hr, ha, hl⟩ := Server.exists_run "r" crossing (fun _ e => e.Succeeds)
    (fun tr sv => (∀ x ∈ announced tr, ∀ y ∈ announced tr, y.2 ≠ x.1) ∧ sv.docs.length = 2)
    (by decide +kernel)
  have ha := apart_of_announced hr.of_only ha
  obtain ⟨hx, -, hc⟩ := run_counters hr ha
  exact ⟨tr, sv, hr, ha, hl, hx, hc⟩

end Yamb.Symple
