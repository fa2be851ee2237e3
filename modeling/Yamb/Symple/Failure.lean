import Yamb.Symple.Cleanup

/-!
# Operations of the database that fail

An awaited operation that rejects ends its task where it stands, inside its critical section.

* `Server.Open`: while nobody is inside, the lock is free and no clean-up is kept out by `Del`;
* `run_locked`: after a rejection the lock is taken for good;
* **`run_open_iff`**: the room is open in every state of a run exactly when no operation of the run
  rejects.
-/

set_option autoImplicit false

namespace Yamb.Symple

variable {room : RoomId} {sv sv' : Server} {e : Event} {tr tr' : List Event}

/-- Nothing keeps a broadcast or a clean-up out of a room that nobody is working on. -/
def Server.Open (sv : Server) : Prop :=
  sv.phases = [] → sv.critical ≠ some true ∧ ∀ s, sv.del s = false

/-- The lock is taken, and nobody has it. -/
structure Server.Locked (sv : Server) : Prop where
  phases : sv.phases = []
  critical : sv.critical = some true

theorem Server.Locked.not_open (h : sv.Locked) : ¬ sv.Open := fun ho => (ho h.phases).1 h.critical

theorem Server.locked_of_lock (hf : sv.lock.flag = true) (hi : sv.lock.inside = []) : sv.Locked :=
  ⟨hi, getD_critical.mp hf⟩

theorem Server.Tidy.isOpen (h : sv.Tidy) : sv.Open := by
  intro hnil
  refine ⟨Server.getD_critical_eq_false.mp (h.held.guarded.rest_of_nil hnil).1, fun s => ?_⟩
  rw [← Bool.not_eq_true]
  intro hd
  obtain ⟨p, hp, -⟩ := h.del s hd
  rw [hnil] at hp
  cases hp

/-- A rejection ends the task that has the lock, and nothing else. -/
theorem Step.locked_of_reject {c : Call} (h : Step room sv (.reject c) sv')
    (hx : Lock.Excl sv.lock) : sv'.Locked := by
  cases h with
  | reject l₁ _ l₂ ht =>
    have hperm : sv.phases.Perm (.call c :: (l₁ ++ l₂).filterMap Task.phase) := by
      rw [Server.phases, ht, List.filterMap_append, List.filterMap_append,
        List.filterMap_cons_some (show (Task.inside (.call c)).phase = some _ from rfl)]
      exact List.perm_middle
    have hflag : sv.lock.flag = true := by
      by_contra hf
      have hnil : sv.phases = [] := hx.of_flag (Bool.eq_false_iff.mpr hf)
      rw [hnil] at hperm
      exact absurd hperm.nil_eq (List.cons_ne_nil _ _).symm
    exact ⟨hx.rest_eq_nil hperm, Server.getD_critical.mp hflag⟩

theorem Step.locked (h : Step room sv e sv') (hs : sv.Locked) : sv'.Locked := by
  have heq : sv'.lock = sv.lock := h.lock.stuck (Server.getD_critical.mpr hs.critical) hs.phases
  refine Server.locked_of_lock ?_ ?_
  · rw [heq]
    exact Server.getD_critical.mpr hs.critical
  · rw [heq]
    exact hs.phases

/-- **After a rejection nobody gets the lock again.** -/
theorem run_locked {c : Call} (h : Lts.Run (Step room) Server.start (tr ++ .reject c :: tr') sv) :
    sv.Locked := by
  obtain ⟨s₁, s₂, h₁, hc, h₂⟩ := h.split
  exact h₂.invariant (hc.locked_of_reject (run_excl h₁)) fun _ _ _ hs he => he.locked hs

theorem Step.open_iff (h : Step room sv e sv') (hs : sv.Tidy) : sv'.Open ↔ e.Succeeds := by
  constructor
  · intro ho
    cases e with
    | reject c => exact (h.locked_of_reject hs.held.guarded.excl).not_open ho
    | _ => trivial
  · intro he
    exact (h.tidy he hs).isOpen

/-- **A room stays open exactly as long as the database does not fail.** -/
theorem run_open_iff : Lts.Run (Lts.Into (Step room) Server.Open) Server.start tr sv ↔
    Lts.Run (MongoStep room) Server.start tr sv :=
  Lts.run_into_iff (C := fun _ => True) (I := Server.Tidy) trivial (fun _ _ _ _ _ => trivial)
    start_tidy (fun _ _ _ _ hs he => he.open_iff hs) fun _ _ _ _ hs he hq => he.tidy hq hs

/-- A first user comes, and the first operation of its broadcast rejects. -/
theorem not_open_after_rejection :
    ¬ ∀ tr sv, Lts.Run (Step "r") Server.start tr sv → sv.Open := by
  intro h
  obtain ⟨tr, sv, hr, hin⟩ := Server.exists_run "r"
    [.announce "S0" "a", .join "S0", .run 0 0, .run 0 0] (fun _ _ => True)
    (fun _ sv => sv.tasks = [.inside (.call (.picking ⟨"S0", [], 0, "a"⟩ 2 []))]) (by decide +kernel)
  have hrej : Step "r" sv (.reject (.picking ⟨"S0", [], 0, "a"⟩ 2 [])) _ := .reject [] _ [] hin
  exact (hrej.locked_of_reject (run_excl hr.of_only)).not_open (h _ _ (hr.of_only.snoc hrej))

end Yamb.Symple
