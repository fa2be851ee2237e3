import Mathlib.Data.List.Infix
import Mathlib.Logic.Function.Basic
import Mathlib.Tactic.Common
import Yamb.Lib.Lts

/-!
# The action queue between the threads

`ipc::SyncQueue`: any thread pushes, and the thread of the event loop runs what was pushed.

* `SyncQueue`, `QueueEvent`, `QueueStep`: `push`, `post`, `pop` and `runSync`, step by step;
* `Signalled`, `Orderly`: what every step preserves;
* **`run_orderly`**: nothing that was pushed is lost, run twice or run out of its turn.
-/

set_option autoImplicit false

namespace Yamb

/-- Where the thread of the event loop is: outside of the callback of `_sync`, in front of
`_actions.empty()`, in front of the lock of `pop`, in an action, or behind the last `pop`. -/
inductive RunSync (Action : Type)
  | outside
  | testing
  | taking
  | running (next : Action)
  | returning
  deriving DecidableEq

/-- `ipc::SyncQueue`. `pending` is a signal of `uv_async_send` that no callback was started for, and
`posting` are the threads between `push_back` and `post`. -/
structure SyncQueue (Thread Action : Type) where
  actions : List Action
  pending : Bool
  phase : RunSync Action
  posting : Thread → Bool

inductive QueueEvent (Thread Action : Type)
  | pushBack (t : Thread) (action : Action)
  | post (t : Thread)
  | callback
  | empty
  | nonempty
  | popFront (next : Action)
  | finish
  | leave
  deriving DecidableEq

namespace SyncQueue

variable {Thread Action : Type}

/-- A queue that no thread has used. -/
def new : SyncQueue Thread Action := ⟨[], false, .outside, fun _ => false⟩

/-- The thread of the event loop pushes from the outside, or from the action that it runs. -/
def MayPush (S : SyncQueue Thread Action) : Prop :=
  S.phase = .outside ∨ ∃ a, S.phase = .running a

/-- `loop` is the thread of the event loop. `uv_async_send` leaves one signal, however often it is
called, and the callback takes it when it starts. -/
inductive QueueStep [DecidableEq Thread] (loop : Thread) (S : SyncQueue Thread Action) :
    QueueEvent Thread Action → SyncQueue Thread Action → Prop
  | pushBack {t : Thread} {action : Action} (ht : S.posting t = false)
      (hloop : t = loop → S.MayPush) : QueueStep loop S (.pushBack t action) { S with
        actions := S.actions ++ [action]
        posting := Function.update S.posting t true }
  | post {t : Thread} (ht : S.posting t = true) : QueueStep loop S (.post t) { S with
        pending := true
        posting := Function.update S.posting t false }
  | callback (hphase : S.phase = .outside) (hpending : S.pending = true)
      (hloop : S.posting loop = false) : QueueStep loop S .callback { S with
        pending := false
        phase := .testing }
  | empty (hphase : S.phase = .testing) (h : S.actions = []) :
      QueueStep loop S .empty { S with phase := .returning }
  | nonempty (hphase : S.phase = .testing) (h : S.actions ≠ []) :
      QueueStep loop S .nonempty { S with phase := .taking }
  | popFront {next : Action} {rest : List Action} (hphase : S.phase = .taking)
      (h : S.actions = next :: rest) : QueueStep loop S (.popFront next) { S with
        actions := rest
        phase := .running next }
  | finish {next : Action} (hphase : S.phase = .running next) (hloop : S.posting loop = false) :
      QueueStep loop S .finish { S with phase := .testing }
  | leave (hphase : S.phase = .returning) : QueueStep loop S .leave { S with phase := .outside }

/-! ### What was pushed and what was run -/

/-- The actions in the order of their `push_back`. -/
def pushed (tr : List (QueueEvent Thread Action)) : List Action :=
  tr.filterMap fun
    | .pushBack _ action => some action
    | _ => none

/-- The actions in the order in which `runSync` has run them. -/
def executed (tr : List (QueueEvent Thread Action)) : List Action :=
  tr.filterMap fun
    | .popFront next => some next
    | _ => none

@[simp] theorem pushed_append (tr tr' : List (QueueEvent Thread Action)) :
    pushed (tr ++ tr') = pushed tr ++ pushed tr' := List.filterMap_append

@[simp] theorem executed_append (tr tr' : List (QueueEvent Thread Action)) :
    executed (tr ++ tr') = executed tr ++ executed tr' := List.filterMap_append

/-! ### The invariant -/

/-- A callback is due: it was asked for, or a thread is about to ask for it. -/
def Signalled (S : SyncQueue Thread Action) : Prop :=
  S.pending = true ∨ ∃ t, S.posting t = true

/-- What was pushed was run or waits; and while something waits, a callback is due, unless `runSync`
has still to test for it. -/
structure Orderly (tr : List (QueueEvent Thread Action)) (S : SyncQueue Thread Action) : Prop where
  order : pushed tr = executed tr ++ S.actions
  due : S.phase = .outside ∨ S.phase = .returning → S.actions ≠ [] → S.Signalled
  front : S.phase = .taking → S.actions ≠ []

variable {S S' : SyncQueue Thread Action} {e : QueueEvent Thread Action}
  {tr : List (QueueEvent Thread Action)}

theorem orderly_new : Orderly [] (new : SyncQueue Thread Action) where
  order := rfl
  due := fun _ h => absurd rfl h
  front := fun h => by cases h

variable [DecidableEq Thread] {loop : Thread}

/-- What is pushed goes behind what waits, and what is run comes from the front. -/
theorem QueueStep.actions_eq (h : QueueStep loop S e S') :
    S.actions ++ pushed [e] = executed [e] ++ S'.actions := by
  cases h with
  | pushBack | post | callback | empty | nonempty | finish | leave => simp [pushed, executed]
  | popFront hphase hactions => simp [pushed, executed, hactions]

/-- **One step.** A push makes a callback due, and `runSync` ends where nothing waits. -/
theorem QueueStep.orderly (h : QueueStep loop S e S') (ho : Orderly tr S) :
    Orderly (tr ++ [e]) S' := by
  have horder : pushed (tr ++ [e]) = executed (tr ++ [e]) ++ S'.actions := by
    rw [pushed_append, executed_append, ho.order, List.append_assoc, h.actions_eq,
      List.append_assoc]
  cases h with
  | pushBack ht hloop =>
    rename_i t action
    exact ⟨horder, fun _ _ => .inr ⟨t, Function.update_self _ _ _⟩, fun _ => by simp⟩
  | post ht => exact ⟨horder, fun _ _ => .inl rfl, ho.front⟩
  | callback hphase hpending hloop => exact ⟨horder, fun h => by simp at h, fun h => by cases h⟩
  | empty hphase hactions =>
    exact ⟨horder, fun _ h => absurd hactions h, fun h => by cases h⟩
  | nonempty hphase hactions => exact ⟨horder, fun h => by simp at h, fun _ => hactions⟩
  | popFront hphase hactions => exact ⟨horder, fun h => by simp at h, fun h => by cases h⟩
  | finish hphase hloop => exact ⟨horder, fun h => by simp at h, fun h => by cases h⟩
  | leave hphase => exact ⟨horder, fun _ => ho.due (.inr hphase), fun h => by cases h⟩

/-- `pop` takes its element from a queue that has one. -/
theorem run_front (h : Lts.Run (QueueStep loop) new tr S) (hphase : S.phase = .taking) :
    ∃ next rest, S.actions = next :: rest :=
  List.exists_cons_of_ne_nil
    ((h.trace_invariant orderly_new fun _ _ _ _ ho hs => hs.orderly ho).front hphase)

/-- **The queue loses nothing.** What was run are the first of the pushed actions, each once and in
their order; while an action waits a signal is pending, or `runSync` executes, or a thread has not
posted yet; and when none of this is so, every pushed action has run. -/
theorem run_orderly (h : Lts.Run (QueueStep loop) new tr S) :
    executed tr <+: pushed tr ∧
      (S.actions ≠ [] → S.pending = true ∨ S.phase ≠ .outside ∨ ∃ t, S.posting t = true) ∧
      (S.pending = false → S.phase = .outside → (∀ t, S.posting t = false) →
        executed tr = pushed tr) := by
  have ho : Orderly tr S := h.trace_invariant orderly_new fun _ _ _ _ ho hs => hs.orderly ho
  refine ⟨⟨S.actions, ho.order.symm⟩, fun hne => ?_, fun hpending hphase hposting => ?_⟩
  · by_cases hphase : S.phase = .outside
    · exact (ho.due (.inl hphase) hne).imp_right .inr
    · exact .inr (.inl hphase)
  · have hnil : S.actions = [] := by
      by_contra hne
      rcases ho.due (.inl hphase) hne with hp | ⟨t, ht⟩
      · rw [hpending] at hp
        cases hp
      · rw [hposting t] at ht
        cases ht
    rw [ho.order, hnil, List.append_nil]

/-- A producer pushes `0`; its action pushes `1` while a second producer pushes `2`. -/
theorem run_orderly_reentrant : ∃ S : SyncQueue (Option Bool) ℕ,
    executed [.pushBack (some false) 0, .post (some false), .callback, .nonempty, .popFront 0,
        .pushBack none 1, .pushBack (some true) 2, .post none, .finish] <+:
      pushed [.pushBack (some false) 0, .post (some false), .callback, .nonempty, .popFront 0,
        .pushBack none 1, .pushBack (some true) 2, .post none, .finish] ∧ S.actions = [1, 2] ∧
      (S.actions ≠ [] → S.pending = true ∨ S.phase ≠ .outside ∨ ∃ t, S.posting t = true) := by
  have hrun : Lts.Run (QueueStep none) (new : SyncQueue (Option Bool) ℕ)
      [.pushBack (some false) 0, .post (some false), .callback, .nonempty, .popFront 0,
        .pushBack none 1, .pushBack (some true) 2, .post none, .finish] _ :=
    .cons (.pushBack rfl (by simp)) <| .cons (.post rfl) <| .cons (.callback rfl rfl rfl) <|
      .cons (.nonempty rfl (by simp [new])) <| .cons (.popFront rfl rfl) <|
      .cons (.pushBack rfl fun _ => .inr ⟨0, rfl⟩) <| .cons (.pushBack rfl (by simp)) <|
      .cons (.post rfl) <| .single (.finish rfl rfl)
  obtain ⟨hpart, hdue, -⟩ := run_orderly hrun
  exact ⟨_, hpart, rfl, hdue⟩

end SyncQueue

end Yamb
