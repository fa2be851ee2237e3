import Mathlib.Data.List.Perm.Basic
import Yamb.Lib.Lts
import Yamb.Node.Types

/-!
# Signals and their slots

`Signal`: functions are attached and detached, also by the functions that it calls.

* `Delegate`, `Slot`, `Signal`: the slots of a signal, and its running emits, each with the slots that
  are still ahead of it;
* `attach`, `detach`, `detachAll`, `SignalStep`: the calls, and an emit that goes on to its next slot;
* `Recorded`: the flag of a slot that was detached tells whether a loop has come to it;
* **`run_notCalled_iff`**: a detached slot is not called in the runs in which no loop comes to it twice.
-/

set_option autoImplicit false

namespace Yamb

namespace Signal

/-! ### Slots -/

/-- The delegates that compare an instance and a method. -/
inductive DelegateKind
  | classDelegate
  | constClassDelegate
  | polymorphicDelegate
  deriving DecidableEq

/-- What a slot calls: a `std::function`, or a method of an instance. -/
inductive Delegate
  | function (func : ℕ)
  | member (kind : DelegateKind) (cls : ℕ) (instancePtr : Ptr) (method : ℕ)
  deriving DecidableEq

/-- `operator==`: dynamic function delegates cannot be compared. -/
def Delegate.equals : Delegate → Delegate → Bool
  | .function _, _ => false
  | .member k c i m, d => d = .member k c i m

structure Slot where
  delegate : Delegate
  instancePtr : Ptr
  id : ℤ
  priority : ℤ
  flag : Bool

/-- A running `emit`: the slots of its copy that it has not come to, and whether the slot that it has
come to last was called and has not returned. -/
structure Emission where
  ahead : List Ptr
  calling : Bool

end Signal

open Signal (Slot Emission)

/-- A signal with its slots, and its running emits, the innermost first. `removed` are the slots that a
detach has removed and that were not attached since; of these, a loop has come to `met`. -/
structure Signal where
  slots : List Ptr
  slot : Ptr → Slot
  lastId : ℤ
  emits : List Emission
  removed : Ptr → Bool
  met : Ptr → Bool

namespace Signal

/-- A signal without slots. The constructor of a slot sets its flag. -/
def new (slot : Ptr → Slot) : Signal :=
  ⟨[], fun p => { slot p with flag := true }, 0, [], fun _ => false, fun _ => false⟩

/-! ### Calls -/

/-- What `alive` leaves: it tests the flag and sets it. -/
def test (S : Signal) (p : Ptr) : Signal :=
  { S with
    slot := Function.update S.slot p { S.slot p with flag := true }
    met := Function.update S.met p true }

/-- `kill`, for a slot that a detach removes. -/
def kill (S : Signal) (p : Ptr) : Signal :=
  { S with
    slot := Function.update S.slot p { S.slot p with flag := false }
    removed := Function.update S.removed p true
    met := Function.update S.met p false }

/-- The loop of the three `detach`: it removes the first slot that is meant, or all of them. -/
def detachLoop (meant : Slot → Bool) (all : Bool) : Signal → List Ptr → Signal × List Ptr
  | S, [] => (S, [])
  | S, p :: ps =>
    if (S.slot p).flag ∧ meant (S.slot p) then
      let S := (S.test p).kill p
      if all then detachLoop meant all S ps else (S, ps)
    else
      let (S, ps) := detachLoop meant all (S.test p) ps
      (S, p :: ps)

def detachWhere (S : Signal) (meant : Slot → Bool) (all : Bool) : Signal :=
  let (S, slots) := detachLoop meant all S S.slots
  { S with slots := slots }

/-- What a call of `detach` is given. -/
inductive Target
  | id (id : ℤ)
  | instancePtr (instancePtr : Ptr)
  | slot (other : Ptr)
  deriving DecidableEq

/-- The slots that a `detach` means. -/
def meant (S : Signal) : Target → Slot → Bool
  | .id id, s => s.id = id
  | .instancePtr i, s => s.instancePtr = i
  | .slot other, s => s.delegate.equals (S.slot other).delegate

/-- The `detach` of an id, of an instance or of a slot; that of an instance detaches all its slots. -/
def detach (S : Signal) : Target → Signal
  | .id id => S.detachWhere (S.meant (.id id)) false
  | .instancePtr i => S.detachWhere (S.meant (.instancePtr i)) true
  | .slot other => S.detachWhere (S.meant (.slot other)) false

def detachAll (S : Signal) : Signal :=
  { S.slots.reverse.foldl kill S with slots := [] }

/-- A slot without an id gets one. -/
def giveId (S : Signal) (p : Ptr) : Signal :=
  if (S.slot p).id = -1 then
    { S with
      slot := Function.update S.slot p { S.slot p with id := S.lastId + 1 }
      lastId := S.lastId + 1 }
  else S

/-- `attach` up to `push_back`: what calls the same method is detached. The flag is left as it is. -/
def attach (S : Signal) (p : Ptr) : Signal :=
  let S := (S.detach (.slot p)).giveId p
  { S with
    slots := S.slots ++ [p]
    removed := Function.update S.removed p false }

/-- Calls come from a slot that is being called, or from outside of all emits. -/
def MayCall (S : Signal) : Prop := ∀ e ∈ S.emits.head?, e.calling = true

instance (S : Signal) : Decidable S.MayCall :=
  inferInstanceAs (Decidable (∀ e ∈ S.emits.head?, e.calling = true))

end Signal

inductive SignalEvent
  | attach (p : Ptr)
  | detach (target : Signal.Target)
  | detachAll
  | emit
  | next (p : Ptr)
  | finish
  | stop
  deriving DecidableEq

/-- `std::sort` keeps no order among equal priorities. A slot that throws `StopPropagation`, or another
exception, ends its emit. -/
inductive SignalStep (S : Signal) : SignalEvent → Signal → Prop
  | attach {p : Ptr} {slots : List Ptr} (hturn : S.MayCall)
      (hperm : slots.Perm (S.attach p).slots)
      (hsorted : slots.Pairwise fun l r =>
        ((S.attach p).slot r).priority ≤ ((S.attach p).slot l).priority) :
      SignalStep S (.attach p) { S.attach p with slots := slots }
  | detach {target : Signal.Target} (hturn : S.MayCall) :
      SignalStep S (.detach target) (S.detach target)
  | detachAll (hturn : S.MayCall) : SignalStep S .detachAll S.detachAll
  | emit (hturn : S.MayCall) : SignalStep S .emit { S with
      emits := ⟨S.slots, false⟩ :: S.emits }
  | next {p : Ptr} {ahead : List Ptr} {calling : Bool} {emits : List Emission}
      (h : S.emits = ⟨p :: ahead, calling⟩ :: emits) : SignalStep S (.next p) { S.test p with
        emits := ⟨ahead, (S.slot p).flag⟩ :: emits }
  | finish {calling : Bool} {emits : List Emission} (h : S.emits = ⟨[], calling⟩ :: emits) :
      SignalStep S .finish { S with emits := emits }
  | stop {ahead : List Ptr} {emits : List Emission} (h : S.emits = ⟨ahead, true⟩ :: emits) :
      SignalStep S .stop { S with emits := emits }

/-- No slot is called that was detached and not attached since. -/
def NotCalled (S : Signal) : SignalEvent → Prop
  | .next p => (S.slot p).flag = true → S.removed p = false
  | _ => True

/-- No emit comes to a slot that was detached when a loop has come to it since. -/
def MetOnce (S : Signal) : SignalEvent → Prop
  | .next p => S.removed p = true → S.met p = false
  | _ => True

namespace Signal

variable {S S' : Signal} {p q : Ptr} {e : SignalEvent} {tr : List SignalEvent}
  {f : Slot → Bool} {all : Bool}

/-! ### The flag -/

/-- The flag of a slot that was detached is set when a loop has come to it. -/
def Recorded (S : Signal) : Prop := ∀ p, S.removed p = true → (S.slot p).flag = S.met p

theorem slot_test (S : Signal) (p : Ptr) :
    (S.test p).slot = Function.update S.slot p { S.slot p with flag := true } := rfl

theorem met_test (S : Signal) (p : Ptr) : (S.test p).met = Function.update S.met p true := rfl

theorem slot_kill (S : Signal) (p : Ptr) :
    (S.kill p).slot = Function.update S.slot p { S.slot p with flag := false } := rfl

theorem met_kill (S : Signal) (p : Ptr) : (S.kill p).met = Function.update S.met p false := rfl

theorem removed_kill (S : Signal) (p : Ptr) :
    (S.kill p).removed = Function.update S.removed p true := rfl

theorem Recorded.test (h : S.Recorded) (p : Ptr) : (S.test p).Recorded := by
  intro q hq
  rw [slot_test, met_test]
  by_cases hqp : q = p
  · subst hqp
    rw [Function.update_self, Function.update_self]
  · rw [Function.update_of_ne hqp, Function.update_of_ne hqp]
    exact h q hq

theorem Recorded.kill (h : S.Recorded) (p : Ptr) : (S.kill p).Recorded := by
  intro q hq
  rw [slot_kill, met_kill]
  rw [removed_kill] at hq
  by_cases hqp : q = p
  · subst hqp
    rw [Function.update_self, Function.update_self]
  · rw [Function.update_of_ne hqp] at hq
    rw [Function.update_of_ne hqp, Function.update_of_ne hqp]
    exact h q hq

theorem Recorded.detachLoop (h : S.Recorded) (ps : List Ptr) :
    (detachLoop f all S ps).1.Recorded := by
  induction ps generalizing S with
  | nil => exact h
  | cons p ps ih =>
    rw [Signal.detachLoop]
    split_ifs
    · exact ih ((h.test p).kill p)
    · exact (h.test p).kill p
    · exact ih (h.test p)

theorem Recorded.detach (h : S.Recorded) (target : Target) : (S.detach target).Recorded := by
  cases target with
  | id id => exact h.detachLoop S.slots
  | instancePtr i => exact h.detachLoop S.slots
  | slot other => exact h.detachLoop S.slots

theorem Recorded.detachAll (h : S.Recorded) : S.detachAll.Recorded := by
  have hfold : ∀ ps : List Ptr, ∀ S : Signal, S.Recorded → (ps.foldl Signal.kill S).Recorded := by
    intro ps
    induction ps with
    | nil => exact fun _ h => h
    | cons p ps ih => exact fun S h => ih _ (h.kill p)
  exact hfold _ S h

theorem Recorded.giveId (h : S.Recorded) (p : Ptr) : (S.giveId p).Recorded := by
  intro q hq
  unfold Signal.giveId at hq ⊢
  split_ifs at hq ⊢
  · by_cases hqp : q = p
    · subst hqp
      simpa using h q hq
    · simpa [hqp] using h q hq
  · exact h q hq

theorem Recorded.attach (h : S.Recorded) (p : Ptr) : (S.attach p).Recorded := by
  intro q hq
  have hne : q ≠ p := by
    rintro rfl
    simp [Signal.attach] at hq
  have hq' : ((S.detach (.slot p)).giveId p).removed q = true := by
    simpa [Signal.attach, hne] using hq
  exact (h.detach (.slot p)).giveId p q hq'

theorem Recorded.step (h : SignalStep S e S') (hS : S.Recorded) : S'.Recorded := by
  cases h with
  | attach => exact hS.attach _
  | detach => exact hS.detach _
  | detachAll => exact hS.detachAll
  | emit => exact hS
  | next => exact hS.test _
  | finish => exact hS
  | stop => exact hS

theorem Recorded.notCalled_iff (h : S.Recorded) (e : SignalEvent) :
    NotCalled S e ↔ MetOnce S e := by
  cases e with
  | next p =>
    show ((S.slot p).flag = true → S.removed p = false) ↔ (S.removed p = true → S.met p = false)
    cases hp : S.removed p with
    | false => simp
    | true =>
      rw [h p hp]
      cases S.met p <;> simp
  | attach | detach | detachAll | emit | finish | stop => exact Iff.rfl

/-- **No detached slot is called** exactly in the runs in which no emit comes to a detached slot after a
loop has come to it. -/
theorem run_notCalled_iff (slot : Ptr → Slot) :
    Lts.Run (Lts.Only SignalStep NotCalled) (new slot) tr S ↔
      Lts.Run (Lts.Only SignalStep MetOnce) (new slot) tr S :=
  Lts.run_only_congr (I := Recorded) (fun _ hp => by cases hp) (fun _ _ _ hS he => Recorded.step he hS)
    fun _ e hS => hS.notCalled_iff e

/-- The first slot emits again, and called by this emit it detaches the second: the inner loop finds the
second slot killed, and the outer loop calls it. -/
theorem not_notCalled_nested : ¬ ∀ (slot : Ptr → Slot) (tr : List SignalEvent) (S : Signal),
    Lts.Run SignalStep (new slot) tr S → ∀ e S', SignalStep S e S' → NotCalled S e := by
  intro h
  let S₀ := new fun p => ⟨.function p, 0, -1, -1, true⟩
  let S₁ := S₀.attach 0
  let S₂ := S₁.attach 1
  let S₃ : Signal := { S₂ with emits := [⟨[0, 1], false⟩] }
  let S₄ : Signal := { S₃.test 0 with emits := [⟨[1], true⟩] }
  let S₅ : Signal := { S₄ with emits := [⟨[0, 1], false⟩, ⟨[1], true⟩] }
  let S₆ : Signal := { S₅.test 0 with emits := [⟨[1], true⟩, ⟨[1], true⟩] }
  let S₇ := S₆.detach (.id 2)
  let S₈ : Signal := { S₇.test 1 with emits := [⟨[], false⟩, ⟨[1], true⟩] }
  let S₉ : Signal := { S₈ with emits := [⟨[1], true⟩] }
  have h₁ : SignalStep S₀ (.attach 0) S₁ := .attach (by decide) (.refl _) (by decide)
  have h₂ : SignalStep S₁ (.attach 1) S₂ := .attach (by decide) (.refl _) (by decide)
  have h₃ : SignalStep S₂ .emit S₃ := .emit (by decide)
  have h₄ : SignalStep S₃ (.next 0) S₄ := .next rfl
  have h₅ : SignalStep S₄ .emit S₅ := .emit (by decide)
  have h₆ : SignalStep S₅ (.next 0) S₆ := .next rfl
  have h₇ : SignalStep S₆ (.detach (.id 2)) S₇ := .detach (by decide)
  have h₈ : SignalStep S₇ (.next 1) S₈ := .next rfl
  have h₉ : SignalStep S₈ .finish S₉ := .finish rfl
  have hrun := ((((((((Lts.Run.single h₁).snoc h₂).snoc h₃).snoc h₄).snoc h₅).snoc h₆).snoc
    h₇).snoc h₈).snoc h₉
  have hlive := h _ _ _ hrun (.next 1) _ (.next rfl) rfl
  cases hlive

end Signal

end Yamb
