import Yamb.Lib.Wakeup
import Yamb.Node.Registry
import Yamb.Node.Sender

/-!
# Shutting a node down

`stopapp` and the destructor of a node, with the sender thread, the thread of the future in
`stopapp` and the action that it queues, from one access of what they share to the next.

* `Exit`, `ExitEvent`, `Exit.Step`, `ExitStep`: the threads;
* `Exit.promise`, `Exit.toWakeup`, `run_promise`, `run_sender`: the waits of the two threads, as
  `Wakeup` has them;
* `Exit.own_length_le`: from the store of `stopping` on the threads do finitely much, but for
  wake-ups from elsewhere;
* **`run_exit`**: and a shutdown that has come to a stand is over exactly when neither of the two
  notifications fell between a test and its wait, and the sender thread met no error.
-/

set_option autoImplicit false

namespace Yamb

/-- Where the sender thread is: in front of `isEmpty`, of the test of `stopping` in the inner loop, of
`wait`, in `wait`, in front of the test behind the loop, and at work on a task. -/
inductive SenderPhase
  | testEmpty
  | testStopping
  | committed
  | asleep
  | testAgain
  | working (smT : SendMsgT)
  | returned
  | crashed (f : Fault)

/-- Where the thread is that destroys the node: in front of `stopapp`, behind the store of
`stopping`, behind the first `notify_all`, behind `PeerManager::clear`, behind `std::async`, in
`promise.wait`, behind it, in `message_sender.join`, and behind the destructor. -/
inductive ExitPhase
  | running
  | stored
  | notified
  | cleared
  | async
  | waiting
  | resumed
  | joining
  | done
  deriving DecidableEq

/-- `promise` is the wait in `stopapp`: the flag `*b`, its thread, and the action that sets it. -/
structure Exit where
  node : Node
  sender : SenderPhase
  main : ExitPhase
  promise : Wakeup.State

/-- `produce` and `notify` are those of the calls and messages that still come. -/
inductive ExitEvent
  | store
  | notifyStop
  | clear
  | startAsync
  | pushAction
  | resume
  | notifyLast
  | joined
  | promise (e : Wakeup.Event)
  | findEmpty
  | findTask
  | findOpen
  | exitEmpty
  | sleep
  | take
  | exitTask
  | work
  | produce (smT : SendMsgT)
  | notify
  | wake

def SenderPhase.woken : SenderPhase → SenderPhase
  | .asleep => .testEmpty
  | p => p

namespace Node

/-- `PeerManager::clear`: every registered Peer is deleted. -/
def clearPeers (n : Node) : Node :=
  { n with
    peerManager := ∅
    heap := fun conn => if (n.peerManager.keyOf conn).isSome then none else n.heap conn }

/-- What the sender thread does with a task that it has taken. -/
def work (n : Node) (smT : SendMsgT) : Except Fault (List SendMsgT × List Send) :=
  match n.roomManager.get smT.msg.roomId with
  | .error f => .error f
  | .ok RU => n.processTask RU smT

end Node

namespace Exit

/-- A node in use. -/
def start (n : Node) : Exit := ⟨n, .testEmpty, .running, Wakeup.start⟩

/-- The thread of the future runs, and the action of `stopapp` once it has been queued. -/
def Runs (s : Exit) : Wakeup.Event → Prop
  | .set => s.main = .waiting
  | .notify => True
  | _ => s.main = .async ∨ s.main = .waiting

theorem runs_of_waiting {s : Exit} (hm : s.main = .waiting) (e : Wakeup.Event) : s.Runs e := by
  cases e with
  | set => exact hm
  | notify => trivial
  | test | pass | sleep | wake => exact .inr hm

end Exit

/-- What one of the threads does next. -/
inductive Exit.Step (s : Exit) : ExitEvent → Exit → Prop
  | store (hm : s.main = .running) : Step s .store { s with
      node := { s.node with stopping := true }
      main := .stored }
  | notifyStop (hm : s.main = .stored) : Step s .notifyStop { s with
      sender := s.sender.woken
      main := .notified }
  | clear (hm : s.main = .notified) : Step s .clear { s with
      node := s.node.clearPeers
      main := .cleared }
  | startAsync (hm : s.main = .cleared) : Step s .startAsync { s with main := .async }
  | pushAction (hm : s.main = .async) : Step s .pushAction { s with main := .waiting }
  | resume (hm : s.main = .waiting) (hp : s.promise.waiter = .passed) :
      Step s .resume { s with main := .resumed }
  | notifyLast (hm : s.main = .resumed) : Step s .notifyLast { s with
      sender := s.sender.woken
      main := .joining }
  | joined (hm : s.main = .joining) (hs : s.sender = .returned) :
      Step s .joined { s with main := .done }
  | promise {e : Wakeup.Event} {p : Wakeup.State} (hm : s.Runs e) (h : Wakeup.Step s.promise e p) :
      Step s (.promise e) { s with promise := p }
  | findEmpty (hs : s.sender = .testEmpty) (hq : s.node.sMq = []) :
      Step s .findEmpty { s with sender := .testStopping }
  | findTask (hs : s.sender = .testEmpty) (hq : s.node.sMq ≠ []) :
      Step s .findTask { s with sender := .testAgain }
  | findOpen (hs : s.sender = .testStopping) (hf : s.node.stopping = false) :
      Step s .findOpen { s with sender := .committed }
  | exitEmpty (hs : s.sender = .testStopping) (hf : s.node.stopping = true) :
      Step s .exitEmpty { s with sender := .returned }
  | sleep (hs : s.sender = .committed) : Step s .sleep { s with sender := .asleep }
  | take {smT : SendMsgT} {rest : List SendMsgT} (hs : s.sender = .testAgain)
      (hf : s.node.stopping = false) (hq : s.node.sMq = smT :: rest) : Step s .take { s with
        node := { s.node with sMq := rest }
        sender := .working smT }
  | exitTask (hs : s.sender = .testAgain) (hf : s.node.stopping = true) :
      Step s .exitTask { s with sender := .returned }
  | work {smT : SendMsgT} {tasks : List SendMsgT} {sends : List Send}
      (hs : s.sender = .working smT) (h : s.node.work smT = .ok (tasks, sends)) :
      Step s .work { s with
        node := { s.node with sMq := s.node.sMq ++ tasks }
        sender := .testEmpty }
  | crash {smT : SendMsgT} {f : Fault} (hs : s.sender = .working smT)
      (h : s.node.work smT = .error f) : Step s .work { s with sender := .crashed f }
  | produce (smT : SendMsgT) : Step s (.produce smT) { s with node := s.node.push smT }
  | notify : Step s .notify { s with sender := s.sender.woken }
  -- without a notification
  | wake : Step s .wake { s with sender := s.sender.woken }

/-- An error of a task leaves the sender thread, and that ends the process. -/
def Exit.Alive (s : Exit) : Prop := ∀ f, s.sender ≠ .crashed f

def ExitStep (s : Exit) (e : ExitEvent) (s' : Exit) : Prop := s.Alive ∧ s.Step e s'

namespace Exit

variable {s s' : Exit} {e : ExitEvent} {tr : List ExitEvent} {n : Node}

/-! ### The two waits -/

/-- The loop of the sender thread, as far as `stopping` goes: the first `notify_all` counts as one
from elsewhere. -/
def toWakeup (s : Exit) : Wakeup.State where
  waiter := match s.sender with
    | .committed => .committed
    | .asleep => .asleep
    | .returned => .passed
    | .testEmpty | .testStopping | .testAgain | .working _ | .crashed _ => .testing
  notifier := match s.main with
    | .running => .idle
    | .joining | .done => .done
    | .stored | .notified | .cleared | .async | .waiting | .resumed => .stored

def toSender : ExitEvent → Option Wakeup.Event
  | .findOpen => some .test
  | .exitEmpty | .exitTask => some .pass
  | .sleep => some .sleep
  | .store => some .set
  | .notifyLast => some .notify
  | .notifyStop | .notify | .wake => some .wake
  | .clear | .startAsync | .pushAction | .resume | .joined | .promise _ | .findEmpty | .findTask
  | .take | .work | .produce _ => none

def toPromise : ExitEvent → Option Wakeup.Event
  | .promise e => some e
  | _ => none

/-- The flag and the phases of the shutdown belong together. -/
structure Sound (s : Exit) : Prop where
  stopping : s.node.stopping = true ↔ s.main ≠ .running
  passed : s.main = .resumed ∨ s.main = .joining ∨ s.main = .done → s.promise.waiter = .passed
  returned : s.main = .done → s.sender = .returned

theorem sound_start (hn : n.stopping = false) : (start n).Sound where
  stopping := by simp [start, hn]
  passed := by rintro (h | h | h) <;> cases h
  returned := nofun

theorem returned_woken {p : SenderPhase} (h : p = .returned) : p.woken = .returned := by
  rw [h]
  rfl

theorem Sound.frame (hs : s.Sound) (hf : s'.node.stopping = s.node.stopping)
    (hm : s'.main = s.main) (hp : s.promise.waiter = .passed → s'.promise.waiter = .passed)
    (hr : s.sender = .returned → s'.sender = .returned) : s'.Sound where
  stopping := by rw [hf, hm, hs.stopping]
  passed h := hp (hs.passed (hm ▸ h))
  returned h := hr (hs.returned (hm ▸ h))

theorem Sound.advance (hs : s.Sound) (hf : s'.node.stopping = s.node.stopping)
    (hm : s.main ≠ .running) (hm' : s'.main ≠ .running)
    (hp : s'.main = .resumed ∨ s'.main = .joining ∨ s'.main = .done → s'.promise.waiter = .passed)
    (hr : s'.main = .done → s'.sender = .returned) : s'.Sound where
  stopping := by
    rw [hf, hs.stopping]
    exact iff_of_true hm hm'
  passed := hp
  returned := hr

theorem passed_step {p p' : Wakeup.State} {e : Wakeup.Event} (h : Wakeup.Step p e p')
    (hp : p.waiter = .passed) : p'.waiter = .passed := by
  cases h with
  | test hw | sleep hw =>
    rw [hp] at hw
    cases hw
  | pass => rfl
  | set => exact hp
  | notify | wake =>
    change p.waiter.woken = .passed
    rw [hp]
    rfl

theorem Sound.step (hs : s.Sound) (h : ExitStep s e s') : s'.Sound := by
  obtain ⟨-, h⟩ := h
  cases h with
  | store hm => exact ⟨by simp, by simp, nofun⟩
  | notifyStop hm | clear hm | startAsync hm | pushAction hm =>
    exact hs.advance rfl (by simp [hm]) nofun (by simp) nofun
  | resume hm hp => exact hs.advance rfl (by simp [hm]) nofun (fun _ => hp) nofun
  | notifyLast hm =>
    exact hs.advance rfl (by simp [hm]) nofun (fun _ => hs.passed (.inl hm)) nofun
  | joined hm hr =>
    exact hs.advance rfl (by simp [hm]) nofun (fun _ => hs.passed (.inr (.inl hm))) fun _ => hr
  | promise hm h => exact hs.frame rfl rfl (passed_step h) id
  | findEmpty h | findTask h | findOpen h | sleep h | take h | work h | crash h =>
    exact hs.frame rfl rfl id fun hr => by rw [hr] at h; cases h
  | exitEmpty h | exitTask h => exact hs.frame rfl rfl id fun _ => rfl
  | produce smT => exact hs.frame rfl rfl id id
  | notify | wake => exact hs.frame rfl rfl id returned_woken

theorem Sound.notifier_eq_idle_iff (hs : s.Sound) :
    s.toWakeup.notifier = .idle ↔ s.node.stopping = false := by
  rw [← Bool.not_eq_true, hs.stopping, not_not]
  cases hm : s.main <;> simp [toWakeup, hm]

theorem waiter_woken (p : SenderPhase) (m : ExitPhase) (n : Node) (w : Wakeup.State) :
    (toWakeup ⟨n, p.woken, m, w⟩).waiter = (toWakeup ⟨n, p, m, w⟩).waiter.woken := by
  cases p <;> rfl

/-- A step of the threads is a step of the wait of the sender thread, or does not concern it. -/
theorem Sound.sender_step (hs : s.Sound) (h : ExitStep s e s') :
    (∀ e', toSender e = some e' → Wakeup.Step s.toWakeup e' s'.toWakeup) ∧
      (toSender e = none → s'.toWakeup = s.toWakeup) := by
  have hidle := hs.notifier_eq_idle_iff
  obtain ⟨-, h⟩ := h
  cases h with
  | store hm =>
    refine ⟨fun e' he => ?_, nofun⟩
    cases he
    have hstep := Wakeup.Step.set (s := s.toWakeup) (by simp [toWakeup, hm])
    simpa [toWakeup] using hstep
  | notifyStop hm =>
    refine ⟨fun e' he => ?_, nofun⟩
    cases he
    have hstep := Wakeup.Step.wake (s := s.toWakeup)
    rw [show s.toWakeup = toWakeup ⟨s.node, s.sender, .notified, s.promise⟩ by
      simp [toWakeup, hm]] at hstep ⊢
    rw [← waiter_woken] at hstep
    exact hstep
  | clear hm | startAsync hm | pushAction hm | resume hm | joined hm =>
    refine ⟨nofun, fun _ => ?_⟩
    simp [toWakeup, hm]
  | notifyLast hm =>
    refine ⟨fun e' he => ?_, nofun⟩
    cases he
    have hstep := Wakeup.Step.notify (s := s.toWakeup) (by simp [toWakeup, hm])
    rw [← waiter_woken s.sender s.main s.node s.promise] at hstep
    exact hstep
  | findEmpty hq | findTask hq | take hq | work hq | crash hq =>
    refine ⟨nofun, fun _ => ?_⟩
    simp [toWakeup, hq]
  | findOpen hq hf =>
    refine ⟨fun e' he => ?_, nofun⟩
    cases he
    exact Wakeup.Step.test (s := s.toWakeup) (by simp [toWakeup, hq]) (hidle.mpr hf)
  | exitEmpty hq hf | exitTask hq hf =>
    refine ⟨fun e' he => ?_, nofun⟩
    cases he
    exact Wakeup.Step.pass (s := s.toWakeup) (by simp [toWakeup, hq]) fun h => by
      rw [hidle.mp h] at hf
      cases hf
  | sleep hq =>
    refine ⟨fun e' he => ?_, nofun⟩
    cases he
    exact Wakeup.Step.sleep (s := s.toWakeup) (by simp [toWakeup, hq])
  | promise | produce => exact ⟨nofun, fun _ => rfl⟩
  | notify | wake =>
    refine ⟨fun e' he => ?_, nofun⟩
    cases he
    have hstep := Wakeup.Step.wake (s := s.toWakeup)
    rw [← waiter_woken s.sender s.main s.node s.promise] at hstep
    exact hstep

/-- **The wait of the sender thread**, as `Wakeup` has it. -/
theorem run_sender (hn : n.stopping = false) (h : Lts.Run ExitStep (start n) tr s) :
    s.Sound ∧ Lts.Run Wakeup.Step Wakeup.start (tr.filterMap toSender) s.toWakeup :=
  h.project toWakeup toSender (sound_start hn) fun _ _ _ hs h => ⟨hs.step h, hs.sender_step h⟩

/-- **The wait in `stopapp`**. -/
theorem run_promise (h : Lts.Run ExitStep (start n) tr s) :
    Lts.Run Wakeup.Step Wakeup.start (tr.filterMap toPromise) s.promise := by
  refine (h.project (I := fun _ => True) Exit.promise toPromise trivial ?_).2
  rintro s e s' - ⟨-, h⟩
  refine ⟨trivial, ?_⟩
  cases h with
  | promise hm h => exact ⟨fun e' he => by cases he; exact h, nofun⟩
  | store | notifyStop | clear | startAsync | pushAction | resume | notifyLast | joined | findEmpty
  | findTask | findOpen | exitEmpty | sleep | take | exitTask | work | crash | produce | notify
  | wake => exact ⟨nofun, fun _ => rfl⟩

/-! ### How much is left to do -/

/-- What the threads of the node do of themselves once `stopping` is set: everything but the
messages that still come, and wake-ups that `stopapp` does not cause. -/
def Own : ExitEvent → Prop
  | .produce _ | .notify | .wake | .promise .wake => False
  | _ => True

instance : DecidablePred Own := fun e => by
  unfold Own
  split <;> infer_instance

/-- The wake-ups that `stopapp` does not cause. -/
def Wakes : ExitEvent → Prop
  | .notify | .wake | .promise .wake => True
  | _ => False

instance : DecidablePred Wakes := fun e => by
  unfold Wakes
  split <;> infer_instance

/-- No thread has a step of its own. -/
def Stand (s : Exit) : Prop := ∀ e s', Own e → ¬ ExitStep s e s'

end Exit

def SenderPhase.rank : SenderPhase → ℕ
  | .working _ => 4
  | .testEmpty => 3
  | .testStopping | .testAgain => 2
  | .committed => 1
  | .asleep | .returned | .crashed _ => 0

def ExitPhase.rank : ExitPhase → ℕ
  | .running => 8
  | .stored => 7
  | .notified => 6
  | .cleared => 5
  | .async => 4
  | .waiting => 3
  | .resumed => 2
  | .joining => 1
  | .done => 0

namespace Exit

variable {s s' : Exit} {e : ExitEvent} {tr : List ExitEvent} {n : Node}

/-- A `notify_all` gives the sender thread three more steps at most. -/
theorem rank_woken_le (p : SenderPhase) : p.woken.rank ≤ p.rank + 3 := by
  cases p <;> simp [SenderPhase.woken, SenderPhase.rank]

def rank (s : Exit) : ℕ := 4 * s.main.rank + s.sender.rank + s.promise.rank

theorem rank_le (hm : s.main ≠ .running) : s.rank ≤ 40 := by
  have hmain : s.main.rank ≤ 7 := by
    cases h : s.main with
    | running => exact absurd h hm
    | _ => simp [ExitPhase.rank]
  have hsender : s.sender.rank ≤ 4 := by
    cases s.sender <;> simp [SenderPhase.rank]
  have hpromise := s.promise.rank_le
  simp only [rank]
  omega

theorem main_ne_running (h : ExitStep s e s') (hm : s.main ≠ .running) : s'.main ≠ .running := by
  obtain ⟨-, h⟩ := h
  cases h with
  | store h => exact absurd h hm
  | notifyStop | clear | startAsync | pushAction | resume | notifyLast | joined => nofun
  | promise | findEmpty | findTask | findOpen | exitEmpty | sleep | take | exitTask | work | crash
  | produce | notify | wake => exact hm

/-- **A step of the threads**, once `stopping` is set, leaves them less to do. -/
theorem rank_lt (hs : s.Sound) (hm : s.main ≠ .running) (h : ExitStep s e s') (ho : Own e) :
    s'.rank < s.rank := by
  have hstop := hs.stopping.mpr hm
  obtain ⟨-, h⟩ := h
  have hwoken := rank_woken_le s.sender
  cases h with
  | store h => exact absurd h hm
  | notifyStop h | clear h | startAsync h | pushAction h | resume h | notifyLast h | joined h =>
    simp only [rank, h, ExitPhase.rank]
    omega
  | @promise e p _ h =>
    have hlt := h.rank_lt (fun he => by simp [he, Own] at ho)
    simp only [rank]
    omega
  | findOpen _ hf | take _ hf =>
    rw [hstop] at hf
    cases hf
  | findEmpty h | findTask h | exitEmpty h | sleep h | exitTask h | work h | crash h =>
    simp only [rank, h, SenderPhase.rank]
    omega
  | produce | notify | wake => exact ho.elim

theorem rank_le_add (h : ExitStep s e s') (ho : ¬ Own e) :
    s'.rank ≤ s.rank + if Wakes e then 3 else 0 := by
  obtain ⟨-, h⟩ := h
  have hwoken := rank_woken_le s.sender
  cases h with
  | @promise e p _ h =>
    cases e with
    | wake =>
      have hle := h.rank_le
      rw [if_pos (show Wakes (.promise .wake) from trivial)]
      simp only [rank]
      omega
    | test | pass | sleep | set | notify => exact absurd trivial ho
  | produce => exact Nat.le_add_right _ _
  | notify =>
    rw [if_pos (show Wakes .notify from trivial)]
    simp only [rank]
    omega
  | wake =>
    rw [if_pos (show Wakes .wake from trivial)]
    simp only [rank]
    omega
  | store | notifyStop | clear | startAsync | pushAction | resume | notifyLast | joined | findEmpty
  | findTask | findOpen | exitEmpty | sleep | take | exitTask | work | crash =>
    exact absurd trivial ho

/-- **The threads do finitely much** once `stopping` is set: forty steps, and three for each wake-up
from elsewhere; a push alone costs nothing. -/
theorem own_length_le (hs : s.Sound) (hm : s.main ≠ .running) (h : Lts.Run ExitStep s tr s') :
    (tr.filter (Own ·)).length ≤ 40 + 3 * (tr.filter (Wakes ·)).length := by
  have hle := h.length_filter_le Own Wakes (I := fun s => s.Sound ∧ s.main ≠ .running) (μ := rank)
    (k := 3) ⟨hs, hm⟩ (fun _ _ _ hI h => ⟨hI.1.step h, main_ne_running h hI.2⟩)
    (fun _ _ _ hI h ho => rank_lt hI.1 hI.2 h ho) fun _ _ _ _ h ho => rank_le_add h ho
  have := rank_le hm
  omega

/-! ### Where it comes to a stand -/

/-- The sender thread at a stand of the shutdown sleeps, or it is behind its loop. -/
theorem Stand.sender (hst : s.Stand) (hal : s.Alive) (hf : s.node.stopping = true) :
    s.sender = .asleep ∨ s.sender = .returned := by
  cases hp : s.sender with
  | testEmpty =>
    by_cases hq : s.node.sMq = []
    · exact absurd ⟨hal, .findEmpty hp hq⟩ (hst .findEmpty _ trivial)
    · exact absurd ⟨hal, .findTask hp hq⟩ (hst .findTask _ trivial)
  | testStopping => exact absurd ⟨hal, .exitEmpty hp hf⟩ (hst .exitEmpty _ trivial)
  | testAgain => exact absurd ⟨hal, .exitTask hp hf⟩ (hst .exitTask _ trivial)
  | committed => exact absurd ⟨hal, .sleep hp⟩ (hst .sleep _ trivial)
  | working smT =>
    cases hw : s.node.work smT with
    | ok r => exact absurd ⟨hal, .work hp hw⟩ (hst .work _ trivial)
    | error f => exact absurd ⟨hal, .crash hp hw⟩ (hst .work _ trivial)
  | asleep => exact .inl rfl
  | returned => exact .inr rfl
  | crashed f => exact absurd hp (hal f)

theorem Stand.promise (hst : s.Stand) (hal : s.Alive) (hm : s.main = .waiting) :
    s.promise.waiter = .passed ∨ Wakeup.Hangs s.promise := by
  refine Wakeup.passed_or_hangs fun e p he h => ?_
  refine hst (.promise e) _ ?_ ⟨hal, .promise (runs_of_waiting hm e) h⟩
  cases e with
  | wake => exact absurd rfl he
  | test | pass | sleep | set | notify => trivial

/-- Where a shutdown comes to a stand: at its end, in the wait for the queued action, or in the
`join`. -/
theorem Stand.cases (hst : s.Stand) (hs : s.Sound) (hal : s.Alive) (hm : s.main ≠ .running) :
    s.main = .done ∨ (s.main = .waiting ∧ Wakeup.Hangs s.promise) ∨
      (s.main = .joining ∧ Wakeup.Hangs s.toWakeup) := by
  have hf := hs.stopping.mpr hm
  cases hmain : s.main with
  | running => exact absurd hmain hm
  | stored => exact absurd ⟨hal, .notifyStop hmain⟩ (hst .notifyStop _ trivial)
  | notified => exact absurd ⟨hal, .clear hmain⟩ (hst .clear _ trivial)
  | cleared => exact absurd ⟨hal, .startAsync hmain⟩ (hst .startAsync _ trivial)
  | async => exact absurd ⟨hal, .pushAction hmain⟩ (hst .pushAction _ trivial)
  | resumed => exact absurd ⟨hal, .notifyLast hmain⟩ (hst .notifyLast _ trivial)
  | waiting =>
    rcases hst.promise hal hmain with hp | hp
    · exact absurd ⟨hal, .resume hmain hp⟩ (hst .resume _ trivial)
    · exact .inr (.inl ⟨rfl, hp⟩)
  | joining =>
    rcases hst.sender hal hf with hp | hp
    · exact .inr (.inr ⟨rfl, by simp [toWakeup, hp], by simp [toWakeup, hmain]⟩)
    · exact absurd ⟨hal, .joined hmain hp⟩ (hst .joined _ trivial)
  | done => exact .inl rfl

/-- **A shutdown** comes to a stand after forty steps of the threads at most, and three for each
wake-up from elsewhere, whatever is pushed meanwhile. It is then over exactly when neither
notification fell between a test and its wait, and no task of the sender thread met an error. -/
theorem run_exit (hn : n.stopping = false) (h : Lts.Run ExitStep (start n) tr s)
    (hm : s.main ≠ .running) :
    (∀ tr' s', Lts.Run ExitStep s tr' s' →
      (tr'.filter (Own ·)).length ≤ 40 + 3 * (tr'.filter (Wakes ·)).length) ∧
    (s.Stand → (s.main = .done ↔ ¬ Wakeup.Missed (tr.filterMap toPromise) ∧
      ¬ Wakeup.Missed (tr.filterMap toSender) ∧ s.Alive)) := by
  obtain ⟨hs, hsender⟩ := run_sender hn h
  refine ⟨fun tr' s' => own_length_le hs hm, fun hst => ?_⟩
  rw [← Wakeup.run_hangs_iff (run_promise h), ← Wakeup.run_hangs_iff hsender]
  constructor
  · intro hdone
    have hret := hs.returned hdone
    refine ⟨fun hh => ?_, fun hh => ?_, fun f hf => ?_⟩
    · cases (hs.passed (.inr (.inr hdone))).symm.trans hh.1
    · cases (show s.toWakeup.waiter = .passed by simp [toWakeup, hret]).symm.trans hh.1
    · cases hret.symm.trans hf
  · rintro ⟨hp, hw, hal⟩
    rcases hst.cases hs hal hm with hd | ⟨-, hh⟩ | ⟨-, hh⟩
    · exact hd
    · exact absurd hh hp
    · exact absurd hh hw

/-- Nothing wakes a sender thread that sleeps in front of the `join`. -/
theorem stand_of_asleep (hm : s.main = .joining) (hs : s.sender = .asleep)
    (hp : s.promise = ⟨.passed, .done⟩) : s.Stand := by
  rintro e s' ho ⟨-, h⟩
  cases h with
  | store h | notifyStop h | clear h | startAsync h | pushAction h | resume h | notifyLast h =>
    rw [hm] at h
    cases h
  | joined _ h | findEmpty h | findTask h | findOpen h | exitEmpty h | sleep h | take h | exitTask h
  | work h | crash h =>
    rw [hs] at h
    cases h
  | promise _ h =>
    rw [hp] at h
    cases h with
    | test h | pass h | sleep h | set h | notify h => cases h
    | wake => exact ho
  | produce | notify | wake => exact ho

/-- The whole of `stopapp` comes between the test of the sender thread and its wait. -/
theorem run_exit_committed : ∃ tr s, Lts.Run ExitStep (start (.new "" String.length)) tr s ∧
    s.main ≠ .running ∧ s.Stand ∧ s.main ≠ .done := by
  have hal : ∀ {s : Exit}, s.sender = .committed → s.Alive := fun h f hf => by
    rw [h] at hf
    cases hf
  have h₀ : Lts.Run ExitStep (start (.new "" String.length)) [] (start (.new "" String.length)) :=
    .nil
  have h := ((h₀.snoc ⟨nofun, .findEmpty rfl rfl⟩).snoc ⟨nofun, .findOpen rfl rfl⟩).snoc
    ⟨hal rfl, .store rfl⟩
  have h := (((h.snoc ⟨hal rfl, .notifyStop rfl⟩).snoc ⟨hal rfl, .clear rfl⟩).snoc
    ⟨hal rfl, .startAsync rfl⟩).snoc ⟨hal rfl, .pushAction rfl⟩
  have h := ((h.snoc ⟨hal rfl, .promise (runs_of_waiting rfl .set) (.set rfl)⟩).snoc
    ⟨hal rfl, .promise (runs_of_waiting rfl .notify) (.notify rfl)⟩).snoc
    ⟨hal rfl, .promise (runs_of_waiting rfl .pass) (.pass rfl nofun)⟩
  have h := ((h.snoc ⟨hal rfl, .resume rfl rfl⟩).snoc ⟨hal rfl, .notifyLast rfl⟩).snoc
    ⟨hal rfl, .sleep rfl⟩
  refine ⟨_, _, h, nofun, stand_of_asleep rfl rfl rfl, fun hd => ?_⟩
  exact (((run_exit rfl h nofun).2 (stand_of_asleep rfl rfl rfl)).mp hd).2.1
    ⟨[], [.set, .wake, .notify], [], rfl, by decide, by decide, nofun⟩

end Exit

end Yamb
