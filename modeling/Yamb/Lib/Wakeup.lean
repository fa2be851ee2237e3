import Yamb.Lib.Lts

/-!
# A wait that is woken without its lock

One thread runs `while (!flag) cv.wait(lock)`, another one sets the flag and calls `notify_all`
without the lock, so that both may come between the test and the wait.

* `State`, `Event`, `Step`: the two threads, and wake-ups from elsewhere;
* `Hangs`: the thread sleeps and is not notified any more;
* **`run_hangs_iff`**: that is so exactly when the notification came after the last test and before
  the wait.
-/

set_option autoImplicit false

namespace Wakeup

/-- The waiting thread: awake, between the test and the wait, in the wait, and behind the loop. -/
inductive Waiter
  | testing | committed | asleep | passed
  deriving DecidableEq

/-- The other thread: the flag is set from `stored` on. -/
inductive Notifier
  | idle | stored | done
  deriving DecidableEq

structure State where
  waiter : Waiter
  notifier : Notifier
  deriving DecidableEq

/-- `wake` is a wake-up that the other thread does not cause. -/
inductive Event
  | test | pass | sleep | set | notify | wake
  deriving DecidableEq

def Waiter.woken : Waiter → Waiter
  | .asleep => .testing
  | w => w

inductive Step (s : State) : Event → State → Prop
  | test (hw : s.waiter = .testing) (hn : s.notifier = .idle) :
      Step s .test { s with waiter := .committed }
  | pass (hw : s.waiter = .testing) (hn : s.notifier ≠ .idle) :
      Step s .pass { s with waiter := .passed }
  | sleep (hw : s.waiter = .committed) : Step s .sleep { s with waiter := .asleep }
  | set (hn : s.notifier = .idle) : Step s .set { s with notifier := .stored }
  | notify (hn : s.notifier = .stored) : Step s .notify ⟨s.waiter.woken, .done⟩
  | wake : Step s .wake { s with waiter := s.waiter.woken }

def start : State := ⟨.testing, .idle⟩

/-- The thread sleeps, and the one that was to wake it is done. -/
def Hangs (s : State) : Prop := s.waiter = .asleep ∧ s.notifier = .done

instance (s : State) : Decidable (Hangs s) := inferInstanceAs (Decidable (_ ∧ _))

/-- The notification came between the last test and the wait, and no other wake-up since. -/
def Missed (tr : List Event) : Prop :=
  ∃ t₁ t₂ t₃, tr = t₁ ++ .test :: (t₂ ++ .sleep :: t₃) ∧ .test ∉ t₂ ∧ .notify ∈ t₂ ∧ .wake ∉ t₃

def Waiter.rank : Waiter → ℕ
  | .testing => 2
  | .committed => 1
  | .asleep | .passed => 0

def Notifier.rank : Notifier → ℕ
  | .idle => 2
  | .stored => 1
  | .done => 0

/-- How much the two threads still have to do. -/
def State.rank (s : State) : ℕ := 3 * s.notifier.rank + s.waiter.rank

variable {s s' : State} {e : Event} {tr : List Event}

theorem rank_woken_le (w : Waiter) : w.woken.rank ≤ w.rank + 2 := by
  cases w <;> simp [Waiter.woken, Waiter.rank]

theorem State.rank_le (s : State) : s.rank ≤ 8 := by
  obtain ⟨w, n⟩ := s
  cases w <;> cases n <;> simp [rank, Waiter.rank, Notifier.rank]

/-- A step of the two threads leaves them less to do. -/
theorem Step.rank_lt (h : Step s e s') (he : e ≠ .wake) : s'.rank < s.rank := by
  cases h with
  | test hw hn | pass hw hn => simp [State.rank, hw, Waiter.rank]
  | sleep hw => simp [State.rank, hw, Waiter.rank]
  | set hn => simp [State.rank, hn, Notifier.rank]
  | notify hn =>
    have := rank_woken_le s.waiter
    simp only [State.rank, hn, Notifier.rank]
    omega
  | wake => exact absurd rfl he

theorem Step.rank_le (h : Step s .wake s') : s'.rank ≤ s.rank + 2 := by
  cases h with
  | wake =>
    have := rank_woken_le s.waiter
    simp only [State.rank]
    omega

/-- When neither thread can do a step, the wait is over or hangs. -/
theorem passed_or_hangs (h : ∀ e s', e ≠ .wake → ¬ Step s e s') :
    s.waiter = .passed ∨ Hangs s := by
  have hn : s.notifier = .done := by
    cases hn : s.notifier with
    | idle => exact absurd (.set hn) (h .set _ nofun)
    | stored => exact absurd (.notify hn) (h .notify _ nofun)
    | done => rfl
  cases hw : s.waiter with
  | testing => exact absurd (.pass hw (by simp [hn])) (h .pass _ nofun)
  | committed => exact absurd (.sleep hw) (h .sleep _ nofun)
  | asleep => exact .inr ⟨hw, hn⟩
  | passed => exact .inl rfl

theorem eq_of_woken {w w' : Waiter} (h : w.woken = w') (hw : w' ≠ .testing) : w = w' := by
  cases w with
  | asleep => exact absurd h.symm hw
  | testing | committed | passed => exact h

theorem entry_asleep (h : Step s e s') (hs : s.waiter ≠ .asleep) (hs' : s'.waiter = .asleep) :
    e = .sleep ∧ s.waiter = .committed := by
  cases h with
  | sleep hw => exact ⟨rfl, hw⟩
  | notify | wake => exact absurd (eq_of_woken hs' nofun) hs
  | set => exact absurd hs' hs
  | test | pass => cases hs'

theorem entry_committed (h : Step s e s') (hs : s.waiter ≠ .committed)
    (hs' : s'.waiter = .committed) : e = .test := by
  cases h with
  | test => rfl
  | notify | wake => exact absurd (eq_of_woken hs' nofun) hs
  | set => exact absurd hs' hs
  | pass | sleep => cases hs'

/-- While the thread stays between its test and its wait. -/
theorem run_committed {u : State}
    (h : Lts.Run (Lts.Into Step fun s => s.waiter = .committed) u tr s) (hu : u.waiter = .committed)
    (hn : u.notifier = .idle) : .test ∉ tr ∧ (s.notifier = .done ↔ .notify ∈ tr) := by
  suffices H : s.waiter = .committed ∧ .test ∉ tr ∧ (s.notifier = .done ↔ .notify ∈ tr) from H.2
  refine h.trace_invariant (I := fun tr s => s.waiter = .committed ∧ .test ∉ tr ∧
    (s.notifier = .done ↔ .notify ∈ tr)) ⟨hu, List.not_mem_nil, by simp [hn]⟩ ?_
  rintro tr s e s' ⟨hw, ht, hd⟩ ⟨he, hw'⟩
  refine ⟨hw', ?_⟩
  cases he with
  | test hw₁ | pass hw₁ =>
    rw [hw] at hw₁
    cases hw₁
  | sleep => cases hw'
  | set hn => simpa [ht, hn] using hd
  | notify hn => simp [ht]
  | wake => simpa [ht] using hd

/-- While the thread sleeps, nothing wakes it. -/
theorem run_asleep {u : State}
    (h : Lts.Run (Lts.Into Step fun s => s.waiter = .asleep) u tr s) (hu : u.waiter = .asleep) :
    .wake ∉ tr ∧ (s.notifier = .done → u.notifier = .done) := by
  suffices H : s.waiter = .asleep ∧ .wake ∉ tr ∧ (s.notifier = .done → u.notifier = .done) from H.2
  refine h.trace_invariant (I := fun tr s => s.waiter = .asleep ∧ .wake ∉ tr ∧
    (s.notifier = .done → u.notifier = .done)) ⟨hu, List.not_mem_nil, id⟩ ?_
  rintro tr s e s' ⟨hw, ht, hd⟩ ⟨he, hw'⟩
  refine ⟨hw', ?_⟩
  cases he with
  | test hw₁ | pass hw₁ | sleep hw₁ =>
    rw [hw] at hw₁
    cases hw₁
  | set => exact ⟨by simp [ht], nofun⟩
  | notify | wake =>
    have hwoken : s.waiter.woken = .asleep := hw'
    rw [hw] at hwoken
    cases hwoken

/-- Once the other thread is done, only another wake-up ends the sleep. -/
theorem Hangs.run {u : State} (hu : Hangs u) (h : Lts.Run Step u tr s) (hw : .wake ∉ tr) :
    Hangs s := by
  induction h with
  | nil => exact hu
  | @snoc tr s s' e _ he ih =>
    have hs := ih fun h => hw (List.mem_append_left _ h)
    cases he with
    | test h₁ | pass h₁ | sleep h₁ =>
      rw [hs.1] at h₁
      cases h₁
    | set h₁ | notify h₁ =>
      rw [hs.2] at h₁
      cases h₁
    | wake => simp at hw

/-- **The thread hangs** exactly when the notification fell between its test and its wait. -/
theorem run_hangs_iff (h : Lts.Run Step start tr s) : Hangs s ↔ Missed tr := by
  constructor
  · rintro ⟨hw, hn⟩
    obtain ⟨t₀, e, t₃, v, v', rfl, hr₀, hv, he, hv', hr₃⟩ :=
      h.last_entry (A := fun s => s.waiter = .asleep) nofun hw
    obtain ⟨rfl, hc⟩ := entry_asleep he hv hv'
    obtain ⟨t₁, e, t₂, u, u', rfl, hr₁, hu, heu, hu', hr₂⟩ :=
      hr₀.last_entry (A := fun s => s.waiter = .committed) nofun hc
    obtain rfl := entry_committed heu hu hu'
    cases he with
    | sleep =>
      obtain ⟨hwake, hdone⟩ := run_asleep hr₃ rfl
      cases heu with
      | test _ hidle =>
        obtain ⟨htest, hiff⟩ := run_committed hr₂ rfl hidle
        exact ⟨t₁, t₂, t₃, by simp, htest, hiff.mp (hdone hn), hwake⟩
  · rintro ⟨t₁, t₂, t₃, rfl, htest, hnotify, hwake⟩
    obtain ⟨u, u', hr₁, heu, hr⟩ := h.split
    obtain ⟨v, v', hr₂, hev, hr₃⟩ := hr.split
    cases hev with
    | sleep hc =>
      obtain ⟨hu', hr₂⟩ := hr₂.into_of_no_entry (A := fun s => s.waiter = .committed)
        (E := (· = .test)) hc (fun _ _ _ h hA hA' => entry_committed h hA hA')
        fun e he h => htest (h ▸ he)
      cases heu with
      | test _ hidle =>
        have hdone := (run_committed hr₂ rfl hidle).2.mpr hnotify
        have hv : Hangs { v with waiter := .asleep } := ⟨rfl, hdone⟩
        exact hv.run hr₃ hwake

end Wakeup
