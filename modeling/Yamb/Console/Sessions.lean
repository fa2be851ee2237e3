import Yamb.Console.Model

/-!
# How a session on the console ends

* `Deaf`: no later session takes a message, until the room is joined again;
* **`run_deaf_iff`**: that is so exactly after a session which the outer loop has ended;
* `Stranded`: the thread sleeps, it has something to do, and no notification is outstanding;
* **`run_stranded_iff`**: that is so exactly when a whole call of `handle`, or the whole of `q`, has
  come between the thread's look at the queue and its wait.
-/

set_option autoImplicit false

namespace Yamb.Console

variable {s s' : Console} {e : ConsoleEvent} {tr : List ConsoleEvent} {junk : ℕ → JsonValue}
  {D : Prop}

/-! ### The flag that is left behind -/

/-- No message is taken any more, unless the room is joined again. -/
def Deaf (s : Console) : Prop :=
  ∀ tr s', Lts.Run ConsoleStep s tr s' → .join ∉ tr → s'.taken = s.taken

/-- The outer loop has ended a session, and the room was not joined since. -/
def LeftOuter (tr : List ConsoleEvent) : Prop :=
  ∃ t₁ t₂, tr = t₁ ++ .leaveOuter :: t₂ ∧ .join ∉ t₂

theorem leftOuter_snoc_iff :
    LeftOuter (tr ++ [e]) ↔ e = .leaveOuter ∨ LeftOuter tr ∧ e ≠ .join := by
  constructor
  · rintro ⟨t₁, t₂, htr, hj⟩
    rcases List.eq_nil_or_concat' t₂ with rfl | ⟨t₂, e', rfl⟩
    · exact .inl (List.append_inj_right' htr rfl |> List.singleton_inj.mp)
    · rw [← List.cons_append, ← List.append_assoc] at htr
      obtain ⟨rfl, he⟩ := List.append_inj' htr rfl
      obtain rfl := List.singleton_inj.mp he
      refine .inr ⟨⟨t₁, t₂, rfl, fun h => hj (List.mem_append_left _ h)⟩, ?_⟩
      rintro rfl
      exact hj (by simp)
  · rintro (rfl | ⟨⟨t₁, t₂, rfl, hj⟩, he⟩)
    · exact ⟨tr, [], rfl, List.not_mem_nil⟩
    · refine ⟨t₁, t₂ ++ [e], by simp, ?_⟩
      simp [hj, he.symm]

/-- What the flag tells, where `D` says that the outer loop has ended a session since the last
`join`. -/
structure Left (s : Console) (D : Prop) : Prop where
  menu : s.phase = .menu → s.reader = .returned
  returned : s.reader = .returned → (s.flag = true ↔ D)
  early : s.phase = .reading → s.reader = .returned → D
  inside : s.reader ≠ .returned → s.reader ≠ .outer → ¬ D
  reading : s.phase = .reading → s.reader ≠ .returned → (s.flag = true ↔ D)
  closing : s.phase = .stored ∨ s.phase = .joining → s.reader ≠ .returned → s.flag = true

theorem left_new (junk : ℕ → JsonValue) : (new junk).Left (LeftOuter []) where
  menu _ := rfl
  returned _ := by simp [new, LeftOuter]
  early := nofun
  inside h := absurd rfl h
  reading := nofun
  closing := by rintro (h | h) <;> cases h

/-- A step inside of a session, or beside it. -/
theorem Left.move (h : s.Left D) (hflag : s'.flag = s.flag) (hphase : s'.phase = s.phase)
    (hret : s'.reader = .returned ↔ s.reader = .returned)
    (hD : s'.reader ≠ .returned → s'.reader ≠ .outer → ¬ D) : s'.Left D where
  menu hp := hret.mpr (h.menu (hphase ▸ hp))
  returned hr := by
    rw [hflag]
    exact h.returned (hret.mp hr)
  early hp hr := h.early (hphase ▸ hp) (hret.mp hr)
  inside := hD
  reading hp hr := by
    rw [hflag]
    exact h.reading (hphase ▸ hp) (mt hret.mpr hr)
  closing hp hr := by
    rw [hflag]
    exact h.closing (hphase ▸ hp) (mt hret.mpr hr)

theorem woken_returned_iff {r : ReaderPhase} : r.woken = .returned ↔ r = .returned := by
  cases r with
  | asleep => exact iff_of_false nofun nofun
  | outer | testEmpty | testFlag | committed | testQuit | taking | printing | returned =>
    exact Iff.rfl

theorem Left.inside_woken (h : s.Left D) (hr : s.reader.woken ≠ .returned)
    (ho : s.reader.woken ≠ .outer) : ¬ D := by
  refine h.inside (mt woken_returned_iff.mpr hr) fun hs => ho ?_
  rw [hs]
  rfl

/-- A thread that finds the flag unset in front of its loop was not left behind. -/
theorem Left.not_of_outer (h : s.Left D) (hr : s.reader = .outer) (hf : s.flag = false) : ¬ D := by
  have hret : s.reader ≠ .returned := by
    rw [hr]
    exact nofun
  cases hp : s.phase with
  | menu => exact absurd (h.menu hp) hret
  | reading =>
    rw [← h.reading hp hret, hf]
    exact Bool.false_ne_true
  | stored =>
    have := h.closing (.inl hp) hret
    simp [hf] at this
  | joining =>
    have := h.closing (.inr hp) hret
    simp [hf] at this

/-- Every other step leaves `D` as it is. -/
theorem Left.step_of_ne (h : s.Left D) (he : ConsoleStep s e s') (hj : e ≠ .join)
    (hl : e ≠ .leaveOuter) : s'.Left D := by
  cases he with
  | join => exact absurd rfl hj
  | leaveOuter => exact absurd rfl hl
  | put j => exact h.move rfl rfl Iff.rfl h.inside
  | notify hn => exact h.move rfl rfl woken_returned_iff h.inside_woken
  | read hp =>
    have hret := h.returned (h.menu hp)
    refine ⟨nofun, nofun, nofun, fun _ ho => absurd rfl ho, fun _ _ => hret, ?_⟩
    rintro (hp | hp) <;> cases hp
  | quit hp =>
    refine ⟨nofun, fun hr => ?_, nofun, h.inside, nofun, fun _ _ => rfl⟩
    exact iff_of_true rfl (h.early hp hr)
  | notifyQuit hp =>
    refine ⟨nofun, fun hr => h.returned (woken_returned_iff.mp hr), nofun, h.inside_woken, nofun,
      fun _ hr => h.closing (.inl hp) (mt woken_returned_iff.mpr hr)⟩
  | back hp hr =>
    refine ⟨fun _ => hr, h.returned, nofun, h.inside, nofun, ?_⟩
    rintro (hp | hp) <;> cases hp
  | enterLoop hr hf =>
    refine h.move rfl rfl (iff_of_false nofun ?_) fun _ _ => h.not_of_outer hr hf
    rw [hr]
    exact nofun
  | findEmpty hr | findMessage hr | findOpen hr | findQuit hr | sleep hr | wake hr | goOn hr
  | take hr | print hr =>
    refine h.move rfl rfl (iff_of_false nofun ?_) fun _ _ => h.inside ?_ ?_
    all_goals
      rw [hr]
      exact nofun
  | leaveInner hr hf =>
    have hD : ¬ D := h.inside (by rw [hr]; exact nofun) (by rw [hr]; exact nofun)
    refine ⟨fun _ => rfl, fun _ => iff_of_false Bool.false_ne_true hD, fun hp _ => ?_,
      fun hn => absurd rfl hn, fun _ hn => absurd rfl hn, fun _ hn => absurd rfl hn⟩
    exact (h.reading hp (by rw [hr]; exact nofun)).mp hf

theorem Left.step (h : s.Left D) (he : ConsoleStep s e s') :
    s'.Left (e = .leaveOuter ∨ D ∧ e ≠ .join) := by
  by_cases hj : e = .join
  · subst hj
    cases he with
    | join hp =>
      have hr := h.menu hp
      refine ⟨h.menu, fun _ => by simp, ?_, fun hn => absurd hr hn, ?_, ?_⟩
      all_goals simp [hp]
  · by_cases hl : e = .leaveOuter
    · subst hl
      cases he with
      | leaveOuter hr hf =>
        exact ⟨fun _ => rfl, fun _ => iff_of_true hf (.inl rfl), fun _ _ => .inl rfl,
          fun hn => absurd rfl hn, fun _ hn => absurd rfl hn, fun _ hn => absurd rfl hn⟩
    · simpa [hj, hl] using h.step_of_ne he hj hl

theorem run_left (h : Lts.Run ConsoleStep (new junk) tr s) : s.Left (LeftOuter tr) := by
  refine h.trace_invariant (I := fun tr s => s.Left (LeftOuter tr)) (left_new junk) ?_
  intro tr s e s' hs he
  rw [leftOuter_snoc_iff]
  exact hs.step he

/-- With the flag set, the sessions that are opened end at once. -/
theorem deaf_of_flag (hr : s.reader = .returned) (hf : s.flag = true) : s.Deaf := by
  intro tr s' h hj
  suffices H : s'.taken = s.taken ∧ s'.flag = true ∧ (s'.reader = .outer ∨ s'.reader = .returned) from
    H.1
  induction h with
  | nil => exact ⟨rfl, hf, .inr hr⟩
  | @snoc tr s₁ s' e _ he ih =>
    obtain ⟨ht, hf, hr⟩ := ih fun h => hj (List.mem_append_left _ h)
    cases he with
    | join => simp at hj
    | put | quit | back => exact ⟨ht, by first | exact hf | rfl, hr⟩
    | notify | notifyQuit =>
      refine ⟨ht, hf, hr.imp (fun hr => ?_) fun hr => ?_⟩
      all_goals
        show s₁.reader.woken = _
        rw [hr]
        rfl
    | read => exact ⟨ht, hf, .inl rfl⟩
    | leaveOuter => exact ⟨ht, hf, .inr rfl⟩
    | enterLoop _ hopen =>
      rw [hf] at hopen
      cases hopen
    | findEmpty hr' | findMessage hr' | findOpen hr' | findQuit hr' | sleep hr' | wake hr'
    | leaveInner hr' | goOn hr' | take hr' | print hr' =>
      rcases hr with hr | hr
      all_goals
        rw [hr'] at hr
        cases hr

/-- With the flag unset, a message that comes is taken in the next session. -/
theorem not_deaf_of_open (hp : s.phase = .menu) (hf : s.flag = false)
    (hq : (s.queue.put .null).isEmpty = false) : ¬ s.Deaf := by
  intro h
  have h₀ : Lts.Run ConsoleStep s [] s := .nil
  have hrun := (((((h₀.snoc (.put .null)).snoc
    (.read hp)).snoc (.enterLoop rfl hf)).snoc (.findMessage rfl hq)).snoc (.goOn rfl hf)).snoc
    (.take rfl)
  have hlen := congrArg List.length (h _ _ hrun (by simp))
  simp at hlen

/-- **A console is deaf** in the menu exactly when a session was ended by its outer loop, which leaves
the flag set, and the room was not joined since. -/
theorem run_deaf_iff (h : Lts.Run ConsoleStep (new junk) tr s) (hp : s.phase = .menu) :
    s.Deaf ↔ LeftOuter tr := by
  have hl := run_left h
  have hr := hl.menu hp
  rw [← hl.returned hr]
  constructor
  · intro hd
    by_contra hf
    obtain ⟨-, waiting, n, ht⟩ := exists_transcript h
    exact not_deaf_of_open hp (by simpa using hf) (isEmpty_put ht.queue .null) hd
  · exact deaf_of_flag hr

/-- `q` comes while the only message is printed. -/
theorem run_deaf_greeting : ∃ tr s, Lts.Run ConsoleStep (new fun _ => .null) tr s ∧
    s.phase = .menu ∧ s.Deaf := by
  have h₀ : Lts.Run ConsoleStep (new fun _ => .null) [] (new fun _ => .null) := .nil
  have h := (((((((((((h₀.snoc (.join rfl)).snoc (.put greeting)).snoc (.notify (by decide))).snoc
    (.read rfl)).snoc (.enterLoop rfl rfl)).snoc (.findMessage rfl rfl)).snoc (.goOn rfl rfl)).snoc
    (.take rfl)).snoc (.quit rfl)).snoc (.print rfl rfl)).snoc (.leaveOuter rfl rfl)).snoc
    (.notifyQuit rfl)
  have h := h.snoc (.back rfl rfl)
  exact ⟨_, _, h, rfl, (run_deaf_iff h rfl).mpr ⟨[.join, .put greeting, .notify, .read, .enterLoop,
    .findMessage, .goOn, .take, .quit, .print], [.notifyQuit, .back], rfl, by simp⟩⟩

/-! ### The thread that is not woken -/

/-- The thread waits although there is a message or an end to the session, and no `notify_all` is
due, neither that of a call of `handle` nor that of `q`. -/
def Stranded (s : Console) : Prop :=
  s.reader = .asleep ∧ s.posting = 0 ∧ s.phase ≠ .stored ∧
    (s.phase = .joining ∨ s.queue.isEmpty = false)

/-- The thread has found the queue empty and goes on to its wait. -/
def Committed (s : Console) : Prop := s.reader = .testFlag ∨ s.reader = .committed

/-- A message was put into the queue, or `q` has called `notify_all`. -/
def Calls : ConsoleEvent → Prop
  | .put _ | .notifyQuit => True
  | _ => False

theorem entry_asleep (he : ConsoleStep s e s') (hs : s.reader ≠ .asleep)
    (hs' : s'.reader = .asleep) : e = .sleep ∧ s.reader = .committed := by
  cases he with
  | sleep hr => exact ⟨rfl, hr⟩
  | notify | notifyQuit =>
    exact absurd (eq_of_woken hs' nofun) hs
  | join | put | quit | back => exact absurd hs' hs
  | read | enterLoop | leaveOuter | findEmpty | findMessage | findOpen | findQuit | wake
  | leaveInner | goOn | take | print => cases hs'

theorem entry_committed (he : ConsoleStep s e s') (hs : ¬ s.Committed) (hs' : s'.Committed) :
    e = .findEmpty := by
  cases he with
  | findEmpty => rfl
  | findOpen hr => exact absurd (.inl hr) hs
  | notify | notifyQuit =>
    refine absurd (hs'.imp (fun h => ?_) fun h => ?_) hs
    · exact eq_of_woken h nofun
    · exact eq_of_woken h nofun
  | join | put | quit | back => exact absurd hs' hs
  | read | enterLoop | leaveOuter | findMessage | findQuit | sleep | wake | leaveInner | goOn | take
  | print => rcases hs' with h | h <;> cases h

/-- What has happened since the thread found the queue empty. -/
structure Between (t : List ConsoleEvent) (s : Console) : Prop where
  running : s.phase ≠ .menu
  queue : ∃ waiting, s.queue.Represents waiting
  looked : .findEmpty ∉ t
  filled : s.queue.isEmpty = false ↔ ∃ j, .put j ∈ t
  called : .notifyQuit ∈ t → s.phase = .joining
  joining : s.phase = .joining → .notifyQuit ∈ t ∨ s.flag = true ∧ s.reader = .testFlag

theorem Between.step {t : List ConsoleEvent} (h : Between t s) (hs : s.Committed)
    (he : ConsoleStep s e s') (hs' : s'.Committed) : Between (t ++ [e]) s' := by
  obtain ⟨waiting, hw⟩ := h.queue
  cases he with
  | join hp | read hp => exact absurd hp h.running
  | back hp hr => rcases hs with hs | hs <;> rw [hs] at hr <;> cases hr
  | put j =>
    refine ⟨h.running, ⟨_, hw.put j⟩, by simp [h.looked], ?_, by simpa using h.called,
      by simpa using h.joining⟩
    exact iff_of_true (isEmpty_put hw j) ⟨j, by simp⟩
  | notify hn =>
    have hr : s.reader.woken = s.reader := by rcases hs with hs | hs <;> rw [hs] <;> rfl
    refine ⟨h.running, h.queue, by simp [h.looked], by simpa [notifyAll] using h.filled,
      by simpa [notifyAll] using h.called, fun hp => ?_⟩
    refine (h.joining hp).imp (fun h => List.mem_append_left _ h) fun h => ⟨h.1, hr.trans h.2⟩
  | quit hp =>
    refine ⟨nofun, h.queue, by simp [h.looked], by simpa using h.filled, fun hc => ?_, nofun⟩
    have hj := h.called (by simpa using hc)
    rw [hp] at hj
    cases hj
  | notifyQuit hp =>
    exact ⟨nofun, h.queue, by simp [h.looked], by simpa [notifyAll] using h.filled, fun _ => rfl,
      fun _ => .inl (by simp)⟩
  | findOpen hr hf =>
    refine ⟨h.running, h.queue, by simp [h.looked], by simpa using h.filled,
      by simpa using h.called, fun hp => .inl (List.mem_append_left _ ?_)⟩
    refine (h.joining hp).resolve_right fun h => ?_
    rw [hf] at h
    exact Bool.false_ne_true h.1
  | enterLoop hr | leaveOuter hr | findEmpty hr | findMessage hr | wake hr | leaveInner hr | goOn hr
  | take hr | print hr =>
    rcases hs with hs | hs
    all_goals
      rw [hs] at hr
      cases hr
  | findQuit | sleep => rcases hs' with hs' | hs' <;> cases hs'

/-- From the look at the queue on. -/
theorem run_between {u : Console} {t : List ConsoleEvent} (h : Lts.Run ConsoleStep (new junk) tr s)
    (he : ConsoleStep s .findEmpty u) (hu : u.Committed)
    (hr : Lts.Run (Lts.Into ConsoleStep Committed) u t s') : Between t s' := by
  suffices H : Between t s' ∧ s'.Committed from H.1
  have hl := (run_left h).step he
  obtain ⟨-, waiting, n, ht⟩ := exists_transcript (h.snoc he)
  refine hr.trace_invariant (I := fun t s => Between t s ∧ s.Committed) ⟨?_, hu⟩ ?_
  · have hne : u.reader ≠ .returned := by
      rcases hu with hu | hu <;> rw [hu] <;> exact nofun
    refine ⟨fun hp => hne (hl.menu hp), ⟨waiting, ht.queue⟩, List.not_mem_nil, ?_, nofun, ?_⟩
    · cases he with
      | findEmpty _ hq => simp [hq]
    · cases he with
      | findEmpty => exact fun hp => .inr ⟨hl.closing (.inr hp) hne, rfl⟩
  · rintro t s e s' ⟨hb, hs⟩ ⟨he, hs'⟩
    exact ⟨hb.step hs he hs', hs'⟩

/-- While the thread sleeps, messages are put and the end is asked for; where no `notify_all` is due,
neither has happened. -/
theorem run_asleep {u : Console} {t : List ConsoleEvent}
    (h : Lts.Run (Lts.Into ConsoleStep fun s => s.reader = .asleep) u t s)
    (hu : u.reader = .asleep) (hp : u.phase ≠ .menu) (hpost : s.posting = 0)
    (hstored : s.phase ≠ .stored) : t = [] := by
  suffices H : s.reader = .asleep ∧ s.phase ≠ .menu ∧
      (s.posting = 0 → s.phase ≠ .stored → t = []) from H.2.2 hpost hstored
  clear hpost hstored
  induction h with
  | nil => exact ⟨hu, hp, fun _ _ => rfl⟩
  | @snoc t s s' e _ he ih =>
    obtain ⟨hs, hp, -⟩ := ih
    obtain ⟨he, hs'⟩ := he
    refine ⟨hs', ?_⟩
    cases he with
    | join hp' | read hp' => exact absurd hp' hp
    | put j => exact ⟨hp, fun h => absurd h (Nat.succ_ne_zero _)⟩
    | quit => exact ⟨nofun, fun _ h => absurd rfl h⟩
    | notify | notifyQuit =>
      have hw : s.reader.woken = .asleep := hs'
      rw [hs] at hw
      cases hw
    | back _ hr | enterLoop hr | leaveOuter hr | findEmpty hr | findMessage hr | findOpen hr
    | findQuit hr | sleep hr | leaveInner hr | goOn hr | take hr | print hr =>
      rw [hs] at hr
      cases hr
    | wake => cases hs'

/-- **The thread is stranded** exactly when the last that has happened is that it got to its wait, a
message was put or `q` has notified since it found the queue empty, and every `notify_all` is over. -/
theorem run_stranded_iff (h : Lts.Run ConsoleStep (new junk) tr s) : s.Stranded ↔
    s.posting = 0 ∧ s.phase ≠ .stored ∧ ∃ t₁ t₂, tr = t₁ ++ .findEmpty :: (t₂ ++ [.sleep]) ∧
      .findEmpty ∉ t₂ ∧ ∃ e ∈ t₂, Calls e := by
  constructor
  · rintro ⟨hsleep, hpost, hstored, hdo⟩
    obtain ⟨t₀, e, t₃, v, v', rfl, hr₀, hv, he, hv', hr₃⟩ :=
      h.last_entry (A := fun s => s.reader = .asleep) nofun hsleep
    obtain ⟨rfl, hc⟩ := entry_asleep he hv hv'
    obtain ⟨t₁, e, t₂, u, u', rfl, hr₁, hu, heu, hu', hr₂⟩ :=
      hr₀.last_entry (A := Committed) (by rintro (h | h) <;> cases h) (.inr hc)
    obtain rfl := entry_committed heu hu hu'
    have hb := run_between hr₁ heu hu' hr₂
    cases he with
    | sleep =>
      obtain rfl := run_asleep hr₃ rfl hb.running hpost hstored
      obtain rfl := hr₃.nil_inv
      refine ⟨hpost, hstored, t₁, t₂, by simp, hb.looked, ?_⟩
      rcases hdo with hj | hq
      · refine ⟨.notifyQuit, (hb.joining hj).resolve_right fun h => ?_, trivial⟩
        rw [hc] at h
        cases h.2
      · obtain ⟨j, hj⟩ := hb.filled.mp hq
        exact ⟨.put j, hj, trivial⟩
  · rintro ⟨hpost, hstored, t₁, t₂, rfl, hlook, e, he, hcall⟩
    obtain ⟨u, u', hr₁, heu, hr⟩ := h.split
    obtain ⟨v, hr₂, hev⟩ := hr.snoc_inv
    cases hev with
    | sleep hc =>
      obtain ⟨hu', hr₂⟩ := hr₂.into_of_no_entry (A := Committed) (E := (· = .findEmpty)) (.inr hc)
        (fun _ _ _ h hA hA' => entry_committed h hA hA') fun e he h => hlook (h ▸ he)
      have hb := run_between hr₁ heu hu' hr₂
      refine ⟨rfl, hpost, hstored, ?_⟩
      cases e with
      | notifyQuit => exact .inl (hb.called he)
      | put j => exact .inr (hb.filled.mpr ⟨j, he⟩)
      | join | notify | read | quit | back | enterLoop | leaveOuter | findEmpty | findMessage
      | findOpen | findQuit | sleep | wake | leaveInner | goOn | take | print => exact hcall.elim

/-- The whole of `q` comes between the look at the flag and the wait. -/
theorem run_stranded_quit : ∃ tr s, Lts.Run ConsoleStep (new fun _ => .null) tr s ∧
    s.phase = .joining ∧ s.Stranded := by
  have h₀ : Lts.Run ConsoleStep (new fun _ => .null) [] (new fun _ => .null) := .nil
  have h := (((((((h₀.snoc (.join rfl)).snoc (.read rfl)).snoc (.enterLoop rfl rfl)).snoc
    (.findEmpty rfl rfl)).snoc (.findOpen rfl rfl)).snoc (.quit rfl)).snoc (.notifyQuit rfl)).snoc
    (.sleep rfl)
  exact ⟨_, _, h, rfl, (run_stranded_iff h).mpr ⟨rfl, nofun, [.join, .read, .enterLoop],
    [.findOpen, .quit, .notifyQuit], rfl, by simp, .notifyQuit, by simp, trivial⟩⟩

end Yamb.Console
