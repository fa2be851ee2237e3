import Mathlib.Data.List.GetD
import Yamb.CircularBuffer.Queue
import Yamb.Incoming.Model
import Yamb.Lib.Lts

/-!
# Reading a room on the console

The sessions of `main.cpp`: `MH::handle` puts the messages of a room into a queue of ten, `reader`
starts a thread that prints them, and `q` ends it.

* `Console`, `ConsoleEvent`, `ConsoleStep`: the thread of `main`, the thread of the session and the
  calls of `handle`, each from one access of the queue or of the flag to the next;
* `line`: what is printed of a message;
* `Transcript`: what was taken out of the queue, what waits in it and what was overwritten;
* **`run_prints`**: the messages are printed in the order in which they came, and all of them exactly
  when none came while ten were waiting.
-/

set_option autoImplicit false

namespace Yamb

/-- Where the thread of `main` is: in `menu`, in `getchar`, behind the store of `q`, in `t.join`. -/
inductive ConsolePhase
  | menu | reading | stored | joining
  deriving DecidableEq

/-- Where the thread of a session is. It looks at the queue first and at the flag then, before it
waits; both loops test the flag once more. -/
inductive ReaderPhase
  | outer
  | testEmpty
  | testFlag
  | committed
  | asleep
  | testQuit
  | taking
  | printing (m : JsonValue)
  | returned

/-- A notification wakes the thread if it waits. -/
def ReaderPhase.woken : ReaderPhase → ReaderPhase
  | .asleep => .testEmpty
  | r => r

/-- One room. `posting` counts the calls of `handle` between `put` and `notify_all`; the mutex of the
room has no part, since no two sessions overlap. `delivered` and `taken` list what was put into the
queue and taken out of it. -/
structure Console where
  queue : CircularBuffer JsonValue 10
  flag : Bool
  posting : ℕ
  phase : ConsolePhase
  reader : ReaderPhase
  delivered : List JsonValue
  taken : List JsonValue
  printed : List String

/-- `T()`. -/
instance : Inhabited JsonValue := ⟨.null⟩

namespace Console

/-- The maps of `main.cpp` make the entries of a room when they are first used. -/
def new (junk : ℕ → JsonValue) : Console where
  queue := .new junk 10 (by decide) (by decide)
  flag := false
  posting := 0
  phase := .menu
  reader := .returned
  delivered := []
  taken := []
  printed := []

/-- `m[name].get<std::string>()`; nothing where it throws. -/
def text (m : JsonValue) (name : String) : Option String :=
  match m.find name with
  | some (.str s) => some s
  | _ => none

/-- What the session prints of a message. -/
def line (m : JsonValue) : Option String := do
  let from' ← text m "from"
  let roomId ← text m "roomId"
  let data ← text m "data"
  return "<" ++ from' ++ "|" ++ roomId ++ ">: " ++ data

/-- `message_queues_cv[room].notify_all()`. -/
def notifyAll (s : Console) : Console := { s with reader := s.reader.woken }

end Console

/-- `join` is the menu's: the new `MH` stores `false`. -/
inductive ConsoleEvent
  | join
  | put (j : JsonValue)
  | notify
  | read
  | quit
  | notifyQuit
  | back
  | enterLoop
  | leaveOuter
  | findEmpty
  | findMessage
  | findOpen
  | findQuit
  | sleep
  | wake
  | leaveInner
  | goOn
  | take
  | print

/-- A text that is no JSON and a message without one of the three members end the process. -/
inductive ConsoleStep (s : Console) : ConsoleEvent → Console → Prop
  | join (hp : s.phase = .menu) : ConsoleStep s .join { s with flag := false }
  | put (j : JsonValue) : ConsoleStep s (.put j) { s with
      queue := s.queue.put j
      posting := s.posting + 1
      delivered := s.delivered ++ [j] }
  | notify (h : 0 < s.posting) :
      ConsoleStep s .notify { s with posting := s.posting - 1 }.notifyAll
  | read (hp : s.phase = .menu) : ConsoleStep s .read { s with
      phase := .reading
      reader := .outer }
  | quit (hp : s.phase = .reading) : ConsoleStep s .quit { s with
      phase := .stored
      flag := true }
  | notifyQuit (hp : s.phase = .stored) :
      ConsoleStep s .notifyQuit { s with phase := .joining }.notifyAll
  | back (hp : s.phase = .joining) (hr : s.reader = .returned) :
      ConsoleStep s .back { s with phase := .menu }
  | enterLoop (hr : s.reader = .outer) (hf : s.flag = false) :
      ConsoleStep s .enterLoop { s with reader := .testEmpty }
  | leaveOuter (hr : s.reader = .outer) (hf : s.flag = true) :
      ConsoleStep s .leaveOuter { s with reader := .returned }
  | findEmpty (hr : s.reader = .testEmpty) (h : s.queue.isEmpty = true) :
      ConsoleStep s .findEmpty { s with reader := .testFlag }
  | findMessage (hr : s.reader = .testEmpty) (h : s.queue.isEmpty = false) :
      ConsoleStep s .findMessage { s with reader := .testQuit }
  | findOpen (hr : s.reader = .testFlag) (hf : s.flag = false) :
      ConsoleStep s .findOpen { s with reader := .committed }
  | findQuit (hr : s.reader = .testFlag) (hf : s.flag = true) :
      ConsoleStep s .findQuit { s with reader := .testQuit }
  | sleep (hr : s.reader = .committed) : ConsoleStep s .sleep { s with reader := .asleep }
  -- without a notification
  | wake (hr : s.reader = .asleep) : ConsoleStep s .wake { s with reader := .testEmpty }
  | leaveInner (hr : s.reader = .testQuit) (hf : s.flag = true) :
      ConsoleStep s .leaveInner { s with
        flag := false
        reader := .returned }
  | goOn (hr : s.reader = .testQuit) (hf : s.flag = false) :
      ConsoleStep s .goOn { s with reader := .taking }
  | take (hr : s.reader = .taking) : ConsoleStep s .take { s with
      queue := s.queue.get.2
      taken := s.taken ++ [s.queue.get.1]
      reader := .printing s.queue.get.1 }
  | print {m : JsonValue} {l : String} (hr : s.reader = .printing m) (hl : Console.line m = some l) :
      ConsoleStep s .print { s with
        printed := s.printed ++ [l]
        reader := .outer }

/-! ### What the thread finds -/

namespace Console

variable {s s' : Console} {e : ConsoleEvent} {tr : List ConsoleEvent} {waiting : List JsonValue}
  {n : ℕ} {junk : ℕ → JsonValue}

/-- The session has an end before the menu comes back, and a message is taken only where there is
one. -/
structure Sound (s : Console) : Prop where
  menu : s.phase = .menu → s.reader = .returned
  testQuit : s.reader = .testQuit → s.flag = false → s.queue.isEmpty = false
  taking : s.reader = .taking → s.queue.isEmpty = false

theorem sound_new (junk : ℕ → JsonValue) : (new junk).Sound where
  menu _ := rfl
  testQuit hr := by cases hr
  taking hr := by cases hr

/-- A thread that was woken is in front of its first look. -/
theorem eq_of_woken {r r' : ReaderPhase} (h : r.woken = r') (hr : r' ≠ .testEmpty) : r = r' := by
  cases r with
  | asleep => exact absurd h.symm hr
  | outer | testEmpty | testFlag | committed | testQuit | taking | printing | returned => exact h

theorem isEmpty_put {w : CircularBuffer JsonValue 10} (h : w.Represents waiting) (j : JsonValue) :
    (w.put j).isEmpty = false := by
  have hput := h.put j
  rw [← Bool.not_eq_true, hput.isEmpty_iff]
  split_ifs <;> simp

theorem Sound.not_menu {r : ReaderPhase} (hs : s.Sound) (hr : s.reader = r) (h : r ≠ .returned) :
    s.phase ≠ .menu := by
  intro hp
  exact h (hr.symm.trans (hs.menu hp))

theorem Sound.step (hs : s.Sound) (hw : ∃ waiting, s.queue.Represents waiting)
    (h : ConsoleStep s e s') : s'.Sound := by
  obtain ⟨waiting, hw⟩ := hw
  cases h with
  | join hp =>
    refine ⟨hs.menu, fun hr => ?_, hs.taking⟩
    rw [hs.menu hp] at hr
    cases hr
  | put j => exact ⟨hs.menu, fun _ _ => isEmpty_put hw j, fun _ => isEmpty_put hw j⟩
  | notify hn =>
    refine ⟨fun hp => ?_, fun hr => hs.testQuit (eq_of_woken hr ?_),
      fun hr => hs.taking (eq_of_woken hr ?_)⟩
    · show s.reader.woken = _
      rw [hs.menu hp]
      rfl
    · exact ReaderPhase.noConfusion
    · exact ReaderPhase.noConfusion
  | read hp => exact ⟨nofun, nofun, nofun⟩
  | quit hp => exact ⟨nofun, nofun, hs.taking⟩
  | notifyQuit hp =>
    refine ⟨nofun, fun hr => hs.testQuit (eq_of_woken hr ?_),
      fun hr => hs.taking (eq_of_woken hr ?_)⟩
    · exact ReaderPhase.noConfusion
    · exact ReaderPhase.noConfusion
  | back hp hr => exact ⟨fun _ => hr, hs.testQuit, hs.taking⟩
  | leaveOuter hr hf => exact ⟨fun _ => rfl, nofun, nofun⟩
  | leaveInner hr hf => exact ⟨fun _ => rfl, nofun, nofun⟩
  | enterLoop hr | findEmpty hr | findOpen hr | sleep hr | wake hr | take hr | print hr =>
    exact ⟨fun hp => absurd hp (hs.not_menu hr nofun), nofun, nofun⟩
  | findMessage hr h => exact ⟨fun hp => absurd hp (hs.not_menu hr nofun), fun _ _ => h, nofun⟩
  | findQuit hr hf =>
    refine ⟨fun hp => absurd hp (hs.not_menu hr nofun), fun _ hopen => ?_, nofun⟩
    rw [hf] at hopen
    cases hopen
  | goOn hr hf =>
    exact ⟨fun hp => absurd hp (hs.not_menu hr nofun), nofun, fun _ => hs.testQuit hr hf⟩

/-! ### What was taken, what waits and what is lost -/

/-- The messages whose line is out. -/
def shown (s : Console) : List JsonValue :=
  match s.reader with
  | .printing _ => s.taken.dropLast
  | _ => s.taken

/-- The queue holds `waiting`, and `n` messages were overwritten in it. -/
structure Transcript (s : Console) (waiting : List JsonValue) (n : ℕ) : Prop where
  queue : s.queue.Represents waiting
  size : s.queue.maxSize = 10
  order : (s.taken ++ waiting).Sublist s.delivered
  count : s.delivered.length = (s.taken ++ waiting).length + n
  shown : s.shown.map line = s.printed.map some
  printing : ∀ m, s.reader = .printing m → ∃ t, s.taken = t ++ [m]

/-- Ten messages wait at most before and after. -/
def HasRoom (s : Console) : ConsoleEvent → Prop
  | .put _ => s.queue.full = false
  | _ => True

instance (s : Console) (e : ConsoleEvent) : Decidable (s.HasRoom e) := by
  cases e <;> unfold HasRoom <;> infer_instance

theorem transcript_new (junk : ℕ → JsonValue) : (new junk).Transcript [] 0 where
  queue := CircularBuffer.represents_new junk 10 _ _
  size := rfl
  order := List.Sublist.refl _
  count := rfl
  shown := rfl
  printing _ hr := by cases hr

theorem shown_of_not_printing (h : ∀ m, s.reader ≠ .printing m) : s.shown = s.taken := by
  unfold shown
  split
  · exact absurd ‹_› (h _)
  · rfl

theorem shown_of_printing {m : JsonValue} {t : List JsonValue} (hr : s.reader = .printing m)
    (ht : s.taken = t ++ [m]) : s.shown = t := by
  unfold shown
  split
  · rw [ht, List.dropLast_concat]
  · rename_i hne
    exact absurd hr (hne m)

/-- A step that leaves the messages alone, and does not begin or end the printing of one. -/
theorem Transcript.of_eq (h : s.Transcript waiting n) (hq : s'.queue = s.queue)
    (hd : s'.delivered = s.delivered) (ht : s'.taken = s.taken) (hp : s'.printed = s.printed)
    (hr : ∀ m, s'.reader = .printing m ↔ s.reader = .printing m) : s'.Transcript waiting n := by
  have hshown : s'.shown = s.shown := by
    by_cases hm : ∃ m, s.reader = .printing m
    · obtain ⟨m, hm⟩ := hm
      obtain ⟨t, hmt⟩ := h.printing m hm
      rw [shown_of_printing hm hmt, shown_of_printing ((hr m).mpr hm) (ht.trans hmt)]
    · push Not at hm
      rw [shown_of_not_printing hm, shown_of_not_printing fun m h' => hm m ((hr m).mp h'), ht]
  refine ⟨?_, ?_, ?_, ?_, ?_, fun m hm => ?_⟩
  · rw [hq]
    exact h.queue
  · rw [hq]
    exact h.size
  · rw [ht, hd]
    exact h.order
  · rw [ht, hd]
    exact h.count
  · rw [hshown, hp]
    exact h.shown
  · rw [ht]
    exact h.printing m ((hr m).mp hm)

theorem woken_printing_iff {r : ReaderPhase} {m : JsonValue} :
    r.woken = .printing m ↔ r = .printing m := by
  cases r with
  | asleep => exact iff_of_false nofun nofun
  | outer | testEmpty | testFlag | committed | testQuit | taking | printing | returned =>
    exact Iff.rfl

/-- One step: a message that is put where ten wait overwrites the oldest of them. -/
theorem Transcript.step (h : s.Transcript waiting n) (hs : s.Sound) (he : ConsoleStep s e s') :
    ∃ waiting', s'.Transcript waiting' (n + if s.HasRoom e then 0 else 1) := by
  cases he with
  | put j =>
    have hput := h.queue.put j
    rw [h.size] at hput
    by_cases hfull : waiting.length = 10
    · have hroom : ¬ s.HasRoom (.put j) := by
        show ¬ s.queue.full = false
        rw [Bool.not_eq_false, h.queue.full_iff, h.size]
        exact hfull
      rw [if_neg hroom]
      rw [if_pos hfull] at hput
      have hlen : waiting.tail.length + 1 = waiting.length := by
        rw [List.length_tail]
        omega
      refine ⟨waiting.tail ++ [j], hput, h.size, ?_, ?_, ?_, h.printing⟩
      · rw [← List.append_assoc]
        exact (((List.Sublist.refl _).append (List.tail_sublist _)).trans h.order).append
          (List.Sublist.refl _)
      · have hcount := h.count
        simp only [List.length_append, List.length_singleton] at hcount ⊢
        omega
      · exact h.shown
    · have hroom : s.HasRoom (.put j) := by
        show s.queue.full = false
        rw [← Bool.not_eq_true, h.queue.full_iff, h.size]
        exact hfull
      rw [if_pos hroom]
      rw [if_neg hfull] at hput
      refine ⟨waiting ++ [j], hput, h.size, ?_, ?_, h.shown, h.printing⟩
      · rw [← List.append_assoc]
        exact h.order.append (List.Sublist.refl _)
      · have hcount := h.count
        simp only [List.length_append, List.length_singleton] at hcount ⊢
        omega
  | take hr =>
    have hne : waiting ≠ [] := by
      rintro rfl
      have := hs.taking hr
      rw [← Bool.not_eq_true, h.queue.isEmpty_iff] at this
      exact this rfl
    obtain ⟨m, waiting, rfl⟩ := List.exists_cons_of_ne_nil hne
    obtain ⟨hval, hget⟩ := h.queue.get
    have hval : s.queue.get.1 = m := hval
    have hshown : s.shown = s.taken := shown_of_not_printing fun m' => by rw [hr]; exact nofun
    have happ : s.taken ++ [s.queue.get.1] ++ waiting = s.taken ++ m :: waiting := by
      rw [hval, List.append_assoc, List.singleton_append]
    refine ⟨waiting, hget, ?_, ?_, ?_, ?_, fun m' hm' => ?_⟩
    · exact (CircularBuffer.call_maxSize s.queue .get).trans h.size
    · show (s.taken ++ [s.queue.get.1] ++ waiting).Sublist s.delivered
      rw [happ]
      exact h.order
    · show s.delivered.length = (s.taken ++ [s.queue.get.1] ++ waiting).length + n
      rw [happ]
      exact h.count
    · rw [shown_of_printing rfl rfl, ← hshown]
      exact h.shown
    · exact ⟨s.taken, congrArg (s.taken ++ [·]) (ReaderPhase.printing.inj hm')⟩
  | @print m l hr hl =>
    obtain ⟨t, ht⟩ := h.printing m hr
    refine ⟨waiting, h.queue, h.size, h.order, h.count, ?_, fun m' hm' => by cases hm'⟩
    rw [shown_of_not_printing fun m' hm' => by cases hm']
    show s.taken.map line = (s.printed ++ [l]).map some
    have hshown := h.shown
    rw [shown_of_printing hr ht] at hshown
    rw [ht, List.map_append, List.map_append, hshown, List.map_singleton, hl, List.map_singleton]
  | join hp => exact ⟨waiting, h.of_eq rfl rfl rfl rfl fun _ => Iff.rfl⟩
  | notify hn => exact ⟨waiting, h.of_eq rfl rfl rfl rfl fun _ => woken_printing_iff⟩
  | notifyQuit hp => exact ⟨waiting, h.of_eq rfl rfl rfl rfl fun _ => woken_printing_iff⟩
  | quit | back => exact ⟨waiting, h.of_eq rfl rfl rfl rfl fun _ => Iff.rfl⟩
  | read hp =>
    refine ⟨waiting, h.of_eq rfl rfl rfl rfl fun m => iff_of_false nofun ?_⟩
    rw [hs.menu hp]
    exact nofun
  | enterLoop hr | leaveOuter hr | findEmpty hr | findMessage hr | findOpen hr | findQuit hr
  | sleep hr | wake hr | leaveInner hr | goOn hr =>
    refine ⟨waiting, h.of_eq rfl rfl rfl rfl fun m => iff_of_false nofun ?_⟩
    rw [hr]
    exact nofun

/-- A run from a new console has a transcript. -/
theorem exists_transcript (h : Lts.Run ConsoleStep (new junk) tr s) :
    s.Sound ∧ ∃ waiting n, s.Transcript waiting n := by
  refine h.invariant (I := fun s => s.Sound ∧ ∃ waiting n, s.Transcript waiting n)
    ⟨sound_new junk, [], 0, transcript_new junk⟩ ?_
  rintro s e s' ⟨hs, waiting, n, ht⟩ he
  obtain ⟨waiting', ht'⟩ := ht.step hs he
  exact ⟨hs.step ⟨waiting, ht.queue⟩ he, waiting', _, ht'⟩

/-- The number of messages that were overwritten is a matter of the state. -/
theorem Transcript.lost_eq {waiting' : List JsonValue} {n' : ℕ} (h : s.Transcript waiting n)
    (h' : s.Transcript waiting' n') : n = n' := by
  have hlen : waiting.length = waiting'.length := h.queue.size_eq.symm.trans h'.queue.size_eq
  have hcount := h.count
  have hcount' := h'.count
  simp only [List.length_append] at hcount hcount'
  omega

theorem Transcript.append_eq_iff (h : s.Transcript waiting n) :
    s.taken ++ waiting = s.delivered ↔ n = 0 := by
  have hcount := h.count
  constructor
  · intro he
    rw [he] at hcount
    omega
  · intro hn
    exact h.order.eq_of_length (by omega)

/-- Nothing is overwritten in the runs in which no message comes while ten are waiting. -/
theorem run_lost_iff (h : Lts.Run ConsoleStep (new junk) tr s) (ht : s.Transcript waiting n) :
    n = 0 ↔ Lts.Run (Lts.Only ConsoleStep HasRoom) (new junk) tr s := by
  constructor
  · intro hn
    subst hn
    induction h generalizing waiting with
    | nil => exact .nil
    | @snoc tr s s' e h he ih =>
      obtain ⟨hs, waiting₀, n, ht₀⟩ := exists_transcript h
      obtain ⟨waiting', ht'⟩ := ht₀.step hs he
      have hn := ht'.lost_eq ht
      have hroom : s.HasRoom e := by
        by_contra hroom
        rw [if_neg hroom] at hn
        omega
      rw [if_pos hroom] at hn
      obtain rfl : n = 0 := hn
      exact (ih ht₀).snoc ⟨he, hroom⟩
  · intro h
    suffices H : s.Sound ∧ ∃ waiting, s.Transcript waiting 0 by
      obtain ⟨-, waiting', ht'⟩ := H
      exact ht.lost_eq ht'
    refine h.invariant (I := fun s => s.Sound ∧ ∃ waiting, s.Transcript waiting 0)
      ⟨sound_new junk, [], transcript_new junk⟩ ?_
    rintro s e s' ⟨hs, waiting, ht⟩ ⟨he, hroom⟩
    obtain ⟨waiting', ht'⟩ := ht.step hs he
    rw [if_pos hroom] at ht'
    exact ⟨hs.step ⟨waiting, ht.queue⟩ he, waiting', ht'⟩

end Console

open Console in
/-- **What the sessions print**, over any number of them: the messages in the order in which they
came, each once, and all of them exactly if none came while ten were waiting. -/
theorem run_prints {junk : ℕ → JsonValue} {tr : List ConsoleEvent} {s : Console}
    (h : Lts.Run ConsoleStep (new junk) tr s) :
    ∃ waiting, s.queue.Represents waiting ∧ s.printed.map some = s.shown.map line ∧
      (s.taken ++ waiting).Sublist s.delivered ∧
      (s.taken ++ waiting = s.delivered ↔
        Lts.Run (Lts.Only ConsoleStep HasRoom) (new junk) tr s) := by
  obtain ⟨-, waiting, n, ht⟩ := exists_transcript h
  exact ⟨waiting, ht.queue, ht.shown.symm, ht.order, ht.append_eq_iff.trans (run_lost_iff h ht)⟩

/-- A message of `ur` in the room `r`. -/
def greeting : JsonValue := .obj [("from", .str "ur"), ("roomId", .str "r"), ("data", .str "hi")]

theorem run_prints_greeting : ∃ tr s, Lts.Run ConsoleStep (Console.new fun _ => .null) tr s ∧
    s.printed = ["<ur|r>: hi"] ∧ ∃ waiting, s.queue.Represents waiting ∧
      s.printed.map some = s.shown.map Console.line ∧ (s.taken ++ waiting).Sublist s.delivered ∧
      (s.taken ++ waiting = s.delivered ↔
        Lts.Run (Lts.Only ConsoleStep Console.HasRoom) (Console.new fun _ => .null) tr s) := by
  have h₀ : Lts.Run ConsoleStep (Console.new fun _ => .null) [] (Console.new fun _ => .null) := .nil
  have h := ((((((((h₀.snoc (.join rfl)).snoc (.put greeting)).snoc (.notify (by decide))).snoc
    (.read rfl)).snoc (.enterLoop rfl rfl)).snoc (.findMessage rfl rfl)).snoc (.goOn rfl rfl)).snoc
    (.take rfl)).snoc (.print rfl rfl)
  exact ⟨_, _, h, rfl, run_prints h⟩

end Yamb
