import Yamb.CircularBuffer.History

/-!
# The ring buffer as a bounded queue

* `BoundedQueue`: a queue that drops its oldest element when there is no room for a new one;
* `Represents`: the queue that a buffer stands for; `Represents.put`, `Represents.get`,
  `represents_reset`, `Represents.size_eq`, `Represents.isEmpty_iff`: what the methods do to it;
* **`new_results`**: a new buffer and an empty queue answer every sequence of calls alike.
-/

set_option autoImplicit false

namespace Yamb

/-- A first-in, first-out list of at most `c` elements. -/
structure BoundedQueue (T : Type) (c : ℕ) where
  items : List T
  length_le : items.length ≤ c

/-- The calls on a buffer or a queue. -/
inductive QueueCall (T : Type)
  | put (x : T)
  | get
  | reset
  | size
  | empty
  | full

/-- What the calls return. -/
inductive QueueResult (T : Type)
  | unit
  | item (x : T)
  | count (n : ℕ)
  | flag (b : Bool)
  deriving DecidableEq

namespace BoundedQueue

variable {T : Type} {c : ℕ}

def nil (T : Type) (c : ℕ) : BoundedQueue T c := ⟨[], Nat.zero_le c⟩

/-- A full queue drops its oldest element. -/
def put (q : BoundedQueue T c) (x : T) (hc : 0 < c) : BoundedQueue T c :=
  if hfull : q.items.length = c then
    ⟨q.items.tail ++ [x], by rw [List.length_append, List.length_tail, List.length_singleton]; omega⟩
  else
    ⟨q.items ++ [x], by
      have hle := q.length_le
      rw [List.length_append, List.length_singleton]
      omega⟩

/-- An empty queue answers with a default element. -/
def get [Inhabited T] (q : BoundedQueue T c) : T × BoundedQueue T c :=
  (q.items.headD default, ⟨q.items.tail, by
    have hle := q.length_le
    rw [List.length_tail]
    omega⟩)

def call [Inhabited T] (hc : 0 < c) (q : BoundedQueue T c) :
    QueueCall T → QueueResult T × BoundedQueue T c
  | .put x => (.unit, q.put x hc)
  | .get => (.item q.get.1, q.get.2)
  | .reset => (.unit, nil T c)
  | .size => (.count q.items.length, q)
  | .empty => (.flag (decide (q.items.length = 0)), q)
  | .full => (.flag (decide (q.items.length = c)), q)

/-- The results of a sequence of calls. -/
def results [Inhabited T] (hc : 0 < c) (q : BoundedQueue T c) : List (QueueCall T) →
    List (QueueResult T)
  | [] => []
  | op :: ops => (q.call hc op).1 :: (q.call hc op).2.results hc ops

end BoundedQueue

namespace CircularBuffer

variable {T : Type} {N : ℕ} {w : CircularBuffer T N} {q : List T}

def call [Inhabited T] (w : CircularBuffer T N) : QueueCall T → QueueResult T × CircularBuffer T N
  | .put x => (.unit, w.put x)
  | .get => (.item w.get.1, w.get.2)
  | .reset => (.unit, w.reset)
  | .size => (.count w.size, w)
  | .empty => (.flag w.isEmpty, w)
  | .full => (.flag w.full, w)

/-- The results of a sequence of calls. -/
def results [Inhabited T] (w : CircularBuffer T N) : List (QueueCall T) → List (QueueResult T)
  | [] => []
  | op :: ops => (w.call op).1 :: (w.call op).2.results ops

/-- `w` holds the list `q`, from the read position on. -/
structure Represents (w : CircularBuffer T N) (q : List T) : Prop where
  length_le : q.length ≤ w.maxSize
  head_eq : w.head = (w.tail + q.length) % w.maxSize
  full_iff : w.full = true ↔ q.length = w.maxSize
  slot : ∀ i, ∀ hi : i < q.length, w.buf ((w.tail + i) % w.maxSize) = q[i]

theorem represents_new (junk : ℕ → T) (size : ℕ) (h₀ : 0 < size) (hN : size ≤ N) :
    Represents (CircularBuffer.new junk size h₀ hN : CircularBuffer T N) [] where
  length_le := Nat.zero_le _
  head_eq := (Nat.zero_mod size).symm
  full_iff := iff_of_false Bool.false_ne_true (Nat.ne_of_lt h₀)
  slot := fun _ hi => absurd hi (Nat.not_lt_zero _)

/-- A step of `n` slots comes back to where it started after one turn only. -/
theorem add_mod_eq_iff {c a n : ℕ} (ha : a < c) (h₀ : 0 < n) (hn : n ≤ c) :
    (a + n) % c = a ↔ n = c := by
  constructor
  · intro h
    by_contra hne
    have hturn := mod_ne_of_lt (c := c) (show a < a + n by omega) (by omega)
    rw [Nat.mod_eq_of_lt ha] at hturn
    exact hturn h.symm
  · rintro rfl
    rw [Nat.add_mod_right, Nat.mod_eq_of_lt ha]

theorem Represents.put (h : Represents w q) (x : T) :
    Represents (w.put x) (if q.length = w.maxSize then q.tail ++ [x] else q ++ [x]) := by
  have hpos := w.maxSize_pos
  have htail := w.tail_lt
  by_cases hfull : q.length = w.maxSize
  · -- the new element takes the slot of the oldest one
    have hf := h.full_iff.mpr hfull
    have hhead : w.head = w.tail := w.full_imp hf
    have hput : (w.put x).tail = (w.tail + 1) % w.maxSize := if_pos hf
    have hlen : (q.tail ++ [x]).length = w.maxSize := by
      rw [List.length_append, List.length_tail, List.length_singleton]
      omega
    rw [if_pos hfull]
    refine ⟨hlen.le, ?_, ?_, fun i hi => ?_⟩
    · rw [hlen, hput, put_head, put_maxSize, hhead, Nat.add_mod_right, Nat.mod_mod]
    · refine iff_of_true (decide_eq_true ?_) hlen
      rw [hhead]
      exact hput.symm
    · rw [hput, put_maxSize, Nat.mod_add_mod, Nat.add_assoc]
      change Function.update w.buf w.head x _ = _
      rw [hlen] at hi
      rcases Nat.lt_or_ge i (q.length - 1) with hlt | hge
      · have hne : (w.tail + (1 + i)) % w.maxSize ≠ w.head := by
          rw [hhead, ne_eq, add_mod_eq_iff htail (by omega) (by omega)]
          omega
        have hi' : i < q.tail.length := by
          rw [List.length_tail]
          exact hlt
        rw [Function.update_of_ne hne, List.getElem_append_left hi', List.getElem_tail,
          ← h.slot (i + 1) (by omega), Nat.add_comm 1 i]
      · have hi' : i = q.tail.length := by
          rw [List.length_tail]
          omega
        have hback : (w.tail + (1 + i)) % w.maxSize = w.head := by
          rw [hhead, add_mod_eq_iff htail (by omega) (by omega)]
          omega
        rw [hback, Function.update_self]
        simp [hi']
  · have hf : w.full = false := by
      rw [← Bool.not_eq_true, h.full_iff]
      exact hfull
    have hle := h.length_le
    have hput : (w.put x).tail = w.tail := by
      show w.putTail = w.tail
      rw [putTail, hf]
      rfl
    have hlen : (q ++ [x]).length = q.length + 1 := by
      rw [List.length_append, List.length_singleton]
    have hhead : (w.head + 1) % w.maxSize = (w.tail + (q.length + 1)) % w.maxSize := by
      rw [h.head_eq, Nat.mod_add_mod, Nat.add_assoc]
    rw [if_neg hfull]
    refine ⟨by rw [hlen, put_maxSize]; omega, ?_, ?_, fun i hi => ?_⟩
    · rw [hlen, hput, put_head, put_maxSize, hhead]
    · rw [hlen, put_maxSize]
      show decide ((w.head + 1) % w.maxSize = w.putTail) = true ↔ _
      rw [decide_eq_true_iff, hhead, show w.putTail = w.tail from hput,
        add_mod_eq_iff htail (by omega) (by omega)]
    · rw [hput, put_maxSize]
      change Function.update w.buf w.head x _ = _
      rw [hlen] at hi
      rcases Nat.lt_or_ge i q.length with hlt | hge
      · have hne : (w.tail + i) % w.maxSize ≠ w.head := by
          rw [h.head_eq]
          exact mod_ne_of_lt (by omega) (by omega)
        rw [Function.update_of_ne hne, List.getElem_append_left hlt, h.slot i hlt]
      · obtain rfl : i = q.length := by omega
        rw [← h.head_eq, Function.update_self]
        simp

theorem Represents.isEmpty_iff (h : Represents w q) : w.isEmpty = true ↔ q.length = 0 := by
  have hpos := w.maxSize_pos
  have hle := h.length_le
  rw [isEmpty, Bool.and_eq_true, Bool.not_eq_true', ← Bool.not_eq_true, h.full_iff,
    decide_eq_true_iff, h.head_eq]
  constructor
  · rintro ⟨hne, heq⟩
    by_contra hzero
    exact hne ((add_mod_eq_iff w.tail_lt (by omega) hle).mp heq)
  · intro hzero
    rw [hzero, Nat.add_zero, Nat.mod_eq_of_lt w.tail_lt]
    exact ⟨by omega, rfl⟩

theorem Represents.size_eq (h : Represents w q) : w.size = q.length := by
  have hle := h.length_le
  have htail := w.tail_lt
  unfold size
  by_cases hf : w.full = true
  · rw [if_pos hf, h.full_iff.mp hf]
  · have hlt : q.length ≠ w.maxSize := fun heq => hf (h.full_iff.mpr heq)
    rw [if_neg hf, h.head_eq]
    rcases Nat.lt_or_ge (w.tail + q.length) w.maxSize with hin | hout
    · rw [Nat.mod_eq_of_lt hin, if_pos (Nat.le_add_right _ _)]
      omega
    · -- the write position has come round
      rw [Nat.mod_eq_sub_mod hout, Nat.mod_eq_of_lt (by omega), if_neg (by omega)]
      omega

theorem Represents.get [Inhabited T] (h : Represents w q) :
    w.get.1 = q.headD default ∧ Represents w.get.2 q.tail := by
  unfold CircularBuffer.get
  cases q with
  | nil =>
    rw [if_pos (h.isEmpty_iff.mpr rfl)]
    exact ⟨rfl, h⟩
  | cons x q =>
    have hne : ¬ w.isEmpty = true := fun he => Nat.succ_ne_zero _ (h.isEmpty_iff.mp he)
    have hle := h.length_le
    rw [List.length_cons] at hle
    rw [if_neg hne]
    have hslot := h.slot 0 (Nat.zero_lt_succ _)
    rw [Nat.add_zero, Nat.mod_eq_of_lt w.tail_lt] at hslot
    refine ⟨hslot, Nat.le_of_succ_le hle, ?_, ?_, fun i hi => ?_⟩
    · show w.head = ((w.tail + 1) % w.maxSize + q.length) % w.maxSize
      rw [h.head_eq, List.length_cons, Nat.mod_add_mod, Nat.add_assoc, Nat.add_comm 1]
    · exact iff_of_false Bool.false_ne_true (Nat.ne_of_lt hle)
    · have hnext := h.slot (i + 1) (Nat.succ_lt_succ hi)
      show w.buf (((w.tail + 1) % w.maxSize + i) % w.maxSize) = q[i]
      rw [Nat.mod_add_mod, Nat.add_assoc, Nat.add_comm 1 i, hnext]
      rfl

theorem represents_reset (w : CircularBuffer T N) : Represents w.reset [] where
  length_le := Nat.zero_le _
  head_eq := (Nat.mod_eq_of_lt w.tail_lt).symm
  full_iff := iff_of_false Bool.false_ne_true (Nat.ne_of_lt w.maxSize_pos)
  slot := fun _ hi => absurd hi (Nat.not_lt_zero _)

@[simp] theorem call_maxSize [Inhabited T] (w : CircularBuffer T N) (op : QueueCall T) :
    (w.call op).2.maxSize = w.maxSize := by
  cases op with
  | get =>
    show w.get.2.maxSize = w.maxSize
    unfold CircularBuffer.get
    split_ifs <;> rfl
  | put | reset | size | empty | full => rfl

/-- One call answers as the queue does, and leaves the buffer with what the queue holds then. -/
theorem Represents.call [Inhabited T] {c : ℕ} {q : BoundedQueue T c} (h : Represents w q.items)
    (hsize : w.maxSize = c) (hc : 0 < c) (op : QueueCall T) :
    (w.call op).1 = (q.call hc op).1 ∧ Represents (w.call op).2 (q.call hc op).2.items := by
  cases op with
  | put x =>
    refine ⟨rfl, ?_⟩
    have hput := h.put x
    rw [hsize] at hput
    show Represents (w.put x) (q.put x hc).items
    unfold BoundedQueue.put
    split_ifs at hput ⊢
    · exact hput
    · exact hput
  | get => exact ⟨congrArg QueueResult.item h.get.1, h.get.2⟩
  | reset => exact ⟨rfl, represents_reset w⟩
  | size => exact ⟨congrArg QueueResult.count h.size_eq, h⟩
  | empty =>
    refine ⟨congrArg QueueResult.flag ?_, h⟩
    rw [Bool.eq_iff_iff, h.isEmpty_iff, decide_eq_true_iff]
  | full =>
    refine ⟨congrArg QueueResult.flag ?_, h⟩
    rw [Bool.eq_iff_iff, h.full_iff, decide_eq_true_iff, hsize]

theorem Represents.results [Inhabited T] {c : ℕ} {q : BoundedQueue T c}
    (h : Represents w q.items) (hsize : w.maxSize = c) (hc : 0 < c) (ops : List (QueueCall T)) :
    w.results ops = q.results hc ops := by
  induction ops generalizing w q with
  | nil => rfl
  | cons op ops ih =>
    obtain ⟨hres, hnext⟩ := h.call hsize hc op
    show (w.call op).1 :: _ = (q.call hc op).1 :: _
    rw [hres, ih hnext ((call_maxSize w op).trans hsize)]

/-- **A new buffer answers every sequence of calls as an empty bounded queue does.** -/
theorem new_results [Inhabited T] (junk : ℕ → T) {c : ℕ} (h₀ : 0 < c) (hN : c ≤ N)
    (ops : List (QueueCall T)) :
    (CircularBuffer.new junk c h₀ hN : CircularBuffer T N).results ops =
      (BoundedQueue.nil T c).results h₀ ops :=
  (represents_new junk c h₀ hN).results (q := BoundedQueue.nil T c) rfl h₀ ops

/-- A buffer of two slots that three elements are put into. -/
theorem new_results_two :
    (CircularBuffer.new (fun _ => 7) 2 (by decide) (by decide) : CircularBuffer ℕ 3).results
      [.put 1, .put 2, .put 3, .full, .get, .size, .reset, .get, .empty] =
    [.unit, .unit, .unit, .flag true, .item 2, .count 1, .unit, .item 0, .flag true] :=
  new_results (fun _ => 7) (by decide) (by decide) _

end CircularBuffer

end Yamb
