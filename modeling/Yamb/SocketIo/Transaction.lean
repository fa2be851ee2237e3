import Yamb.Lib.Lts

/-!
# Socket.IO transactions

A transaction sends a request, waits for the packet with the id of the request and is deleted after a
response or a timeout. The slot through which the client hands it the packets is attached by `send`
and detached by `onResponse`.

* `PacketSignal`: the slots of the client, without duplicates;
* `Transaction`: `packettransaction.h`, with the timer;
* `Transactions`: the transactions of a client; `send`, `emit`, `onTimeout`, `cancel`;
* `TransactionStep`: calls, packets, timeouts and the deletion of what was disposed of, in any order;
* `Detached`: no slot leads to a disposed transaction and none is sent too often;
* `sentLate`: the sends of transactions that were cancelled, which `attempts` does not count;
* **`run_detached_iff`**: so it is all along a run exactly when no transaction is sent once it is
  disposed of, none is sent when its attempts and late sends are used up, and no timer expires that
  cannot send again.
-/

set_option autoImplicit false

namespace Yamb

namespace SocketIo

/-- A transaction, wherever it is in memory. -/
abbrev TransactionId : Type := ℕ

/-! ### The packet signal -/

/-- The transactions that `onPotentialResponse` is bound to. -/
structure PacketSignal where
  slots : List TransactionId
  nodup : slots.Nodup

namespace PacketSignal

instance : Membership TransactionId PacketSignal := ⟨fun sig t => t ∈ sig.slots⟩

instance (t : TransactionId) (sig : PacketSignal) : Decidable (t ∈ sig) :=
  inferInstanceAs (Decidable (t ∈ sig.slots))

def empty : PacketSignal := ⟨[], List.nodup_nil⟩

def detach (sig : PacketSignal) (t : TransactionId) : PacketSignal :=
  ⟨sig.slots.erase t, sig.nodup.erase t⟩

/-- The duplicate is detached first. -/
def attach (sig : PacketSignal) (t : TransactionId) : PacketSignal where
  slots := sig.slots.erase t ++ [t]
  nodup := by
    refine (sig.nodup.erase t).append (List.nodup_singleton t) ?_
    rw [List.disjoint_singleton]
    exact sig.nodup.not_mem_erase

variable {sig : PacketSignal} {t u : TransactionId}

theorem notMem_empty : t ∉ empty := List.not_mem_nil

theorem mem_detach : u ∈ sig.detach t ↔ u ≠ t ∧ u ∈ sig := sig.nodup.mem_erase_iff

theorem mem_attach : u ∈ sig.attach t ↔ u = t ∨ u ∈ sig := by
  show u ∈ sig.slots.erase t ++ [t] ↔ _ ∨ u ∈ sig.slots
  rw [List.mem_append, List.mem_singleton, sig.nodup.mem_erase_iff]
  constructor
  · rintro (⟨-, hu⟩ | rfl)
    · exact .inr hu
    · exact .inl rfl
  · rintro (rfl | hu)
    · exact .inr rfl
    · by_cases heq : u = t
      · exact .inr heq
      · exact .inl ⟨heq, hu⟩

end PacketSignal

/-! ### `PacketTransaction` -/

inductive TransactionState
  | waiting | running | success | cancelled | failed
  deriving DecidableEq

/-- The members of a transaction that its state machine uses. `freed` is set when the loop has
deleted the object. -/
structure Transaction where
  requestId : ℤ
  state : TransactionState
  retries : ℕ
  attempts : ℕ
  /-- The timer runs. -/
  timerActive : Bool
  /-- `onTimeout` is bound to it. -/
  timerSlot : Bool
  destroyed : Bool
  freed : Bool

namespace Transaction

/-- A Socket.IO transaction is made with `retries = 0`. -/
def new (requestId : ℤ) (retries : ℕ) : Transaction where
  requestId := requestId
  state := .waiting
  retries := retries
  attempts := 0
  timerActive := false
  timerSlot := false
  destroyed := false
  freed := false

def canResend (x : Transaction) : Prop := x.state ≠ .cancelled ∧ x.attempts ≤ x.retries

instance (x : Transaction) : Decidable x.canResend := inferInstanceAs (Decidable (_ ∧ _))

def dispose (x : Transaction) : Transaction :=
  if x.destroyed then x
  else { x with destroyed := true, timerSlot := false, timerActive := false }

/-- `setState` with `onStateChange`: nothing happens when the state is the same. -/
def setState (x : Transaction) (s : TransactionState) : Transaction :=
  if x.state = s then x
  else if s = .success ∨ s = .failed then ({ x with state := s } : Transaction).dispose
  else { x with state := s }

/-- `PacketTransaction::send`. -/
def send (x : Transaction) : Transaction :=
  if ¬ x.canResend then x
  else ({ x with
    attempts := x.attempts + 1
    timerSlot := true
    timerActive := true } : Transaction).setState .running

def cancel (x : Transaction) : Transaction := x.setState .cancelled

end Transaction

/-! ### The transactions of a client -/

/-- `sent` lists whose request the socket has taken, call by call, and `strayCalls` counts the slots
that were called on a transaction after it was disposed of. -/
structure Transactions where
  transactions : TransactionId → Option Transaction
  signal : PacketSignal
  sent : List TransactionId
  strayCalls : ℕ

namespace Transactions

def empty : Transactions := ⟨fun _ => none, .empty, [], 0⟩

def set (C : Transactions) (t : TransactionId) (x : Transaction) : Transactions :=
  { C with transactions := Function.update C.transactions t (some x) }

/-- `Transaction::send`, where `accepted` is the answer of `client.send`. -/
def send (C : Transactions) (t : TransactionId) (x : Transaction) (accepted : Bool) : Transactions :=
  let C := { C with signal := C.signal.attach t }
  if accepted then { C.set t x.send with sent := C.sent ++ [t] } else C

/-- `Transaction::onPotentialResponse`. A slot of an object that is freed is a call into freed
memory, which the model does not follow. -/
def onPotentialResponse (C : Transactions) (t : TransactionId) (packetId : ℤ) : Transactions :=
  match C.transactions t with
  | none => C
  | some x =>
    if x.freed then { C with strayCalls := C.strayCalls + 1 }
    else
      let C := { C with strayCalls := C.strayCalls + if x.destroyed then 1 else 0 }
      if x.state = .running ∧ x.requestId = packetId then
        { C.set t (x.setState .success) with signal := C.signal.detach t }
      else C

/-- `emit` goes through a copy of the slots and calls those that are still alive. -/
def emit (C : Transactions) (packetId : ℤ) : Transactions :=
  C.signal.slots.foldl
    (fun C t => if t ∈ C.signal then C.onPotentialResponse t packetId else C) C

/-- The one-shot timer expires. -/
def onTimeout (C : Transactions) (t : TransactionId) (x : Transaction) (accepted : Bool) :
    Transactions :=
  let x := { x with timerActive := false }
  if x.timerSlot then
    if ¬ x.canResend then C.set t (x.setState .failed) else (C.set t x).send t x accepted
  else C.set t x

/-- No slot leads to a transaction that was disposed of, none was called, and no request was sent
more than `retries + 1` times. -/
structure Detached (C : Transactions) : Prop where
  slots : ∀ t x, C.transactions t = some x → x.destroyed = true → t ∉ C.signal
  stray : C.strayCalls = 0
  sends : ∀ t x, C.transactions t = some x → C.sent.count t ≤ x.retries + 1

end Transactions

inductive TransactionEvent
  | create (t : TransactionId) (requestId : ℤ) (retries : ℕ)
  | send (t : TransactionId) (accepted : Bool)
  | packet (packetId : ℤ)
  | timeout (t : TransactionId) (accepted : Bool)
  | cancel (t : TransactionId)
  /-- The garbage collector deletes what was scheduled. -/
  | delete (t : TransactionId)

/-- The methods of a transaction are called until it is deleted, which ends its timer too. -/
inductive TransactionStep (C : Transactions) : TransactionEvent → Transactions → Prop
  | create (t : TransactionId) (requestId : ℤ) (retries : ℕ) (h : C.transactions t = none) :
      TransactionStep C (.create t requestId retries) (C.set t (.new requestId retries))
  | send (t : TransactionId) (accepted : Bool) {x : Transaction} (h : C.transactions t = some x)
      (hlive : x.freed = false) : TransactionStep C (.send t accepted) (C.send t x accepted)
  | packet (packetId : ℤ) : TransactionStep C (.packet packetId) (C.emit packetId)
  | timeout (t : TransactionId) (accepted : Bool) {x : Transaction}
      (h : C.transactions t = some x) (hactive : x.timerActive = true) :
      TransactionStep C (.timeout t accepted) (C.onTimeout t x accepted)
  | cancel (t : TransactionId) {x : Transaction} (h : C.transactions t = some x)
      (hlive : x.freed = false) : TransactionStep C (.cancel t) (C.set t x.cancel)
  | delete (t : TransactionId) {x : Transaction} (h : C.transactions t = some x)
      (hdestroyed : x.destroyed = true) :
      TransactionStep C (.delete t) (C.set t { x with freed := true, timerActive := false })

/-- The sends so far, by transaction, whose request the socket took although the transaction was
cancelled. -/
def sentLate (C : Transactions) (e : TransactionEvent) (late : List TransactionId) :
    List TransactionId :=
  match e with
  | .send t true =>
    if (C.transactions t).any (·.state = .cancelled) then late ++ [t] else late
  | _ => late

/-- The state goes with the late sends that have led to it. -/
abbrev TransactionRecord : Transactions × List TransactionId → TransactionEvent →
    Transactions × List TransactionId → Prop :=
  Lts.Remember TransactionStep sentLate

/-- A transaction is sent before it is disposed of, and the socket takes the request only while its
attempts and late sends are not used up; a timer that expires finds a transaction that can send
again. -/
def Timely (s : Transactions × List TransactionId) : TransactionEvent → Prop
  | .send t accepted => ∀ x, s.1.transactions t = some x →
    x.destroyed = false ∧ (accepted = true → x.attempts + s.2.count t ≤ x.retries)
  | .timeout t _ => ∀ x, s.1.transactions t = some x → x.canResend
  | .create _ _ _ | .packet _ | .cancel _ | .delete _ => True

/-! ### What the operations do to one transaction -/

namespace Transaction

variable {x : Transaction}

/-- Success and failure dispose of the transaction. -/
theorem setState_of_ends {s : TransactionState} (hs : s = .success ∨ s = .failed)
    (hne : x.state ≠ s) (hlive : x.destroyed = false) : x.setState s =
      { x with state := s, destroyed := true, timerSlot := false, timerActive := false } := by
  unfold setState dispose
  rw [if_neg hne, if_pos hs, if_neg]
  rw [hlive]
  exact Bool.false_ne_true

/-- The other states leave the timer alone. -/
theorem setState_of_not_ends {s : TransactionState} (hs : ¬ (s = .success ∨ s = .failed)) :
    x.setState s = { x with state := s } := by
  unfold setState
  split_ifs with heq
  · rw [← heq]
  · rfl

theorem send_of_canResend (h : x.canResend) : x.send = { x with
    attempts := x.attempts + 1, timerSlot := true, timerActive := true, state := .running } := by
  unfold send
  rw [if_neg (not_not.mpr h), setState_of_not_ends (by decide)]

theorem send_of_not_canResend (h : ¬ x.canResend) : x.send = x := if_pos h

theorem send_keeps (x : Transaction) : x.send.destroyed = x.destroyed ∧
    x.send.retries = x.retries ∧ x.send.freed = x.freed := by
  by_cases h : x.canResend
  · rw [send_of_canResend h]
    exact ⟨rfl, rfl, rfl⟩
  · rw [send_of_not_canResend h]
    exact ⟨rfl, rfl, rfl⟩

end Transaction

/-! ### The invariant -/

/-- One transaction of a client: `slot` tells whether the client has a slot for it, `n` how often its
request was sent, `k` how often so late. -/
structure Tidy (x : Transaction) (slot : Prop) (n k : ℕ) : Prop where
  slots : x.destroyed = true → ¬ slot
  sends : n = x.attempts + k
  bound : x.attempts + k ≤ x.retries + 1
  late : 0 < k → x.state = .cancelled
  timer : x.timerActive = true → x.timerSlot = true ∧ x.destroyed = false ∧ slot
  failed : x.state = .failed → x.destroyed = true
  freed : x.freed = true → x.destroyed = true

/-- While a send is possible, every send was an attempt. -/
theorem Tidy.late_eq_zero {x : Transaction} {slot : Prop} {n k : ℕ} (h : Tidy x slot n k)
    (hne : x.state ≠ .cancelled) : k = 0 := by
  by_contra hk
  exact hne (h.late (Nat.pos_of_ne_zero hk))

structure Sound (C : Transactions) (late : List TransactionId) : Prop where
  tidy : ∀ t x, C.transactions t = some x →
    Tidy x (t ∈ C.signal) (C.sent.count t) (late.count t)
  unknown : ∀ t, C.transactions t = none → t ∉ C.signal ∧ t ∉ C.sent ∧ t ∉ late
  stray : C.strayCalls = 0

variable {C C' : Transactions} {t : TransactionId} {x y : Transaction} {accepted : Bool}
  {late late' : List TransactionId}

theorem Sound.detached (h : Sound C late) : C.Detached where
  slots := fun t x hx => (h.tidy t x hx).slots
  stray := h.stray
  sends := fun t x hx => by
    have htidy := h.tidy t x hx
    exact htidy.sends ▸ htidy.bound

theorem sound_empty : Sound .empty [] where
  tidy := fun _ _ hx => by cases hx
  unknown := fun _ _ => ⟨PacketSignal.notMem_empty, List.not_mem_nil, List.not_mem_nil⟩
  stray := rfl

/-- What happens to one transaction leaves the others tidy. -/
theorem Sound.step (h : Sound C late)
    (hy : C'.transactions = Function.update C.transactions t (some y))
    (htidy : Tidy y (t ∈ C'.signal) (C'.sent.count t) (late'.count t))
    (hsignal : ∀ u ≠ t, u ∈ C'.signal ↔ u ∈ C.signal)
    (hsent : ∀ u ≠ t, C'.sent.count u = C.sent.count u)
    (hlate : ∀ u ≠ t, late'.count u = late.count u) (hstray : C'.strayCalls = 0) :
    Sound C' late' where
  tidy := by
    intro u z hz
    rw [hy] at hz
    by_cases hu : u = t
    · subst hu
      rw [Function.update_self] at hz
      obtain rfl := Option.some.inj hz
      exact htidy
    · rw [Function.update_of_ne hu] at hz
      rw [hsent u hu, hlate u hu, propext (hsignal u hu)]
      exact h.tidy u z hz
  unknown := by
    intro u hu
    rw [hy] at hu
    have hne : u ≠ t := by
      rintro rfl
      rw [Function.update_self] at hu
      cases hu
    rw [Function.update_of_ne hne] at hu
    rw [hsignal u hne, ← List.count_eq_zero, hsent u hne, ← List.count_eq_zero (l := late'),
      hlate u hne, List.count_eq_zero, List.count_eq_zero]
    exact h.unknown u hu
  stray := hstray

theorem Sound.set (h : Sound C late)
    (htidy : Tidy y (t ∈ C.signal) (C.sent.count t) (late.count t)) : Sound (C.set t y) late :=
  h.step rfl htidy (fun _ _ => Iff.rfl) (fun _ _ => rfl) (fun _ _ => rfl) h.stray

theorem tidy_new (requestId : ℤ) (retries : ℕ) {p : Prop} (hp : ¬ p) :
    Tidy (.new requestId retries) p 0 0 where
  slots := fun _ => hp
  sends := rfl
  bound := Nat.zero_le _
  late := fun h => absurd h (Nat.lt_irrefl 0)
  timer := fun h => Bool.noConfusion h
  failed := fun h => TransactionState.noConfusion h
  freed := fun h => Bool.noConfusion h

theorem Tidy.cancel {p : Prop} {n k : ℕ} (h : Tidy x p n k) : Tidy x.cancel p n k := by
  unfold Transaction.cancel
  rw [Transaction.setState_of_not_ends (by decide)]
  exact ⟨h.slots, h.sends, h.bound, fun _ => rfl, h.timer,
    fun hs => TransactionState.noConfusion hs, h.freed⟩

theorem Tidy.delete {p : Prop} {n k : ℕ} (h : Tidy x p n k) (hd : x.destroyed = true) :
    Tidy { x with freed := true, timerActive := false } p n k :=
  ⟨h.slots, h.sends, h.bound, h.late, fun ha => Bool.noConfusion ha, h.failed, fun _ => hd⟩

/-- A running transaction that gets its response. -/
theorem Tidy.success {p q : Prop} {n k : ℕ} (h : Tidy x p n k) (hstate : x.state = .running)
    (hlive : x.destroyed = false) (hq : ¬ q) : Tidy (x.setState .success) q n k := by
  obtain rfl := h.late_eq_zero (by rw [hstate]; decide)
  rw [Transaction.setState_of_ends (.inl rfl) (by rw [hstate]; decide) hlive]
  exact ⟨fun _ => hq, h.sends, h.bound, fun hk => absurd hk (Nat.lt_irrefl 0),
    fun ha => Bool.noConfusion ha, fun _ => rfl, fun _ => rfl⟩

/-! ### Packets -/

theorem Sound.onPotentialResponse (h : Sound C late) (ht : t ∈ C.signal) (packetId : ℤ) :
    Sound (C.onPotentialResponse t packetId) late := by
  unfold Transactions.onPotentialResponse
  cases hx : C.transactions t with
  | none => exact absurd ht (h.unknown t hx).1
  | some x =>
    have htidy := h.tidy t x hx
    have hlive : x.destroyed = false := by
      rw [← Bool.not_eq_true]
      exact fun hd => htidy.slots hd ht
    have hfreed : x.freed = false := by
      rw [← Bool.not_eq_true]
      exact fun hf => htidy.slots (htidy.freed hf) ht
    simp only [hfreed, hlive, Bool.false_eq_true, if_false, Nat.add_zero]
    split_ifs with hmatch
    · refine h.step rfl (htidy.success hmatch.1 hlive ?_) (fun u hu => ?_) (fun _ _ => rfl)
        (fun _ _ => rfl) h.stray
      · exact fun hin => (PacketSignal.mem_detach.mp hin).1 rfl
      · exact PacketSignal.mem_detach.trans (and_iff_right hu)
    · exact h

theorem Sound.emit (h : Sound C late) (packetId : ℤ) : Sound (C.emit packetId) late := by
  unfold Transactions.emit
  generalize C.signal.slots = slots
  induction slots generalizing C with
  | nil => exact h
  | cons t slots ih =>
    rw [List.foldl_cons]
    split_ifs with ht
    · exact ih (h.onPotentialResponse ht packetId)
    · exact ih h

/-! ### Sending -/

theorem Tidy.attach {p : Prop} {n k : ℕ} (h : Tidy x p n k) (hlive : x.destroyed = false) :
    Tidy x True n k where
  slots := fun hd => by
    rw [hlive] at hd
    cases hd
  sends := h.sends
  bound := h.bound
  late := h.late
  timer := fun ha => ⟨(h.timer ha).1, hlive, trivial⟩
  failed := h.failed
  freed := h.freed

/-- A transaction that can send again makes one attempt more. -/
theorem Tidy.resend {n k : ℕ} (h : Tidy x True n k) (hcan : x.canResend) :
    Tidy x.send True (n + 1) k := by
  obtain rfl := h.late_eq_zero hcan.1
  have hle := hcan.2
  have hsends := h.sends
  rw [Transaction.send_of_canResend hcan]
  refine ⟨h.slots, ?_, ?_, fun hk => absurd hk (Nat.lt_irrefl 0), fun _ => ⟨rfl, ?_, trivial⟩,
    fun hs => TransactionState.noConfusion hs, h.freed⟩
  · show n + 1 = x.attempts + 1 + 0
    omega
  · show x.attempts + 1 + 0 ≤ x.retries + 1
    omega
  · rw [← Bool.not_eq_true]
    exact fun hd => h.slots hd trivial

/-- A cancelled one is sent as it is. -/
theorem Tidy.sendLate {n k : ℕ} (h : Tidy x True n k) (hstate : x.state = .cancelled)
    (hle : x.attempts + k ≤ x.retries) : Tidy x.send True (n + 1) (k + 1) := by
  have hsends := h.sends
  rw [Transaction.send_of_not_canResend fun hcan => hcan.1 hstate]
  exact ⟨h.slots, by omega, by omega, fun _ => hstate, h.timer, h.failed, h.freed⟩

/-- The effect of `send` on the slots and on the record of what was sent. -/
theorem send_spec (C : Transactions) (t : TransactionId) (x : Transaction) (accepted : Bool) :
    t ∈ (C.send t x accepted).signal ∧
      (∀ u ≠ t, u ∈ (C.send t x accepted).signal ↔ u ∈ C.signal) ∧
      (∀ u ≠ t, (C.send t x accepted).sent.count u = C.sent.count u) ∧
      (C.send t x accepted).sent.count t = C.sent.count t + accepted.toNat ∧
      (C.send t x accepted).strayCalls = C.strayCalls := by
  have hother : ∀ u ≠ t, u ∈ C.signal.attach t ↔ u ∈ C.signal := fun u hu => by
    rw [PacketSignal.mem_attach, or_iff_right hu]
  have hself : t ∈ C.signal.attach t := PacketSignal.mem_attach.mpr (.inl rfl)
  cases accepted with
  | false => exact ⟨hself, hother, fun _ _ => rfl, rfl, rfl⟩
  | true =>
    refine ⟨hself, hother, fun u hu => ?_, ?_, rfl⟩
    · show (C.sent ++ [t]).count u = _
      rw [List.count_append, List.count_singleton, if_neg (by simpa using hu.symm), Nat.add_zero]
    · show (C.sent ++ [t]).count t = _
      rw [List.count_append, List.count_singleton_self]
      rfl

theorem send_transactions (C : Transactions) (t : TransactionId) (x : Transaction)
    (h : C.transactions t = some x) (accepted : Bool) : (C.send t x accepted).transactions =
      Function.update C.transactions t (some (if accepted then x.send else x)) := by
  cases accepted with
  | true => rfl
  | false =>
    show C.transactions = _
    rw [if_neg Bool.false_ne_true, Function.update_eq_self_iff.mpr h.symm]

theorem sentLate_send (hx : C.transactions t = some x) : sentLate C (.send t accepted) late =
    if accepted = true ∧ x.state = .cancelled then late ++ [t] else late := by
  cases accepted with
  | false => exact (if_neg fun h => Bool.false_ne_true h.1).symm
  | true => simp [sentLate, hx]

theorem Sound.resend (h : Sound C late) (hx : C.transactions t = some x)
    (hlive : x.destroyed = false) (hcan : x.canResend) : Sound (C.send t x accepted) late := by
  obtain ⟨hself, hother, hcount, hsent, hstray⟩ := send_spec C t x accepted
  refine h.step (send_transactions C t x hx accepted) ?_ hother hcount (fun _ _ => rfl)
    (hstray.trans h.stray)
  have htidy := (h.tidy t x hx).attach hlive
  rw [hsent, eq_true hself]
  cases accepted with
  | false => exact htidy
  | true => exact htidy.resend hcan

/-- A send that is made in time keeps the transactions tidy. -/
theorem Sound.send (h : Sound C late) (hx : C.transactions t = some x)
    (hlive : x.destroyed = false)
    (hn : accepted = true → x.attempts + late.count t ≤ x.retries) :
    Sound (C.send t x accepted) (sentLate C (.send t accepted) late) := by
  rw [sentLate_send hx]
  split_ifs with hlate
  · obtain ⟨rfl, hstate⟩ := hlate
    obtain ⟨hself, hother, hcount, hsent, hstray⟩ := send_spec C t x true
    refine h.step (send_transactions C t x hx true) ?_ hother hcount (fun u hu => ?_)
      (hstray.trans h.stray)
    · rw [hsent, eq_true hself, List.count_append, List.count_singleton_self]
      exact ((h.tidy t x hx).attach hlive).sendLate hstate (hn rfl)
    · rw [List.count_append, List.count_singleton, if_neg (by simpa using hu.symm), Nat.add_zero]
  · cases accepted with
    | true =>
      have hle := hn rfl
      exact h.resend hx hlive ⟨fun hstate => hlate ⟨rfl, hstate⟩, by omega⟩
    | false =>
      obtain ⟨hself, hother, hcount, -, hstray⟩ := send_spec C t x false
      refine h.step (send_transactions C t x hx false) ?_ hother hcount (fun _ _ => rfl)
        (hstray.trans h.stray)
      rw [eq_true hself]
      exact (h.tidy t x hx).attach hlive

theorem send_detached_iff (h : Sound C late) (hx : C.transactions t = some x) :
    (C.send t x accepted).Detached ↔
      x.destroyed = false ∧ (accepted = true → x.attempts + late.count t ≤ x.retries) := by
  constructor
  · intro hd
    obtain ⟨hself, -, -, hsent, -⟩ := send_spec C t x accepted
    have ht := send_transactions C t x hx accepted
    have hy : (C.send t x accepted).transactions t = some (if accepted then x.send else x) := by
      rw [ht, Function.update_self]
    have hslot := hd.slots t _ hy
    have hsends := hd.sends t _ hy
    rw [hsent, (h.tidy t x hx).sends] at hsends
    cases accepted with
    | false =>
      refine ⟨?_, fun hf => Bool.noConfusion hf⟩
      rw [← Bool.not_eq_true]
      exact fun hdes => hslot hdes hself
    | true =>
      obtain ⟨hdes, hret, -⟩ := x.send_keeps
      simp only [if_true, hdes, hret, Bool.toNat_true] at hslot hsends
      refine ⟨?_, fun _ => Nat.le_of_succ_le_succ hsends⟩
      rw [← Bool.not_eq_true]
      exact fun hdes => hslot hdes hself
  · rintro ⟨hlive, hn⟩
    exact (h.send hx hlive hn).detached

/-! ### Timeouts -/

/-- A timer that has expired. -/
theorem Tidy.expire {p : Prop} {n k : ℕ} (h : Tidy x p n k) :
    Tidy { x with timerActive := false } p n k :=
  ⟨h.slots, h.sends, h.bound, h.late, fun ha => Bool.noConfusion ha, h.failed, h.freed⟩

theorem onTimeout_of_canResend (h : Sound C late) (hx : C.transactions t = some x)
    (hactive : x.timerActive = true) (hcan : x.canResend) : C.onTimeout t x accepted =
      (C.set t { x with timerActive := false }).send t { x with timerActive := false } accepted := by
  unfold Transactions.onTimeout
  rw [if_pos ((h.tidy t x hx).timer hactive).1]
  exact if_neg (not_not.mpr hcan)

/-- A transaction that cannot send again fails, and its slot stays. -/
theorem not_detached_of_timeout (h : Sound C late) (hx : C.transactions t = some x)
    (hactive : x.timerActive = true) (hcan : ¬ x.canResend) :
    ¬ (C.onTimeout t x accepted).Detached := by
  obtain ⟨hslot, hlive, hin⟩ := (h.tidy t x hx).timer hactive
  have hne : x.state ≠ .failed := by
    intro hs
    rw [(h.tidy t x hx).failed hs] at hlive
    cases hlive
  intro hd
  unfold Transactions.onTimeout at hd
  rw [if_pos hslot] at hd
  have hcan' : ¬ ({ x with timerActive := false } : Transaction).canResend := hcan
  have hends := Transaction.setState_of_ends (x := { x with timerActive := false }) (.inr rfl) hne
    hlive
  rw [if_pos hcan', hends] at hd
  exact hd.slots t _ (Function.update_self _ _ _) rfl hin

theorem Sound.timeout (h : Sound C late) (hx : C.transactions t = some x)
    (hactive : x.timerActive = true) (hcan : x.canResend) :
    Sound (C.onTimeout t x accepted) late := by
  rw [onTimeout_of_canResend h hx hactive hcan]
  have hlive := ((h.tidy t x hx).timer hactive).2.1
  exact (h.set (h.tidy t x hx).expire).resend (Function.update_self _ _ _) hlive hcan

/-! ### Runs -/

theorem TransactionStep.detached_iff {e : TransactionEvent} (he : TransactionStep C e C')
    (h : Sound C late) : C'.Detached ↔ Timely (C, late) e := by
  cases he with
  | create t requestId retries hx =>
    obtain ⟨hslot, hsent, hlate⟩ := h.unknown t hx
    refine iff_of_true (h.set ?_).detached trivial
    rw [List.count_eq_zero.mpr hsent, List.count_eq_zero.mpr hlate]
    exact tidy_new requestId retries hslot
  | send t accepted hx hlive =>
    refine (send_detached_iff h hx).trans ⟨fun hP y hy => ?_, fun hP => hP _ hx⟩
    obtain rfl := Option.some.inj (hx.symm.trans hy)
    exact hP
  | packet packetId => exact iff_of_true (h.emit packetId).detached trivial
  | @timeout t accepted x hx hactive =>
    constructor
    · intro hd y hy
      obtain rfl := Option.some.inj (hx.symm.trans hy)
      by_contra hcan
      exact not_detached_of_timeout h hx hactive hcan hd
    · exact fun hcan => (h.timeout hx hactive (hcan x hx)).detached
  | cancel t hx hlive => exact iff_of_true (h.set (h.tidy t _ hx).cancel).detached trivial
  | delete t hx hdes => exact iff_of_true (h.set ((h.tidy t _ hx).delete hdes)).detached trivial

theorem TransactionStep.sound {e : TransactionEvent} (he : TransactionStep C e C')
    (h : Sound C late) (hq : Timely (C, late) e) : Sound C' (sentLate C e late) := by
  cases he with
  | create t requestId retries hx =>
    obtain ⟨hslot, hsent, hlate⟩ := h.unknown t hx
    show Sound _ late
    refine h.set ?_
    rw [List.count_eq_zero.mpr hsent, List.count_eq_zero.mpr hlate]
    exact tidy_new requestId retries hslot
  | send t accepted hx hlive => exact h.send hx (hq _ hx).1 (hq _ hx).2
  | packet packetId => exact h.emit packetId
  | timeout t accepted hx hactive => exact h.timeout hx hactive (hq _ hx)
  | cancel t hx hlive => exact h.set (h.tidy t _ hx).cancel
  | delete t hx hdes => exact h.set ((h.tidy t _ hx).delete hdes)

/-- **No slot is left behind and no request is sent too often**, all along a run, exactly when no
transaction is sent once it is disposed of, or with its attempts and late sends used up, and every
timer that expires finds a transaction that can send again. -/
theorem run_detached_iff {tr : List TransactionEvent} :
    Lts.Run (Lts.Into TransactionStep Transactions.Detached) .empty tr C ↔
      ∃ late, Lts.Run (Lts.Only TransactionRecord Timely) (.empty, []) tr (C, late) := by
  rw [Lts.run_into_iff_remember sentLate []]
  refine exists_congr fun late => ?_
  exact Lts.run_into_iff (I := fun s => Sound s.1 s.2) (C := fun _ => True) trivial
    (fun _ _ _ _ _ => trivial) sound_empty (fun _ _ _ _ h he => he.1.detached_iff h)
    fun _ _ _ _ h he hq => he.2 ▸ he.1.sound h hq

/-- A timeout of the one transaction there is: its slot stays, and the next packet calls it. -/
theorem not_detached_after_timeout : ¬ ∀ tr C, Lts.Run TransactionStep .empty tr C → C.Detached := by
  intro h
  let x : Transaction := .new 1 0
  have hcreate : TransactionStep .empty (.create 0 1 0) (Transactions.empty.set 0 x) :=
    .create 0 1 0 rfl
  have hsend : TransactionStep _ (.send 0 true) ((Transactions.empty.set 0 x).send 0 x true) :=
    .send 0 true rfl rfl
  have htimeout : TransactionStep _ (.timeout 0 true)
      (((Transactions.empty.set 0 x).send 0 x true).onTimeout 0 x.send true) :=
    .timeout 0 true rfl rfl
  have hrun := ((Lts.Run.single hcreate).snoc hsend).snoc htimeout
  exact absurd (h _ _ (hrun.snoc (.packet 7))).stray (by decide)

end SocketIo

end Yamb
