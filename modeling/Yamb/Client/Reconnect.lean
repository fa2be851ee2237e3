import Yamb.Client.Model
import Yamb.Lib.Lts

/-!
# Reconnecting

`setError` schedules a reconnect, `onConnect` and `onClose` call it off; `connect`, which the timer
calls too, stops the timer and leaves `_reconnecting` set.

* `ClientStep`: the events of a client, until an assert ends the process;
* `Client.Scheduled`, `ReconnectOk`: no assert of the timer has failed, and `_reconnecting` says
  whether a reconnect is scheduled;
* `ReconnectsOnce`: the events that keep it so; `ClientStep.ok_or`: one event;
* **`run_reconnect_iff`**: it is so in every state of a run exactly when no reconnect is ever tried,
  and no error comes while one is scheduled.
-/

set_option autoImplicit false

namespace Yamb

/-- A client, or the assert that has ended the process. -/
abbrev ClientRun : Type := Except ClientAssert Client

/-- A timer that does not run does not expire. -/
inductive ClientStep : ClientRun → ClientEvent → ClientRun → Prop
  | handle {c : Client} {e : ClientEvent}
      (h : e = .onReconnectTimer → c.reconnectTimer.active = true) :
      ClientStep (.ok c) e (c.handle e)

/-- One reconnect attempt is scheduled. -/
def Client.Scheduled (c : Client) : Prop :=
  c.reconnectTimer.active = true ∧ c.reconnectTimer.attached = true

/-- Neither `Timer::setTimeout` nor `Timer::start` was called on an active timer, and
`_reconnecting` is true exactly while a reconnect attempt is scheduled. -/
def ReconnectOk : ClientRun → Prop
  | .ok c => c.reconnecting = true ↔ c.Scheduled
  | .error f => f ≠ .timerActive

/-- The announcement was accepted. -/
def AnnounceResponse.Accepted (r : AnnounceResponse) : Prop :=
  r.status = 200 ∧ (∃ id, r.id = some id ∧ id ≠ "") ∧ r.presence = true

/-- No reconnect is tried; no error comes, and nobody connects, while one is scheduled. -/
def ReconnectsOnce : ClientRun → ClientEvent → Prop
  | .ok c, .connect | .ok c, .onSocketError => ¬ c.Scheduled
  | .ok c, .onAnnounceState response => (∃ r, response = some r ∧ r.Accepted) ∨ ¬ c.Scheduled
  | .ok _, .onReconnectTimer => False
  | _, _ => True

/-- What holds between the events of such a run. -/
def Idle : ClientRun → Prop
  | .ok c => c.reconnectTimer.active = c.reconnecting ∧ c.reconnectTimer.attached = c.reconnecting
  | .error f => f ≠ .timerActive

variable {c c' : Client} {s s' : ClientRun} {e : ClientEvent} {tr : List ClientEvent}

theorem Idle.scheduled_iff (h : Idle (.ok c)) : c.Scheduled ↔ c.reconnecting = true := by
  obtain ⟨hactive, hattached⟩ := h
  rw [Client.Scheduled, hactive, hattached, and_self]

theorem Idle.reconnectOk (h : Idle s) : ReconnectOk s := by
  cases s with
  | ok c => exact h.scheduled_iff.symm
  | error f => exact h

/-- The timer and the flag are all that matters. -/
theorem Idle.congr (h : Idle (.ok c)) (ht : c'.reconnectTimer = c.reconnectTimer)
    (hr : c'.reconnecting = c.reconnecting) : Idle (.ok c') := by
  show c'.reconnectTimer.active = c'.reconnecting ∧ c'.reconnectTimer.attached = c'.reconnecting
  rw [ht, hr]
  exact h

/-! ### One event -/

/-- A reset stops the timer, and `_reconnecting` stays. -/
theorem connect_ok_or (h : Idle (.ok c)) : Idle (.ok c.connect) ∧ ¬ c.Scheduled ∨
    ¬ ReconnectOk (.ok c.connect) ∧ c.Scheduled := by
  rw [h.scheduled_iff]
  cases hr : c.reconnecting with
  | true =>
    refine .inr ⟨fun hok => ?_, rfl⟩
    cases (hok.mp hr).1
  | false => exact .inl ⟨⟨hr.symm, hr.symm⟩, Bool.false_ne_true⟩

theorem idle_stopReconnectTimer (h : Idle (.ok c)) : Idle (.ok c.stopReconnectTimer) := by
  unfold Client.stopReconnectTimer
  split_ifs
  · exact ⟨rfl, rfl⟩
  · exact h

theorem idle_reset_onClose (c : Client) : Idle (.ok c.reset.onClose) := by
  unfold Client.onClose Client.stopReconnectTimer
  split_ifs with hr
  · exact ⟨rfl, rfl⟩
  · have hr : c.reconnecting = false := Bool.eq_false_iff.mpr hr
    exact ⟨hr.symm, hr.symm⟩

/-- An error schedules a reconnect, which fails while one is scheduled. -/
theorem setError_ok_or (h : Idle (.ok c)) :
    (∃ c', c.setError = .ok c' ∧ Idle (.ok c')) ∧ ¬ c.Scheduled ∨
      c.setError = .error .timerActive ∧ c.Scheduled := by
  have hactive := h.1
  rw [h.scheduled_iff]
  unfold Client.setError Client.startReconnectTimer Timer.setTimeout Timer.start Timer.attach
  cases hr : c.reconnecting with
  | true =>
    rw [hr] at hactive
    exact .inr ⟨by simp only [hactive, if_true]; rfl, rfl⟩
  | false =>
    rw [hr] at hactive
    refine .inl ⟨⟨_, by simp only [hactive, Bool.false_eq_true, if_false]; rfl, rfl, rfl⟩, ?_⟩
    exact Bool.false_ne_true

theorem onOnline_idle (h : Idle (.ok c)) : Idle c.onOnline := by
  unfold Client.onOnline Client.send
  split_ifs
  · exact h
  · exact fun hf => by cases hf
  · exact fun hf => by cases hf
  · exact fun hf => by cases hf
  · exact h.congr rfl rfl

theorem onAnnounceState_ok_or (h : Idle (.ok c)) (response : Option AnnounceResponse) :
    Idle (c.onAnnounceState response) ∧
        ((∃ r, response = some r ∧ r.Accepted) ∨ ¬ c.Scheduled) ∨
      ¬ ReconnectOk (c.onAnnounceState response) ∧
        ¬ ((∃ r, response = some r ∧ r.Accepted) ∨ ¬ c.Scheduled) := by
  have hfail {c' : Client} (ht : c'.reconnectTimer = c.reconnectTimer)
      (hr : c'.reconnecting = c.reconnecting) (hno : ¬ ∃ r, response = some r ∧ r.Accepted) :
      Idle c'.setError ∧ ((∃ r, response = some r ∧ r.Accepted) ∨ ¬ c.Scheduled) ∨
        ¬ ReconnectOk c'.setError ∧ ¬ ((∃ r, response = some r ∧ r.Accepted) ∨ ¬ c.Scheduled) := by
    have hsched : c'.Scheduled ↔ c.Scheduled := by rw [Client.Scheduled, ht, Client.Scheduled]
    rw [or_iff_right hno, ← hsched]
    rcases setError_ok_or (h.congr ht hr) with ⟨⟨c'', heq, hidle⟩, hs⟩ | ⟨heq, hs⟩
    · rw [heq]
      exact .inl ⟨hidle, hs⟩
    · rw [heq]
      exact .inr ⟨fun hok => hok rfl, not_not.mpr hs⟩
  cases response with
  | none => exact hfail rfl rfl (by simp)
  | some r =>
    simp only [Client.onAnnounceState]
    by_cases hstatus : r.status = 200
    · cases hid : r.id with
      | none =>
        simp only [hstatus, ne_eq, not_true, if_false]
        refine hfail rfl rfl ?_
        simp [AnnounceResponse.Accepted, hid]
      | some id =>
        simp only [hstatus, ne_eq, not_true, if_false]
        split_ifs with hbad
        · refine hfail rfl rfl ?_
          simp only [AnnounceResponse.Accepted, hid, Option.some.injEq, exists_eq_left', hstatus,
            true_and]
          tauto
        · rw [not_or, not_not] at hbad
          have haccepted : r.Accepted := ⟨hstatus, ⟨id, hid, hbad.1⟩, hbad.2⟩
          exact .inl ⟨onOnline_idle (h.congr rfl rfl), .inl ⟨r, rfl, haccepted⟩⟩
    · rw [if_pos hstatus]
      refine hfail rfl rfl ?_
      simp [AnnounceResponse.Accepted, hstatus]

theorem onSocketError_ok_or (h : Idle (.ok c)) : Idle c.onSocketError ∧ ¬ c.Scheduled ∨
    ¬ ReconnectOk c.onSocketError ∧ c.Scheduled := by
  unfold Client.onSocketError
  rcases setError_ok_or h with ⟨⟨c', heq, hidle⟩, hs⟩ | ⟨heq, hs⟩
  · rw [heq]
    exact .inl ⟨hidle.congr rfl rfl, hs⟩
  · rw [heq]
    exact .inr ⟨fun hok => hok rfl, hs⟩

/-- **One event.** -/
theorem ClientStep.ok_or (h : ClientStep s e s') (hs : Idle s) :
    Idle s' ∧ ReconnectsOnce s e ∨ ¬ ReconnectOk s' ∧ ¬ ReconnectsOnce s e := by
  cases h with
  | @handle c e htimer =>
    cases e with
    | connect =>
      rcases connect_ok_or hs with h | ⟨hok, hsched⟩
      · exact .inl h
      · exact .inr ⟨hok, not_not.mpr hsched⟩
    | onSocketConnect =>
      have hc : Idle (.ok { c with handshakeComplete := true, state := .connected }) :=
        hs.congr rfl rfl
      exact .inl ⟨idle_stopReconnectTimer hc, trivial⟩
    | onHandshake sid pingInterval pingTimeout => exact .inl ⟨hs.congr rfl rfl, trivial⟩
    | onConnectPacket => exact .inl ⟨onOnline_idle hs, trivial⟩
    | onAnnounceState response => exact onAnnounceState_ok_or hs response
    | onSocketError =>
      rcases onSocketError_ok_or hs with h | ⟨hok, hsched⟩
      · exact .inl h
      · exact .inr ⟨hok, not_not.mpr hsched⟩
    | onReconnectTimer =>
      have hactive := htimer rfl
      have hrec : c.reconnecting = true := hs.1 ▸ hactive
      have hattached : c.reconnectTimer.attached = true := hs.2.trans hrec
      refine .inr ⟨fun hok => ?_, fun hq => hq⟩
      simp only [Client.handle, Client.onReconnectTimer, Timer.stop, hattached, if_true] at hok
      cases (hok.mp hrec).1
    | close =>
      refine .inl ⟨?_, trivial⟩
      simp only [Client.handle, Client.close]
      split_ifs
      · exact hs
      · exact idle_reset_onClose c

/-- **The reconnect timer is started when it is idle, and `_reconnecting` tells whether it runs**, in
every state of a run exactly when no reconnect is tried, and no error comes, and nobody connects,
while one is scheduled. -/
theorem run_reconnect_iff : Lts.Run (Lts.Into ClientStep ReconnectOk) (.ok .new) tr s ↔
    Lts.Run (Lts.Only ClientStep ReconnectsOnce) (.ok .new) tr s := by
  refine Lts.run_into_iff (C := fun _ => True) (I := Idle) trivial (fun _ _ _ _ _ => trivial)
    ⟨rfl, rfl⟩ (fun s e s' _ hs he => ?_) fun s e s' _ hs he hq => ?_
  · rcases he.ok_or hs with ⟨hidle, hq⟩ | ⟨hno, hq⟩
    · exact iff_of_true hidle.reconnectOk hq
    · exact iff_of_false hno hq
  · rcases he.ok_or hs with ⟨hidle, -⟩ | ⟨-, hno⟩
    · exact hidle
    · exact absurd hq hno

/-- The announcement is sent, the socket breaks, and the transaction of the announcement times out
before the reconnect timer does. -/
theorem not_reconnectOk_second_error :
    ¬ ∀ tr s, Lts.Run ClientStep (.ok .new) tr s → ReconnectOk s := by
  intro h
  have step {c : Client} (e : ClientEvent) (he : e ≠ .onReconnectTimer) :
      ClientStep (.ok c) e (c.handle e) := .handle fun heq => absurd heq he
  have hrun := ((((Lts.Run.single (step (c := .new) .connect (by decide))).snoc
    (step .onSocketConnect (by decide))).snoc (step .onConnectPacket (by decide))).snoc
    (step .onSocketError (by decide))).snoc (step (.onAnnounceState none) (by decide))
  exact h _ _ hrun rfl

end Yamb
