import Yamb.Lib.Lts
import Mathlib.Data.Finset.Basic
import Mathlib.Logic.Function.Basic

/-!
# Flooding with imperfect memory

Nodes of a fixed overlay relay messages to their neighbours. Every node keeps the history of the
keys it has recorded and drops a message when it `knows` the key by that history; it may forget
a key, but it never invents one. A message without a destination is flooded; a message with a
destination is relayed as a direct task, which only a neighbour of the destination can carry out.

* `Msg`, `Task`, `Packet`, `State`, `Event`: messages, queued tasks, messages in flight, states and
  the events of a run;
* `Task.packets`, `relay`: what a task puts on the wire and what a node queues for a new message;
* `Step`: the transitions, over a delivery discipline (`anyOrder`, `fifo`);
* `Quiet`: nothing queued and nothing in flight.
-/

set_option autoImplicit false

namespace Flood

variable {V H : Type}

structure Msg (V H : Type) where
  key : H
  dest : Option V

/-- A queued message: for one node, or for all neighbours. -/
structure Task (V H : Type) where
  direct : Bool
  msg : Msg V H

structure Packet (V H : Type) where
  src : V
  dst : V
  msg : Msg V H

structure State (V H : Type) where
  hist : V → List H
  queue : V → List (Task V H)
  wire : List (Packet V H)

/-- The events of a run; a receipt is fresh when the key was recorded. -/
inductive Event (V H : Type)
  | originate (v : V) (m : Msg V H)
  | receive (p : Packet V H) (fresh : Bool)
  | transmit (v : V) (t : Task V H)

/-- Nothing is queued and nothing is in flight. -/
def State.Quiet (s : State V H) : Prop := (∀ v, s.queue v = []) ∧ s.wire = []

variable [DecidableEq V]

/-- The packets node `v` sends for a task. -/
def Task.packets (peers : V → List V) (v : V) (t : Task V H) : List (Packet V H) :=
  if t.direct then
    match t.msg.dest with
    | some d => if d ∈ peers v then [⟨v, d, t.msg⟩] else []
    | none => []
  else (peers v).map fun w => ⟨v, w, t.msg⟩

/-- The task a node makes of a message of its own. -/
def ownTask (peers : V → List V) (v : V) (m : Msg V H) : Task V H where
  direct := match m.dest with
    | some d => decide (d ∈ peers v)
    | none => false
  msg := m

/-- What node `v` queues for a message it records. -/
def relay (v : V) (m : Msg V H) : List (Task V H) :=
  match m.dest with
  | some d => if d = v then [] else [⟨true, m⟩]
  | none => [⟨false, m⟩]

/-- Packets may overtake one another. -/
def anyOrder : List (Packet V H) → Packet V H → Prop := fun _ _ => True

/-- A packet is taken only when no earlier one travels the same way. -/
def fifo : List (Packet V H) → Packet V H → Prop :=
  fun l p => ∀ q ∈ l, ¬ (q.src = p.src ∧ q.dst = p.dst)

variable (peers : V → List V) (knows : List H → H → Prop)
  (order : List (Packet V H) → Packet V H → Prop)

/-- Node `v` records `key` and queues `ts`. -/
def State.record (s : State V H) (v : V) (key : H) (ts : List (Task V H)) : State V H :=
  { s with
    hist := Function.update s.hist v (s.hist v ++ [key])
    queue := Function.update s.queue v (s.queue v ++ ts) }

inductive Step : State V H → Event V H → State V H → Prop
  | originate (s : State V H) (v : V) (m : Msg V H) :
      Step s (.originate v m) (s.record v m.key [ownTask peers v m])
  | fresh (s : State V H) (l₁ : List (Packet V H)) (p : Packet V H) (l₂ : List (Packet V H))
      (hw : s.wire = l₁ ++ p :: l₂) (ho : order l₁ p) (hr : ¬ knows (s.hist p.dst) p.msg.key) :
      Step s (.receive p true)
        ({ s with wire := l₁ ++ l₂ }.record p.dst p.msg.key (relay p.dst p.msg))
  | stale (s : State V H) (l₁ : List (Packet V H)) (p : Packet V H) (l₂ : List (Packet V H))
      (hw : s.wire = l₁ ++ p :: l₂) (ho : order l₁ p) (hr : knows (s.hist p.dst) p.msg.key) :
      Step s (.receive p false) { s with wire := l₁ ++ l₂ }
  | transmit (s : State V H) (v : V) (t : Task V H) (q : List (Task V H))
      (hq : s.queue v = t :: q) :
      Step s (.transmit v t)
        { s with queue := Function.update s.queue v q, wire := s.wire ++ t.packets peers v }

variable {peers knows order}

@[simp] theorem State.record_wire (s : State V H) (v : V) (k : H) (ts : List (Task V H)) :
    (s.record v k ts).wire = s.wire := rfl

@[simp] theorem State.record_hist_self (s : State V H) (v : V) (k : H) (ts : List (Task V H)) :
    (s.record v k ts).hist v = s.hist v ++ [k] := Function.update_self _ _ _

@[simp] theorem State.record_queue_self (s : State V H) (v : V) (k : H) (ts : List (Task V H)) :
    (s.record v k ts).queue v = s.queue v ++ ts := Function.update_self _ _ _

theorem State.record_hist_of_ne (s : State V H) {v w : V} (h : w ≠ v) (k : H)
    (ts : List (Task V H)) : (s.record v k ts).hist w = s.hist w := Function.update_of_ne h _ _

theorem State.record_queue_of_ne (s : State V H) {v w : V} (h : w ≠ v) (k : H)
    (ts : List (Task V H)) : (s.record v k ts).queue w = s.queue w := Function.update_of_ne h _ _

theorem packets_direct (v d : V) (m : Msg V H) (hd : m.dest = some d) :
    (⟨true, m⟩ : Task V H).packets peers v = if d ∈ peers v then [⟨v, d, m⟩] else [] := by
  simp [Task.packets, hd]

theorem packets_flood (v : V) (m : Msg V H) :
    (⟨false, m⟩ : Task V H).packets peers v = (peers v).map fun w => ⟨v, w, m⟩ := by
  simp [Task.packets]

/-- Every packet of a task goes from its node to a neighbour and carries the message. -/
theorem mem_packets {v : V} {t : Task V H} {p : Packet V H} (hp : p ∈ t.packets peers v) :
    p.src = v ∧ p.dst ∈ peers v ∧ p.msg = t.msg := by
  unfold Task.packets at hp
  split_ifs at hp with hd
  · split at hp
    · split_ifs at hp with hm
      · obtain rfl := List.mem_singleton.mp hp
        exact ⟨rfl, hm, rfl⟩
      · exact absurd hp List.not_mem_nil
    · exact absurd hp List.not_mem_nil
  · obtain ⟨w, hw, rfl⟩ := List.mem_map.mp hp
    exact ⟨rfl, hw, rfl⟩

theorem relay_msg {v : V} {m : Msg V H} {t : Task V H} (h : t ∈ relay v m) : t.msg = m := by
  unfold relay at h
  split at h
  · split_ifs at h
    · exact absurd h List.not_mem_nil
    · obtain rfl := List.mem_singleton.mp h
      rfl
  · obtain rfl := List.mem_singleton.mp h
    rfl

theorem length_relay_le (v : V) (m : Msg V H) : (relay v m).length ≤ 1 := by
  unfold relay
  split
  · split_ifs <;> simp
  · simp

theorem relay_of_none {v : V} {m : Msg V H} (h : m.dest = none) : relay v m = [⟨false, m⟩] := by
  simp [relay, h]

theorem ownTask_of_none {v : V} {m : Msg V H} (h : m.dest = none) :
    ownTask peers v m = ⟨false, m⟩ := by
  simp [ownTask, h]

end Flood
