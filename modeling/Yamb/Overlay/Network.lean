import Yamb.Lib.Flood.Windows
import Yamb.Overlay.Member

/-!
# An overlay at work

* `Net`, `NetEvent`, `Overlay.Step`: the nodes with the messages in flight between them, and the
  steps: a call of a user, the delivery of a message, an iteration of a sender thread;
* `Overlay.Sim`, **`sim_step`**: every step is a step of flooding between bounded windows;
  `run_flood` for runs;
* `hashes`, `calls`, `called`: the calls of a trace, and how often it ran the callbacks of a node;
* `Overlay.BlindReceipt`, **`run_flood_only`**, `called_of_blindReceipt`: what is forgotten is what a
  window holds in slot `0` only;
* `Command`, `Overlay.execAll`: an executable form of the steps.
-/

set_option autoImplicit false

namespace Yamb

open BlindWindow (Visible)

structure Packet where
  src : PeerId
  dst : PeerId
  msg : Msg
  deriving DecidableEq

def Packet.toFlood (p : Packet) : Flood.Packet PeerId Hash := ⟨p.src, p.dst, p.msg.toFlood⟩

/-- The nodes, and the messages that have been sent and not been delivered, oldest first. -/
structure Net where
  nodes : PeerId → Node
  wire : List Packet

def Net.setNode (N : Net) (v : PeerId) (n : Node) : Net :=
  { N with nodes := Function.update N.nodes v n }

/-- A call is labelled with the message it queues, a delivery with the callbacks it ran. -/
inductive NetEvent
  | call (v : PeerId) (m : Msg)
  | receive (p : Packet) (called : Except Fault (Option (List Callback)))
  | iterate (v : PeerId)
  deriving DecidableEq

/-- Channels that keep the order. -/
def fifo (l : List Packet) (p : Packet) : Prop := ∀ q ∈ l, ¬ (q.src = p.src ∧ q.dst = p.dst)

/-- `order` says which messages may overtake one another. An iteration that finds its queue empty
only blocks the thread and is left out; when a blocked thread is woken is left open. -/
inductive Overlay.Step (O : Overlay) (order : List Packet → Packet → Prop) (N : Net) :
    NetEvent → Net → Prop
  | broadcast2Room {v : PeerId} (hv : v ∈ O.ids) (j : String) (now : ℕ) :
      O.Step order N (.call v ((N.nodes v).formMessage j .logic O.room now))
        (N.setNode v ((N.nodes v).broadcast2Room O.room j .logic "" now).1)
  | send2client {v peerId : PeerId} (hv : v ∈ O.ids) (hp : peerId ∈ O.ids) (j : String) (now : ℕ) :
      O.Step order N (.call v ((N.nodes v).formMessageTo j .logic O.room peerId now))
        (N.setNode v ((N.nodes v).send2client peerId O.room j .logic now).1)
  | receive (l₁ : List Packet) (p : Packet) (l₂ : List Packet) (hw : N.wire = l₁ ++ p :: l₂)
      (ho : order l₁ p) (hm : p.msg.type = .logic) (now : ℕ) :
      O.Step order N
        (.receive p ((N.nodes p.dst).handleWebrtcNodeMessageLogic (Message.parse p.msg) now).2)
        (({ N with wire := l₁ ++ l₂ } : Net).setNode p.dst
          ((N.nodes p.dst).handleWebrtcNodeMessageLogic (Message.parse p.msg) now).1)
  | iterate {v : PeerId} (hv : v ∈ O.ids) (hq : (N.nodes v).sMq ≠ []) :
      O.Step order N (.iterate v)
        (({ N with
          wire := N.wire ++ (N.nodes v).senderIteration.2.map fun s => ⟨v, s.1, s.2⟩ } : Net).setNode
            v (N.nodes v).senderIteration.1)

variable {O : Overlay} {order : List Packet → Packet → Prop}

/-- Every node is at its place, with the windows as `H` says. -/
def Overlay.Formed (O : Overlay) (N : Net) (H : PeerId → List Hash) : Prop :=
  ∀ v ∈ O.ids, O.Member v (N.nodes v) (H v)

/-- No message in flight and no queued task. -/
def Overlay.Quiet (O : Overlay) (N : Net) : Prop :=
  (∀ v ∈ O.ids, (N.nodes v).sMq = []) ∧ N.wire = []

instance (O : Overlay) (N : Net) : Decidable (O.Quiet N) := inferInstanceAs (Decidable (_ ∧ _))

/-! ### The simulation -/

/-- `s` is what flooding knows of `N`. -/
structure Overlay.Sim (O : Overlay) (N : Net) (s : Flood.State PeerId Hash) : Prop where
  member : ∀ v ∈ O.ids, O.Member v (N.nodes v) (s.hist v)
  tasks : ∀ v ∈ O.ids, ∀ t ∈ (N.nodes v).sMq, O.SoundTask t
  packets : ∀ p ∈ N.wire, p.dst ∈ O.ids ∧ O.Sound p.msg
  queue : ∀ v, s.queue v = if v ∈ O.ids then (N.nodes v).sMq.map SendMsgT.toFlood else []
  wire : s.wire = N.wire.map Packet.toFlood

/-- The event of flooding that stands for an event of the nodes. -/
inductive Overlay.Matches (O : Overlay) : NetEvent → Flood.Event PeerId Hash → Prop
  | call (v : PeerId) (m : Msg) : O.Matches (.call v m) (.originate v m.toFlood)
  | fresh (p : Packet) :
      O.Matches (.receive p (O.calls p.dst p.msg)) (.receive p.toFlood true)
  | stale (p : Packet) : O.Matches (.receive p (.ok none)) (.receive p.toFlood false)
  | iterate (v : PeerId) (t : Flood.Task PeerId Hash) : O.Matches (.iterate v) (.transmit v t)

namespace Overlay.Sim

variable {N N' : Net} {s : Flood.State PeerId Hash}

/-- A step of one node. -/
theorem setNode (h : O.Sim N s) {v : PeerId} (hv : v ∈ O.ids) {n : Node} {L : List Hash}
    (hn : O.Member v n L) (ht : ∀ t ∈ n.sMq, O.SoundTask t) {w : List Packet}
    (hw : ∀ p ∈ w, p.dst ∈ O.ids ∧ O.Sound p.msg) :
    O.Sim (({ N with wire := w } : Net).setNode v n)
      { hist := Function.update s.hist v L
        queue := Function.update s.queue v (n.sMq.map SendMsgT.toFlood)
        wire := w.map Packet.toFlood } where
  member := by
    intro u hu
    by_cases huv : u = v
    · subst huv
      simpa [Net.setNode] using hn
    · simpa [Net.setNode, Function.update_of_ne huv] using h.member u hu
  tasks := by
    intro u hu
    by_cases huv : u = v
    · subst huv
      simpa [Net.setNode] using ht
    · simpa [Net.setNode, Function.update_of_ne huv] using h.tasks u hu
  packets := hw
  queue := by
    intro u
    by_cases huv : u = v
    · subst huv
      simp [Net.setNode, hv]
    · simpa [Net.setNode, Function.update_of_ne huv] using h.queue u
  wire := rfl

/-- A call of a user. -/
theorem call (h : O.Sim N s) {v : PeerId} (hv : v ∈ O.ids) {n : Node} {t : SendMsgT}
    (hn : O.Member v n (s.hist v ++ [t.msg.hash])) (hq : n.sMq = (N.nodes v).sMq ++ [t])
    (ht : O.SoundTask t) (hown : t.toFlood = Flood.ownTask O.peers v t.msg.toFlood) :
    O.Sim (N.setNode v n)
      (s.record v t.msg.toFlood.key [Flood.ownTask O.peers v t.msg.toFlood]) := by
  have hsim := h.setNode hv hn (w := N.wire) (fun t' ht' => ?_) h.packets
  · rw [hq, List.map_append, List.map_singleton, hown] at hsim
    have hqueue := h.queue v
    rw [if_pos hv] at hqueue
    rw [← hqueue, ← h.wire] at hsim
    exact hsim
  · rw [hq] at ht'
    rcases List.mem_append.mp ht' with ht' | ht'
    · exact h.tasks v hv t' ht'
    · obtain rfl := List.mem_singleton.mp ht'
      exact ht

variable {order' : List (Flood.Packet PeerId Hash) → Flood.Packet PeerId Hash → Prop}

/-- A delivery. -/
theorem receive (h : O.Sim N s) {l₁ l₂ : List Packet} {p : Packet} (hw : N.wire = l₁ ++ p :: l₂)
    (ho : order' (l₁.map Packet.toFlood) p.toFlood) (now : ℕ) :
    ∃ e' s', O.Matches
        (.receive p ((N.nodes p.dst).handleWebrtcNodeMessageLogic (Message.parse p.msg) now).2) e' ∧
      Flood.Step O.peers (Visible 500) order' s e' s' ∧
      O.Sim (({ N with wire := l₁ ++ l₂ } : Net).setNode p.dst
        ((N.nodes p.dst).handleWebrtcNodeMessageLogic (Message.parse p.msg) now).1) s' := by
  obtain ⟨hdst, hsound⟩ := h.packets p (by simp [hw])
  have hwire : s.wire = l₁.map Packet.toFlood ++ p.toFlood :: l₂.map Packet.toFlood := by
    rw [h.wire, hw, List.map_append, List.map_cons]
  have hrest : ∀ q ∈ l₁ ++ l₂, q.dst ∈ O.ids ∧ O.Sound q.msg :=
    fun q hq => h.packets q (by rw [hw]; simp at hq ⊢; tauto)
  have hqueue := h.queue p.dst
  rw [if_pos hdst] at hqueue
  by_cases hk : Visible 500 (s.hist p.dst) p.msg.hash
  · rw [(h.member p.dst hdst).handle_known hsound hk now]
    have hsim := h.setNode hdst (h.member p.dst hdst) (h.tasks p.dst hdst) hrest
    rw [← hqueue, Function.update_eq_self, Function.update_eq_self, List.map_append] at hsim
    exact ⟨_, _, .stale p, .stale s _ p.toFlood _ hwire ho hk, hsim⟩
  · obtain ⟨n', tasks, heq, hmem, hq, htasks, hrelay⟩ :=
      (h.member p.dst hdst).handle_fresh hsound hk now
    rw [heq]
    have hsim := h.setNode hdst hmem (w := l₁ ++ l₂) (fun t ht => ?_) hrest
    · rw [hq, List.map_append, hrelay, ← hqueue, List.map_append] at hsim
      exact ⟨_, _, .fresh p, .fresh s _ p.toFlood _ hwire ho hk, hsim⟩
    · rw [hq] at ht
      rcases List.mem_append.mp ht with ht | ht
      · exact h.tasks p.dst hdst t ht
      · exact htasks t ht

/-- An iteration of a sender thread. -/
theorem iterate (h : O.Sim N s) {v : PeerId} (hv : v ∈ O.ids) (hq : (N.nodes v).sMq ≠ []) :
    ∃ e' s', O.Matches (.iterate v) e' ∧ Flood.Step O.peers (Visible 500) order' s e' s' ∧
      O.Sim (({ N with
        wire := N.wire ++ (N.nodes v).senderIteration.2.map fun s => ⟨v, s.1, s.2⟩ } : Net).setNode
          v (N.nodes v).senderIteration.1) s' := by
  obtain ⟨t, rest, hqt⟩ := List.exists_cons_of_ne_nil hq
  have ht := h.tasks v hv t (by simp [hqt])
  obtain ⟨hmem, hrest, hsends, hpk⟩ := (h.member v hv).iterate hqt ht
  have hsent : ((N.nodes v).senderIteration.2.map fun s => (⟨v, s.1, s.2⟩ : Packet)).map
      Packet.toFlood = t.toFlood.packets O.peers v := by
    rw [List.map_map]
    exact hpk
  have hqueue := h.queue v
  rw [if_pos hv, hqt, List.map_cons] at hqueue
  have hsim := h.setNode hv hmem
    (w := N.wire ++ (N.nodes v).senderIteration.2.map fun s => ⟨v, s.1, s.2⟩)
    (fun t' ht' => h.tasks v hv t' (by rw [hqt]; exact List.mem_cons_of_mem _ (hrest ▸ ht')))
    fun p hp => ?_
  · rw [Function.update_eq_self, hrest, List.map_append, hsent, ← h.wire] at hsim
    exact ⟨_, _, .iterate v t.toFlood, .transmit s v t.toFlood _ hqueue, hsim⟩
  · rcases List.mem_append.mp hp with hp | hp
    · exact h.packets p hp
    · obtain ⟨x, hx, rfl⟩ := List.mem_map.mp hp
      have hin : (⟨v, x.1, x.2.toFlood⟩ : Flood.Packet PeerId Hash) ∈
          t.toFlood.packets O.peers v := hpk ▸ List.mem_map_of_mem hx
      refine ⟨O.mem_ids v _ (Flood.mem_packets hin).2.1, ?_⟩
      rw [hsends x hx]
      exact ht.msg

end Overlay.Sim

/-- **Every step of the nodes is a step of flooding.** -/
theorem sim_step {order' : List (Flood.Packet PeerId Hash) → Flood.Packet PeerId Hash → Prop}
    (hord : ∀ l p, order l p → order' (l.map Packet.toFlood) p.toFlood) {N N' : Net}
    {s : Flood.State PeerId Hash} {e : NetEvent} (h : O.Sim N s) (he : O.Step order N e N') :
    ∃ e' s', O.Matches e e' ∧ Flood.Step O.peers (Visible 500) order' s e' s' ∧ O.Sim N' s' := by
  cases he with
  | @broadcast2Room v hv j now =>
    obtain ⟨hmem, hq⟩ := (h.member v hv).broadcast2Room j now
    refine ⟨_, _, .call _ _, .originate s v _, h.call hv hmem hq ⟨⟨rfl, rfl, rfl⟩, rfl, ?_⟩ ?_⟩
    · exact SendType.noConfusion
    · rw [Flood.ownTask_of_none rfl]
      rfl
  | @send2client v peerId hv hp j now =>
    obtain ⟨hmem, hq⟩ := (h.member v hv).send2client hp j now
    refine ⟨_, _, .call _ _, .originate s v _, h.call hv hmem hq ⟨⟨rfl, rfl, ?_⟩, rfl, ?_⟩ ?_⟩
    · exact congrArg some (O.ids_cstr peerId hp)
    · exact fun _ => Option.some_ne_none _
    · simp only [SendMsgT.toFlood, Flood.ownTask, Msg.toFlood, Node.formMessageTo]
      split_ifs with hmem' <;> simp [hmem']
  | receive l₁ p l₂ hw ho hm now => exact h.receive hw (hord l₁ p ho) now
  | @iterate v hv hq => exact h.iterate hv hq

/-! ### Runs -/

/-- The state of flooding that stands for a quiet network. -/
def Overlay.start (O : Overlay) (H : PeerId → List Hash) : Flood.State PeerId Hash where
  hist v := if v ∈ O.ids then H v else []
  queue _ := []
  wire := []

variable {N₀ N : Net} {H : PeerId → List Hash} {s : Flood.State PeerId Hash} {tr : List NetEvent}
  {tr' : List (Flood.Event PeerId Hash)}

theorem start_quiet (O : Overlay) (H : PeerId → List Hash) : (O.start H).Quiet :=
  ⟨fun _ => rfl, rfl⟩

theorem Overlay.Formed.sim (h : O.Formed N H) (hq : O.Quiet N) : O.Sim N (O.start H) where
  member := fun v hv => by simpa [Overlay.start, hv] using h v hv
  tasks := fun v hv t ht => absurd ht (by simp [hq.1 v hv])
  packets := fun p hp => absurd hp (by simp [hq.2])
  queue := fun v => by
    split_ifs with hv
    · simp [Overlay.start, hq.1 v hv]
    · rfl
  wire := by simp [Overlay.start, hq.2]

theorem Overlay.Sim.quiet (h : O.Sim N s) (hq : O.Quiet N) : s.Quiet := by
  refine ⟨fun v => ?_, by simp [h.wire, hq.2]⟩
  rw [h.queue]
  split_ifs with hv
  · simp [hq.1 v hv]
  · rfl

/-- **Runs of the nodes are runs of flooding.** -/
theorem run_flood (h₀ : O.Formed N₀ H) (hq₀ : O.Quiet N₀) (hr : Lts.Run (O.Step order) N₀ tr N) :
    ∃ tr' s, Lts.Run (Flood.Step O.peers (Visible 500) Flood.anyOrder) (O.start H) tr' s ∧
      O.Sim N s ∧ List.Forall₂ O.Matches tr tr' :=
  hr.simulate (h₀.sim hq₀) fun _ _ _ _ hs he => sim_step (fun _ _ _ => trivial) hs he

/-! ### Counting -/

def NetEvent.hash : NetEvent → Option Hash
  | .call _ m => some m.hash
  | _ => none

/-- The hashes of the calls of a trace. -/
def hashes (tr : List NetEvent) : List Hash := tr.filterMap NetEvent.hash

def NetEvent.toCall : NetEvent → Option (PeerId × Msg)
  | .call v m => some (v, m)
  | _ => none

/-- The calls of a trace. -/
def calls (tr : List NetEvent) : List (PeerId × Msg) := tr.filterMap NetEvent.toCall

theorem mem_calls {v : PeerId} {m : Msg} (h : NetEvent.call v m ∈ tr) : (v, m) ∈ calls tr :=
  List.mem_filterMap.mpr ⟨_, h, rfl⟩

/-- The event runs the callbacks of `v` for `h`. -/
def Overlay.isCall (O : Overlay) (v : PeerId) (h : Hash) : NetEvent → Bool
  | .receive p called =>
    decide (p.dst = v ∧ p.msg.hash = h ∧ called = .ok (some (O.callbacks v)))
  | _ => false

/-- How often the callbacks of the room have been run at `v` for `h`. -/
def Overlay.called (O : Overlay) (v : PeerId) (h : Hash) (tr : List NetEvent) : ℕ :=
  tr.countP (O.isCall v h)

theorem hashes_append (tr₁ tr₂ : List NetEvent) : hashes (tr₁ ++ tr₂) = hashes tr₁ ++ hashes tr₂ :=
  List.filterMap_append

theorem called_append (O : Overlay) (v : PeerId) (h : Hash) (tr₁ tr₂ : List NetEvent) :
    O.called v h (tr₁ ++ tr₂) = O.called v h tr₁ + O.called v h tr₂ := List.countP_append

theorem originated_eq (hm : List.Forall₂ O.Matches tr tr') : Flood.originated tr' = hashes tr := by
  induction hm with
  | nil => rfl
  | cons he _ ih =>
    cases he with
    | call v m => exact congrArg (m.hash :: ·) ih
    | fresh p => exact ih
    | stale p => exact ih
    | iterate v t => exact ih

theorem mem_originate (hm : List.Forall₂ O.Matches tr tr') {v : PeerId} {m : Msg}
    (h : NetEvent.call v m ∈ tr) : Flood.Event.originate v m.toFlood ∈ tr' := by
  obtain ⟨e, he, hmatch⟩ := Lts.exists_of_forall₂_left hm h
  cases hmatch
  exact he

theorem exists_call (hm : List.Forall₂ O.Matches tr tr') {v : PeerId}
    {m' : Flood.Msg PeerId Hash} (h : Flood.Event.originate v m' ∈ tr') :
    ∃ m, NetEvent.call v m ∈ tr ∧ m.toFlood = m' := by
  obtain ⟨e, he, hmatch⟩ := Lts.exists_of_forall₂_right hm h
  cases hmatch
  exact ⟨_, he, rfl⟩

theorem isCall_fresh (O : Overlay) (v : PeerId) (h : Hash) (p : Packet) :
    O.isCall v h (.receive p (O.calls p.dst p.msg)) =
      decide (p.dst = v ∧ p.msg.hash = h ∧ (p.msg.to' = none ∨ p.msg.to' = some v)) := by
  unfold Overlay.isCall Overlay.calls
  rw [decide_eq_decide]
  constructor
  · rintro ⟨rfl, hk, hc⟩
    refine ⟨rfl, hk, ?_⟩
    by_contra hto
    rw [if_neg hto] at hc
    cases hc
  · rintro ⟨rfl, hk, hto⟩
    exact ⟨rfl, hk, by rw [if_pos hto]⟩

/-- Callbacks run at the fresh receipts of a message for everyone or for the node itself. -/
theorem called_eq_freshAt (hm : List.Forall₂ O.Matches tr tr') {v : PeerId} {h : Hash}
    {d : Option PeerId} (hdest : ∀ p b, Flood.Event.receive p b ∈ tr' → p.msg.key = h →
      p.msg.dest = d) (hd : d = none ∨ d = some v) : O.called v h tr = Flood.freshAt v h tr' := by
  induction hm with
  | nil => rfl
  | @cons e e' tr tr' he _ ih =>
    have ih := ih fun p b hp => hdest p b (List.mem_cons_of_mem _ hp)
    unfold Overlay.called Flood.freshAt at ih ⊢
    rw [List.countP_cons, List.countP_cons, ih]
    congr 1
    cases he with
    | call u m => rfl
    | stale p => simp [Overlay.isCall, Flood.Event.isFresh]
    | iterate u t => rfl
    | fresh p =>
      have hsame : O.isCall v h (.receive p (O.calls p.dst p.msg)) =
          Flood.Event.isFresh v h (.receive p.toFlood true) := by
        rw [isCall_fresh, Flood.Event.isFresh, decide_eq_decide]
        refine ⟨fun hc => ⟨hc.1, hc.2.1⟩, fun hc => ⟨hc.1, hc.2, ?_⟩⟩
        have hto := hdest p.toFlood true List.mem_cons_self hc.2
        change p.msg.to' = d at hto
        rwa [hto]
      rw [hsame]

/-- Nobody's callbacks run for a message to someone else. -/
theorem called_eq_zero (hm : List.Forall₂ O.Matches tr tr') {v w : PeerId} {h : Hash}
    (hdest : ∀ p b, Flood.Event.receive p b ∈ tr' → p.msg.key = h → p.msg.dest = some w)
    (hv : v ≠ w) : O.called v h tr = 0 := by
  refine List.countP_eq_zero.mpr fun e he hcall => ?_
  obtain ⟨e', he', hmatch⟩ := Lts.exists_of_forall₂_left hm he
  cases hmatch with
  | call u m => cases hcall
  | stale p => simp [Overlay.isCall] at hcall
  | iterate u t => cases hcall
  | fresh p =>
    rw [isCall_fresh, decide_eq_true_eq] at hcall
    obtain ⟨-, hk, hto⟩ := hcall
    have hw := hdest p.toFlood true he' hk
    change p.msg.to' = some w at hw
    rw [hw] at hto
    rcases hto with hto | hto
    · cases hto
    · exact hv (Option.some.inj hto).symm

/-! ### Forgetting -/

/-- The window for user messages holds the hash in slot `0`, where it is not looked for. -/
def Node.BlindTo (n : Node) (roomId : RoomId) (hash : Hash) : Prop :=
  ∃ RU, n.roomManager[roomId]? = some RU ∧ RU.logicMsgHashesBuffer.OnlyInSlotZero hash

/-- A message of the kind `B` reaches a node that is blind to it. -/
def Overlay.BlindReceipt (O : Overlay) (B : Packet → Prop) (N : Net) : NetEvent → Prop
  | .receive p _ => B p ∧ (N.nodes p.dst).BlindTo O.room p.msg.hash
  | _ => False

/-- No two calls have the same hash, and none has the hash of an earlier message. -/
structure Overlay.Distinct (O : Overlay) (H : PeerId → List Hash) (tr : List NetEvent) : Prop where
  nodup : (hashes tr).Nodup
  new : ∀ x ∈ hashes tr, ∀ v ∈ O.ids, x ∉ H v

theorem Overlay.Distinct.of_append {tr₁ tr₂ : List NetEvent} (h : O.Distinct H (tr₁ ++ tr₂)) :
    O.Distinct H tr₁ := by
  obtain ⟨hnd, hnew⟩ := h
  rw [hashes_append] at hnd hnew
  exact ⟨(List.nodup_append.mp hnd).1, fun x hx => hnew x (List.mem_append_left _ hx)⟩

/-- A hash belongs to one call. -/
theorem Overlay.Distinct.unique (h : O.Distinct H tr) {u v : PeerId} {m m' : Msg}
    (hm' : NetEvent.call u m' ∈ tr) (hm : NetEvent.call v m ∈ tr) (hk : m'.hash = m.hash) :
    u = v ∧ m' = m := by
  have heq := Lts.eq_of_nodup_filterMap h.nodup hm' hm (congrArg some hk) rfl
  cases heq
  exact ⟨rfl, rfl⟩

theorem Overlay.Distinct.new_start (h : O.Distinct H tr) {x : Hash} (hx : x ∈ hashes tr)
    (v : PeerId) : x ∉ (O.start H).hist v := by
  unfold Overlay.start
  dsimp only
  split_ifs with hv
  · exact h.new x hx v hv
  · exact List.not_mem_nil

/-- The copies of a call carry its message. -/
theorem msg_of_receive (hrun : Lts.Run (Flood.Step O.peers (Visible 500) Flood.anyOrder) (O.start H)
    tr' s) (hm : List.Forall₂ O.Matches tr tr') (hd : O.Distinct H tr) {v : PeerId} {m : Msg}
    (hcall : NetEvent.call v m ∈ tr) {p : Flood.Packet PeerId Hash} {b : Bool}
    (hp : Flood.Event.receive p b ∈ tr') (hk : p.msg.key = m.hash) : p.msg = m.toFlood := by
  have hkeys : (Flood.originated tr').Nodup := originated_eq hm ▸ hd.nodup
  obtain ⟨u, hu⟩ := (Flood.Run.msg_originated hrun (start_quiet O H)).2 p b hp
  exact ((Flood.originate_unique hkeys (mem_originate hm hcall)).2 u p.msg hu hk).2

theorem dest_of_receive (hrun : Lts.Run (Flood.Step O.peers (Visible 500) Flood.anyOrder)
    (O.start H) tr' s) (hm : List.Forall₂ O.Matches tr tr') (hd : O.Distinct H tr) {v : PeerId}
    {m : Msg} (hcall : NetEvent.call v m ∈ tr) {p : Flood.Packet PeerId Hash} {b : Bool}
    (hp : Flood.Event.receive p b ∈ tr') (hk : p.msg.key = m.hash) : p.msg.dest = m.to' := by
  rw [msg_of_receive hrun hm hd hcall hp hk, Msg.toFlood_dest]

/-- What a node is blind to it has recorded, and does not see. -/
theorem Overlay.Sim.of_blindTo (h : O.Sim N s) {v : PeerId} (hv : v ∈ O.ids) {x : Hash}
    (hx : (N.nodes v).BlindTo O.room x) : x ∈ s.hist v ∧ ¬ Visible 500 (s.hist v) x := by
  obtain ⟨RU, hget, hRU⟩ := (h.member v hv).joined
  obtain ⟨RU', hget', hblind⟩ := hx
  obtain rfl := Option.some.inj (hget.symm.trans hget')
  refine ⟨hRU.holds.mem_of_onlyInSlotZero hblind, fun hvis => ?_⟩
  have := (hRU.isExists_iff x).mpr hvis
  rw [hblind.2.2] at this
  cases this

/-- What a node has recorded lately, and does not see, it is blind to. -/
theorem Overlay.Sim.blindTo (h : O.Sim N s) {v : PeerId} (hv : v ∈ O.ids) {x : Hash}
    {old ps : List Hash} (hps : s.hist v = old ++ ps) (hlen : ps.length ≤ 500) (hx : x ∈ ps)
    (hvis : ¬ Visible 500 (s.hist v) x) : (N.nodes v).BlindTo O.room x := by
  obtain ⟨RU, hget, hRU⟩ := (h.member v hv).joined
  refine ⟨RU, hget, (hps ▸ hRU.holds).onlyInSlotZero (by rwa [hRU.slots]) hx ?_⟩
  rw [← Bool.not_eq_true]
  exact fun hex => hvis ((hRU.isExists_iff x).mp hex)

/-- After few calls, a node that takes a recorded message for a new one is blind to it. -/
theorem blindTo_of_fresh (hrun : Lts.Run (Flood.Step O.peers (Visible 500) Flood.anyOrder)
    (O.start H) tr' s) (hsim : O.Sim N s) (hm : List.Forall₂ O.Matches tr tr')
    (hfew : (hashes tr).length < 500) (hd : O.Distinct H tr) {p : Packet} (hp : p.toFlood ∈ s.wire)
    (hmem : p.msg.hash ∈ s.hist p.dst) (hvis : ¬ Visible 500 (s.hist p.dst) p.msg.hash) :
    (N.nodes p.dst).BlindTo O.room p.msg.hash := by
  have hdst : p.dst ∈ O.ids := by
    rw [hsim.wire] at hp
    obtain ⟨q, hq, heq⟩ := List.mem_map.mp hp
    have := (hsim.packets q hq).1
    rwa [show q.dst = p.dst from congrArg Flood.Packet.dst heq] at this
  have hknown : p.msg.hash ∈ hashes tr := by
    rw [← originated_eq hm]
    have := (Flood.Run.key_mem (K := fun _ => False) hrun (start_quiet O H).all).wire _ hp
    exact this.resolve_left id
  obtain ⟨ps, hps, hle⟩ := Flood.Run.hist_length_le (K := ∅) hrun (start_quiet O H).all
    (originated_eq hm ▸ hd.nodup)
    (fun x hx => ⟨Finset.notMem_empty x, hd.new_start (originated_eq hm ▸ hx)⟩)
    (by rw [originated_eq hm]; simpa using hfew) p.dst
  rw [originated_eq hm, Finset.card_empty] at hle
  have hin : p.msg.hash ∈ ps := by
    rw [hps] at hmem
    exact (List.mem_append.mp hmem).resolve_left (hd.new_start hknown p.dst)
  exact hsim.blindTo hdst hps (by omega) hin hvis

/-- **Few messages are only forgotten through blindness**: a run without blind receipts of the kind
`B` is a run of flooding that forgets nothing of that kind. -/
theorem run_flood_only {B : Packet → Prop} (B' : Flood.Packet PeerId Hash → Prop)
    (hB : ∀ p, B' p.toFlood → B p) (h₀ : O.Formed N₀ H) (hq₀ : O.Quiet N₀)
    (hr : Lts.Run (Lts.Only (O.Step order) fun N e => ¬ O.BlindReceipt B N e) N₀ tr N)
    (hfew : (hashes tr).length < 500) (hd : O.Distinct H tr) :
    ∃ tr' s, Lts.Run (Lts.Only (Flood.Step O.peers (Visible 500) Flood.anyOrder) fun s e =>
        ∀ p, e = .receive p true → B' p → p.msg.key ∉ s.hist p.dst) (O.start H) tr' s ∧
      O.Sim N s ∧ List.Forall₂ O.Matches tr tr' := by
  induction hr with
  | nil => exact ⟨[], _, .nil, h₀.sim hq₀, .nil⟩
  | @snoc tr N N' e hr he ih =>
    replace hd := hd.of_append
    have hlen : (hashes tr).length < 500 := by
      rw [hashes_append, List.length_append] at hfew
      omega
    obtain ⟨tr', s, hrun, hsim, hm⟩ := ih hlen hd
    have hord : ∀ l p, order l p → Flood.anyOrder (l.map Packet.toFlood) p.toFlood :=
      fun _ _ _ => trivial
    obtain ⟨e', s', hmatch, hstep, hsim'⟩ := sim_step hord hsim he.1
    refine ⟨tr' ++ [e'], s', hrun.snoc ⟨hstep, ?_⟩, hsim', List.rel_append hm (.cons hmatch .nil)⟩
    rintro p' rfl hp' hmem
    cases hmatch with
    | fresh p =>
      cases hstep with
      | fresh l₁ _ l₂ hw _ hvis =>
        have hp : p.toFlood ∈ s.wire := by simp [hw]
        exact he.2 ⟨hB p hp', blindTo_of_fresh hrun.of_only hsim hm hlen hd hp hmem hvis⟩

/-! ### Recorded twice -/

theorem mem_ids_of_call (hr : Lts.Run (O.Step order) N₀ tr N) {v : PeerId} {m : Msg}
    (h : NetEvent.call v m ∈ tr) : v ∈ O.ids := by
  induction hr with
  | nil => exact absurd h List.not_mem_nil
  | snoc _ he ih =>
    rcases List.mem_append.mp h with h | h
    · exact ih h
    · obtain rfl := List.mem_singleton.mp h
      cases he with
      | broadcast2Room hv => exact hv
      | send2client hv => exact hv

/-- Every message in flight goes back to a call. -/
theorem call_of_mem_wire (h₀ : O.Formed N₀ H) (hq₀ : O.Quiet N₀)
    (hr : Lts.Run (O.Step order) N₀ tr N) {p : Packet} (hp : p ∈ N.wire) :
    p.dst ∈ O.ids ∧
      ∃ v m, NetEvent.call v m ∈ tr ∧ m.hash = p.msg.hash ∧ m.to' = p.msg.to' := by
  obtain ⟨tr', s, hrun, hsim, hm⟩ := run_flood h₀ hq₀ hr
  obtain ⟨v, hv⟩ := (Flood.Run.msg_originated hrun (start_quiet O H)).1.wire p.toFlood
    (hsim.wire ▸ List.mem_map_of_mem hp)
  obtain ⟨m, hcall, hmp⟩ := exists_call hm hv
  exact ⟨(hsim.packets p hp).1, v, m, hcall, congrArg Flood.Msg.key hmp,
    congrArg Flood.Msg.dest hmp⟩

theorem mem_wire_of_receive {N' : Net} {p : Packet} {c : Except Fault (Option (List Callback))}
    (he : O.Step order N (.receive p c) N') : p ∈ N.wire := by
  cases he with
  | receive l₁ _ l₂ hw => simp [hw]

/-- **A blind receipt runs the callbacks once too often**: at the node that made the call, or at a
node where they have been run before. -/
theorem called_of_blindReceipt {N' : Net} {p : Packet} {c : Except Fault (Option (List Callback))}
    (h₀ : O.Formed N₀ H) (hq₀ : O.Quiet N₀) (hr : Lts.Run (O.Step order) N₀ tr N)
    (he : O.Step order N (.receive p c) N') (hd : O.Distinct H tr)
    (hb : (N.nodes p.dst).BlindTo O.room p.msg.hash) {v : PeerId} {m : Msg}
    (hcall : NetEvent.call v m ∈ tr) (hhash : m.hash = p.msg.hash)
    (hto : m.to' = none ∨ m.to' = some p.dst) :
    (if p.dst = v then 1 else 2) ≤ O.called p.dst m.hash (tr ++ [.receive p c]) := by
  obtain ⟨tr', s, hrun, hsim, hm⟩ := run_flood h₀ hq₀ hr
  have hp := mem_wire_of_receive he
  obtain ⟨hdst, u, m', hcall', hhash', hmto⟩ := call_of_mem_wire h₀ hq₀ hr hp
  obtain ⟨-, rfl⟩ := hd.unique hcall' hcall (hhash'.trans hhash.symm)
  cases he with
  | receive l₁ _ l₂ hw _ _ now =>
    obtain ⟨hmem, hvis⟩ := hsim.of_blindTo hdst hb
    obtain ⟨_, _, heq, -⟩ := (hsim.member p.dst hdst).handle_fresh (hsim.packets p hp).2 hvis now
    have hkeys : (Flood.originated tr').Nodup := originated_eq hm ▸ hd.nodup
    have hown := (Flood.originate_unique hkeys (mem_originate hm hcall)).1
    have hlast : O.called p.dst m'.hash [.receive p (O.calls p.dst p.msg)] = 1 := by
      simp [Overlay.called, isCall_fresh, hhash, ← hmto, hto]
    -- the node has recorded the message, as its own or on an earlier receipt
    have hcount := Flood.Run.hist_count hrun p.dst m'.hash
    rw [List.count_eq_zero_of_not_mem (hd.new_start (List.mem_filterMap.mpr ⟨_, hcall, rfl⟩) _),
      ← called_eq_freshAt hm (fun q b => dest_of_receive hrun hm hd hcall) hto] at hcount
    have hpos : 0 < (s.hist p.dst).count m'.hash := List.count_pos_iff.mpr (hhash ▸ hmem)
    have hownp : Flood.own p.dst m'.hash tr' = if p.dst = v then 1 else 0 := hown p.dst
    rw [heq, called_append, hlast]
    split_ifs at hownp ⊢ <;> omega

/-! ### Running commands -/

/-- What the environment can ask for; a delivery takes the oldest message. -/
inductive Command
  | broadcast2Room (v : PeerId) (j : String) (now : ℕ)
  | send2client (v : PeerId) (peerId : PeerId) (j : String) (now : ℕ)
  | deliver (now : ℕ)
  | iterate (v : PeerId)

namespace Overlay

def exec (O : Overlay) (N : Net) : Command → Option (NetEvent × Net)
  | .broadcast2Room v j now =>
    if v ∈ O.ids then
      some (.call v ((N.nodes v).formMessage j .logic O.room now),
        N.setNode v ((N.nodes v).broadcast2Room O.room j .logic "" now).1)
    else none
  | .send2client v peerId j now =>
    if v ∈ O.ids ∧ peerId ∈ O.ids then
      some (.call v ((N.nodes v).formMessageTo j .logic O.room peerId now),
        N.setNode v ((N.nodes v).send2client peerId O.room j .logic now).1)
    else none
  | .deliver now =>
    match N.wire with
    | [] => none
    | p :: l =>
      if p.msg.type = .logic then
        let r := (N.nodes p.dst).handleWebrtcNodeMessageLogic (Message.parse p.msg) now
        some (.receive p r.2, ({ N with wire := l } : Net).setNode p.dst r.1)
      else none
  | .iterate v =>
    if v ∈ O.ids ∧ (N.nodes v).sMq ≠ [] then
      let r := (N.nodes v).senderIteration
      some (.iterate v,
        ({ N with wire := N.wire ++ r.2.map fun s => ⟨v, s.1, s.2⟩ } : Net).setNode v r.1)
    else none

def execAll (O : Overlay) : Net → List Command → Option (List NetEvent × Net)
  | N, [] => some ([], N)
  | N, c :: cs =>
    match O.exec N c with
    | none => none
    | some (e, N') => (O.execAll N' cs).map fun r => (e :: r.1, r.2)

theorem step_of_exec {N' : Net} {c : Command} {e : NetEvent} (h : O.exec N c = some (e, N')) :
    O.Step fifo N e N' := by
  cases c with
  | broadcast2Room v j now =>
    simp only [exec] at h
    split_ifs at h with hv
    cases h
    exact .broadcast2Room hv j now
  | send2client v peerId j now =>
    simp only [exec] at h
    split_ifs at h with hv
    cases h
    exact .send2client hv.1 hv.2 j now
  | deliver now =>
    simp only [exec] at h
    split at h
    · cases h
    · rename_i p l hw
      split_ifs at h with hm
      cases h
      exact .receive [] p l hw (fun q hq => absurd hq List.not_mem_nil) hm now
  | iterate v =>
    simp only [exec] at h
    split_ifs at h with hv
    cases h
    exact .iterate hv.1 hv.2

/-- The commands run over channels that keep the order. -/
theorem run_of_execAll {cs : List Command} : ∀ {N N' : Net} {tr : List NetEvent},
    O.execAll N cs = some (tr, N') → Lts.Run (O.Step fifo) N tr N' := by
  induction cs with
  | nil =>
    intro N N' tr h
    cases h
    exact .nil
  | cons c cs ih =>
    intro N N' tr h
    simp only [execAll] at h
    split at h
    · cases h
    · rename_i e N₁ hc
      obtain ⟨r, hr, heq⟩ := Option.map_eq_some_iff.mp h
      cases heq
      exact (ih hr).cons (step_of_exec hc)

theorem run_get {N : Net} {cs : List Command} (h : (O.execAll N cs).isSome = true) :
    Lts.Run (O.Step fifo) N ((O.execAll N cs).get h).1 ((O.execAll N cs).get h).2 :=
  run_of_execAll (Option.some_get h).symm

end Overlay

end Yamb
