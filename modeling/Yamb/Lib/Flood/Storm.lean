import Yamb.Lib.BlindWindow
import Yamb.Lib.Flood.Delivery
import Mathlib.Data.List.DropRight

/-!
# Storms

Two nodes flood messages to each other over channels that keep the order. When more keys circulate
than a window has slots, each key returns after the window has lost it, and the flood never ends.

* `State.arm`: the keys under way from one node to the other, the next one to arrive first; the two
  arms together form a ring;
* `Trails`: the last entries of a history are among the last of the ring;
* `Storm`, **`Storm.step`**: no step without new messages ends a storm;
* `Storm.under_way`: a storm is never quiet;
* `Burst`, `Burst.storm`: a burst at one node that is too large is a storm.
-/

set_option autoImplicit false

namespace Flood

open BlindWindow

variable {V H : Type} {c : ℕ}

/-! ### Rings -/

/-- Each of the last `c` entries of `L` is at most as far from the end of the ring. -/
def Trails (c : ℕ) (L ring : List H) : Prop :=
  ∀ j, ∀ hj : j < L.length, L.length ≤ j + c → L[j] ∈ ring.rtake (L.length - j)

theorem rtake_cons {y : H} {R : List H} {n : ℕ} (hn : n ≤ R.length) :
    (y :: R).rtake n = R.rtake n := by
  rw [List.rtake, List.rtake, List.length_cons, Nat.succ_sub hn, List.drop_succ_cons]

/-- The front of a long ring has left the window. -/
theorem Trails.not_visible {L R : List H} {y : H} (h : Trails c L (y :: R))
    (hnd : (y :: R).Nodup) (hlong : c < (y :: R).length) : ¬ Visible c L y := by
  rintro ⟨j, hj, hlate, -, rfl⟩
  have hmem := h j hj hlate
  rw [List.length_cons] at hlong
  rw [rtake_cons (by omega)] at hmem
  exact (List.nodup_cons.mp hnd).1 (List.mem_of_mem_drop hmem)

/-- Recording the front moves it to the end. -/
theorem Trails.rotate {L R : List H} {y : H} (h : Trails c L (y :: R))
    (hlong : c < (y :: R).length) : Trails c (L ++ [y]) (R ++ [y]) := by
  intro j hj hlate
  rw [List.length_append, List.length_singleton] at hj hlate
  rw [List.length_cons] at hlong
  rcases Nat.lt_or_ge j L.length with hlt | hge
  · have hmem := h j hlt (by omega)
    rw [rtake_cons (by omega)] at hmem
    rw [List.getElem_append_left hlt, List.length_append, List.length_singleton,
      Nat.succ_sub hlt.le, List.rtake_concat_succ]
    exact List.mem_append_left _ hmem
  · obtain rfl : j = L.length := by omega
    rw [List.length_append, List.length_singleton, Nat.add_sub_cancel_left,
      show 1 = 0 + 1 from rfl, List.rtake_concat_succ]
    simp

/-! ### The arms -/

variable [DecidableEq V]

/-- The keys on the way from `u` to `v`, the oldest first. -/
def State.chan (s : State V H) (u v : V) : List H :=
  (s.wire.filter fun p => decide (p.src = u ∧ p.dst = v)).map fun p => p.msg.key

/-- The keys queued at `v`. -/
def State.waiting (s : State V H) (v : V) : List H := (s.queue v).map fun t => t.msg.key

/-- The keys under way from `u` to `v`. -/
def State.arm (s : State V H) (u v : V) : List H := s.chan u v ++ s.waiting u

theorem chan_remove {s : State V H} {l₁ l₂ : List (Packet V H)} {p : Packet V H}
    (hw : s.wire = l₁ ++ p :: l₂) (ho : fifo l₁ p) :
    s.chan p.src p.dst =
      p.msg.key :: ({ s with wire := l₁ ++ l₂ } : State V H).chan p.src p.dst := by
  have hnone : l₁.filter (fun q => decide (q.src = p.src ∧ q.dst = p.dst)) = [] :=
    List.filter_eq_nil_iff.mpr fun q hq => by simpa using ho q hq
  simp only [State.chan, hw, List.filter_append, hnone, List.nil_append]
  rw [List.filter_cons_of_pos (by simp), List.map_cons]

theorem chan_remove_of_ne {s : State V H} {l₁ l₂ : List (Packet V H)} {p : Packet V H} {u v : V}
    (hw : s.wire = l₁ ++ p :: l₂) (hne : ¬ (p.src = u ∧ p.dst = v)) :
    s.chan u v = ({ s with wire := l₁ ++ l₂ } : State V H).chan u v := by
  simp only [State.chan, hw, List.filter_append]
  rw [List.filter_cons_of_neg (by simpa using hne)]

/-! ### Two nodes -/

/-- The overlay of two linked nodes. -/
structure Pair (peers : V → List V) (a b : V) : Prop where
  ne : a ≠ b
  fst : peers a = [b]
  snd : peers b = [a]

omit [DecidableEq V] in
theorem Pair.symm {peers : V → List V} {a b : V} (h : Pair peers a b) : Pair peers b a :=
  ⟨h.ne.symm, h.snd, h.fst⟩

/-- More keys than slots go round, none of them twice, and both histories trail the ring. -/
structure Storm (c : ℕ) (a b : V) (s : State V H) : Prop where
  nodup : (s.arm a b ++ s.arm b a).Nodup
  long : c < (s.arm a b ++ s.arm b a).length
  trails_snd : Trails c (s.hist b) (s.arm a b ++ s.arm b a)
  trails_fst : Trails c (s.hist a) (s.arm b a ++ s.arm a b)
  all : s.All (fun v t => (v = a ∨ v = b) ∧ t.direct = false ∧ t.msg.dest = none)
    fun p => (p.src = a ∧ p.dst = b ∨ p.src = b ∧ p.dst = a) ∧ p.msg.dest = none

theorem Storm.symm {a b : V} {s : State V H} (h : Storm c a b s) : Storm c b a s where
  nodup := List.perm_append_comm.nodup_iff.mp h.nodup
  long := by
    have := h.long
    rw [List.length_append] at this ⊢
    omega
  trails_snd := h.trails_fst
  trails_fst := h.trails_snd
  all := ⟨fun v t ht => ⟨(h.all.queue v t ht).1.symm, (h.all.queue v t ht).2⟩,
    fun p hp => ⟨(h.all.wire p hp).1.symm, (h.all.wire p hp).2⟩⟩

variable {peers : V → List V} {a b : V} {s s' : State V H}

section Receive

variable {l₁ l₂ : List (Packet V H)} {p : Packet V H}

theorem Storm.arm_eq (hp : p.src = a ∧ p.dst = b) (hw : s.wire = l₁ ++ p :: l₂) (ho : fifo l₁ p) :
    s.arm a b = p.msg.key :: ({ s with wire := l₁ ++ l₂ } : State V H).arm a b := by
  obtain ⟨rfl, rfl⟩ := hp
  rw [State.arm, chan_remove hw ho]
  rfl

/-- What arrives is new to the window. -/
theorem Storm.not_visible (h : Storm c a b s) (hp : p.src = a ∧ p.dst = b)
    (hw : s.wire = l₁ ++ p :: l₂) (ho : fifo l₁ p) : ¬ Visible c (s.hist p.dst) p.msg.key := by
  have harm := Storm.arm_eq hp hw ho
  have htrail := h.trails_snd
  have hnd := h.nodup
  have hlong := h.long
  rw [harm, List.cons_append] at htrail hnd hlong
  rw [hp.2]
  exact htrail.not_visible hnd hlong

/-- A receipt moves the front of one arm to the end of the other. -/
theorem Storm.receive (h : Storm c a b s) (hab : a ≠ b) (hp : p.src = a ∧ p.dst = b)
    (hw : s.wire = l₁ ++ p :: l₂) (ho : fifo l₁ p) :
    Storm c a b ({ s with wire := l₁ ++ l₂ }.record p.dst p.msg.key (relay p.dst p.msg)) := by
  have hdest := (h.all.wire p (by simp [hw])).2
  have harm := Storm.arm_eq hp hw ho
  have hback : s.chan b a = ({ s with wire := l₁ ++ l₂ } : State V H).chan b a :=
    chan_remove_of_ne hw fun hc => hab (hp.1.symm.trans hc.1)
  rw [hp.2, relay_of_none hdest]
  generalize hs₁ : ({ s with wire := l₁ ++ l₂ } : State V H) = s₁ at harm hback ⊢
  have hqueue : s₁.queue = s.queue := by rw [← hs₁]
  have hhist : s₁.hist = s.hist := by rw [← hs₁]
  have harm₁ : (s₁.record b p.msg.key [⟨false, p.msg⟩]).arm a b = s₁.arm a b := by
    simp only [State.arm, State.waiting, State.record_queue_of_ne _ hab]
    rfl
  have harm₂ : (s₁.record b p.msg.key [⟨false, p.msg⟩]).arm b a = s.arm b a ++ [p.msg.key] := by
    simp only [State.arm, State.waiting, State.record_queue_self, hback, hqueue, List.map_append,
      List.append_assoc]
    rfl
  have hnd := h.nodup
  have hlong := h.long
  have hsnd := h.trails_snd
  have hfst := h.trails_fst
  rw [harm, List.cons_append] at hnd hlong hsnd
  rw [harm] at hfst
  constructor
  · rw [harm₁, harm₂, ← List.append_assoc]
    exact (List.perm_append_singleton _ _).nodup_iff.mpr hnd
  · rw [harm₁, harm₂, ← List.append_assoc, List.length_append, List.length_singleton]
    exact hlong
  · rw [harm₁, harm₂, State.record_hist_self, hhist, ← List.append_assoc]
    exact hsnd.rotate hlong
  · rw [harm₁, harm₂, State.record_hist_of_ne _ hab, hhist, List.append_assoc, List.singleton_append]
    exact hfst
  · have hall : s₁.All (fun v t => (v = a ∨ v = b) ∧ t.direct = false ∧ t.msg.dest = none)
        fun p => (p.src = a ∧ p.dst = b ∨ p.src = b ∧ p.dst = a) ∧ p.msg.dest = none := by
      rw [← hs₁]
      exact ⟨h.all.queue, fun q hq => h.all.wire q (mem_of_mem_removed hw hq)⟩
    refine hall.record b _ fun t ht => ?_
    obtain rfl := List.mem_singleton.mp ht
    exact ⟨.inr rfl, rfl, hdest⟩

end Receive

/-- A transmission moves a key within its arm. -/
theorem Storm.transmit (h : Storm c a b s) (hpair : Pair peers a b) {t : Task V H}
    {q : List (Task V H)} (hq : s.queue a = t :: q) :
    Storm c a b { s with
      queue := Function.update s.queue a q
      wire := s.wire ++ t.packets peers a } := by
  obtain ⟨-, hdirect, hdest⟩ := h.all.queue a t (by simp [hq])
  have hpk : t.packets peers a = [⟨a, b, t.msg⟩] := by
    simp [Task.packets, hdirect, hpair.fst]
  rw [hpk]
  have harm₁ : ({ s with
      queue := Function.update s.queue a q
      wire := s.wire ++ [⟨a, b, t.msg⟩] } : State V H).arm a b = s.arm a b := by
    simp [State.arm, State.chan, State.waiting, hq]
  have harm₂ : ({ s with
      queue := Function.update s.queue a q
      wire := s.wire ++ [⟨a, b, t.msg⟩] } : State V H).arm b a = s.arm b a := by
    simp [State.arm, State.chan, State.waiting, Function.update_of_ne hpair.ne.symm, hpair.ne]
  constructor
  · rw [harm₁, harm₂]
    exact h.nodup
  · rw [harm₁, harm₂]
    exact h.long
  · rw [harm₁, harm₂]
    exact h.trails_snd
  · rw [harm₁, harm₂]
    exact h.trails_fst
  · refine ⟨fun v t' ht' => h.all.queue v t' ?_, fun p hp => ?_⟩
    · by_cases hv : v = a
      · subst hv
        simp only [Function.update_self] at ht'
        rw [hq]
        exact List.mem_cons_of_mem _ ht'
      · simpa only [Function.update_of_ne hv] using ht'
    · rcases List.mem_append.mp hp with hp | hp
      · exact h.all.wire p hp
      · obtain rfl := List.mem_singleton.mp hp
        exact ⟨.inl ⟨rfl, rfl⟩, hdest⟩

/-- **A storm goes on**: whatever step is taken, unless a new message is originated. -/
theorem Storm.step (h : Storm c a b s) (hpair : Pair peers a b) {e : Event V H}
    (hint : ∀ v m, e ≠ .originate v m) (he : Step peers (Visible c) fifo s e s') :
    Storm c a b s' := by
  cases he with
  | originate v m => exact absurd rfl (hint v m)
  | fresh l₁ p l₂ hw ho hx =>
    rcases (h.all.wire p (by simp [hw])).1 with hp | hp
    · exact h.receive hpair.ne hp hw ho
    · exact (h.symm.receive hpair.symm.ne hp hw ho).symm
  | stale l₁ p l₂ hw ho hx =>
    rcases (h.all.wire p (by simp [hw])).1 with hp | hp
    · exact absurd hx (h.not_visible hp hw ho)
    · exact absurd hx (h.symm.not_visible hp hw ho)
  | transmit v t q hq =>
    rcases (h.all.queue v t (by simp [hq])).1 with rfl | rfl
    · exact h.transmit hpair hq
    · exact (h.symm.transmit hpair.symm hq).symm

/-- In a storm something is in flight or queued. -/
theorem Storm.under_way (h : Storm c a b s) :
    s.wire ≠ [] ∨ s.queue a ≠ [] ∨ s.queue b ≠ [] := by
  by_contra hnone
  push Not at hnone
  obtain ⟨hw, ha, hb⟩ := hnone
  have := h.long
  simp [State.arm, State.chan, State.waiting, hw, ha, hb] at this

/-! ### Bursts -/

/-- After the originations at `a` everything they brought is queued and recorded there. -/
structure Burst (a : V) (tr : List (Event V H)) (s : State V H) : Prop where
  wire : s.wire = []
  queue : ∀ v, v ≠ a → s.queue v = []
  hist : ∀ v, v ≠ a → s.hist v = []
  waiting : s.waiting a = originated tr
  recorded : s.hist a = originated tr
  tasks : ∀ t ∈ s.queue a, t.direct = false ∧ t.msg.dest = none

theorem Run.burst {knows : List H → H → Prop} {order : List (Packet V H) → Packet V H → Prop}
    {s₀ : State V H} {tr : List (Event V H)} (hr : Lts.Run (Step peers knows order) s₀ tr s)
    (hq₀ : s₀.Quiet) (hhist : ∀ v, s₀.hist v = [])
    (horig : ∀ e ∈ tr, ∃ m, m.dest = none ∧ e = .originate a m) : Burst a tr s := by
  induction hr with
  | nil =>
    exact ⟨hq₀.2, fun v _ => hq₀.1 v, fun v _ => hhist v, by simp [State.waiting, hq₀.1 a,
      originated], by simp [hhist a, originated], by simp [hq₀.1 a]⟩
  | @snoc tr s s' e _ he ih =>
    have hs := ih fun e' he' => horig e' (List.mem_append_left _ he')
    obtain ⟨m, hd, rfl⟩ := horig e (by simp)
    cases he with
    | originate =>
      rw [ownTask_of_none hd]
      refine ⟨hs.wire, fun v hv => ?_, fun v hv => ?_, ?_, ?_, fun t ht => ?_⟩
      · rw [State.record_queue_of_ne _ hv, hs.queue v hv]
      · rw [State.record_hist_of_ne _ hv, hs.hist v hv]
      · rw [State.waiting, State.record_queue_self, List.map_append, originated_snoc]
        exact congrArg (· ++ [m.key]) hs.waiting
      · rw [State.record_hist_self, hs.recorded, originated_snoc]
        rfl
      · rw [State.record_queue_self] at ht
        rcases List.mem_append.mp ht with ht | ht
        · exact hs.tasks t ht
        · obtain rfl := List.mem_singleton.mp ht
          exact ⟨rfl, hd⟩

/-- **A burst of more keys than slots is a storm.** -/
theorem Burst.storm {tr : List (Event V H)} (h : Burst a tr s) (hab : a ≠ b)
    (hnd : (originated tr).Nodup) (hlong : c < (originated tr).length) : Storm c a b s := by
  have harm₁ : s.arm a b = originated tr := by simp [State.arm, State.chan, h.wire, h.waiting]
  have harm₂ : s.arm b a = [] := by
    simp [State.arm, State.chan, State.waiting, h.wire, h.queue b hab.symm]
  constructor
  · simpa [harm₁, harm₂] using hnd
  · simpa [harm₁, harm₂] using hlong
  · rw [h.hist b hab.symm]
    exact fun j hj => absurd hj (Nat.not_lt_zero j)
  · rw [harm₁, harm₂, h.recorded, List.nil_append]
    intro j hj _
    rw [List.rtake, Nat.sub_sub_self hj.le]
    exact List.mem_drop_iff_getElem.mpr ⟨0, by omega, by simp⟩
  · refine ⟨fun v t ht => ?_, fun p hp => absurd hp (by simp [h.wire])⟩
    by_cases hv : v = a
    · subst hv
      exact ⟨.inl rfl, h.tasks t ht⟩
    · rw [h.queue v hv] at ht
      exact absurd ht List.not_mem_nil

end Flood
