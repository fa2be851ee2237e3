import Yamb.Lib.Flood.Causal
import Yamb.Overlay.Addressed
import Yamb.Overlay.Termination

/-!
# Broadcasts arrive in causal order

* `Overlay.Cause`: a broadcast that a node had made or been given when it made a call;
* `called_of_cause`: at every node the callbacks have been run for the cause first;
* `Overlay.Cause.trans`, **`broadcast2Room_causal`**: so it is along every chain of causes, over
  channels that keep the order, whatever the windows forget;
* `answered_causal`: an answer to a broadcast, at a third node.
-/

set_option autoImplicit false

namespace Yamb

open BlindWindow (Visible)

variable {O : Overlay} {N₀ N : Net} {H : PeerId → List Hash} {tr t₁ t₂ : List NetEvent}

/-- The broadcast `m₁` was called by the node that called `m₂`, or its callbacks were run there,
before `m₂` was called. -/
def Overlay.Cause (O : Overlay) (tr : List NetEvent) (m₁ m₂ : Msg) : Prop :=
  m₁.to' = none ∧ ∃ t₁ u v t₂, tr = t₁ ++ .call v m₂ :: t₂ ∧ NetEvent.call u m₁ ∈ t₁ ∧
    (u = v ∨ 0 < O.called v m₁.hash t₁)

/-- A call is made once. -/
theorem Overlay.Distinct.call_not_mem {v : PeerId} {m : Msg}
    (hd : O.Distinct H (t₁ ++ .call v m :: t₂)) :
    NetEvent.call v m ∉ t₁ ∧ NetEvent.call v m ∉ t₂ := by
  have hmem : ∀ {t}, NetEvent.call v m ∈ t → m.hash ∈ hashes t :=
    fun h => List.mem_filterMap.mpr ⟨_, h, rfl⟩
  have hnd := hd.nodup
  rw [hashes_append, List.nodup_append] at hnd
  obtain ⟨-, hnd₂, hdisj⟩ := hnd
  have hcons : hashes (.call v m :: t₂) = m.hash :: hashes t₂ := rfl
  rw [hcons] at hnd₂ hdisj
  exact ⟨fun h => hdisj _ (hmem h) _ List.mem_cons_self rfl,
    fun h => (List.nodup_cons.mp hnd₂).1 (hmem h)⟩

/-- The key of a broadcast is flooded. -/
theorem originatesTo_none {tr' : List (Flood.Event PeerId Hash)} (hm : List.Forall₂ O.Matches tr tr')
    (hd : O.Distinct H tr) {u : PeerId} {m : Msg} (hcall : NetEvent.call u m ∈ tr)
    (hto : m.to' = none) : Flood.OriginatesTo m.hash none tr' := by
  intro x m' hx hk
  obtain ⟨m', hm', rfl⟩ := exists_call hm hx
  obtain ⟨-, rfl⟩ := hd.unique hm' hcall hk
  exact hto

/-- **A cause is delivered first**, when its effect was called before the delivery. -/
theorem called_of_known (h₀ : O.Formed N₀ H) (hq₀ : O.Quiet N₀) {u v w : PeerId} {m₁ m₂ : Msg}
    (hr : Lts.Run (O.Step fifo) N₀ (t₁ ++ .call v m₂ :: t₂) N)
    (hd : O.Distinct H (t₁ ++ .call v m₂ :: t₂)) (hto : m₁.to' = none)
    (hcall : NetEvent.call u m₁ ∈ t₁) (hknown : u = v ∨ 0 < O.called v m₁.hash t₁) {p : Packet}
    {c : Except Fault (Option (List Callback))} {N' : Net} (he : O.Step fifo N (.receive p c) N')
    (hdel : O.isCall w m₂.hash (.receive p c) = true) :
    u = w ∨ 0 < O.called w m₁.hash (t₁ ++ .call v m₂ :: t₂) := by
  obtain ⟨tr', s, hrun, hsim, hm⟩ := hr.simulate (h₀.sim hq₀) fun _ _ _ _ hs he =>
    sim_step fifo_toFlood hs he
  obtain ⟨e', s', hrcv, hstep, -⟩ := sim_step fifo_toFlood hsim he
  have hcall₁ : NetEvent.call u m₁ ∈ t₁ ++ .call v m₂ :: t₂ := List.mem_append_left _ hcall
  have hcall₂ : NetEvent.call v m₂ ∈ t₁ ++ .call v m₂ :: t₂ := by simp
  have hnew : ∀ {x m}, NetEvent.call x m ∈ t₁ ++ .call v m₂ :: t₂ →
      ∀ y, m.hash ∉ (O.start H).hist y :=
    fun hx => hd.new_start (List.mem_filterMap.mpr ⟨_, hx, rfl⟩)
  have hkeys : (Flood.originated tr').Nodup := originated_eq hm ▸ hd.nodup
  have hf := originatesTo_none hm hd hcall₁ hto
  have hdest : ∀ q b, Flood.Event.receive q b ∈ tr' → q.msg.key = m₁.hash → q.msg.dest = none :=
    fun q b hq hk => Flood.Run.dest_eq hrun (start_quiet O H) hf hq hk
  obtain ⟨r₁, e₁, r₂, rfl, hm₁, hown, hm₂⟩ := Lts.forall₂_split hm
  cases hown
  have hi : 0 < Flood.own v m₁.hash r₁ + Flood.freshAt v m₁.hash r₁ := by
    rcases hknown with rfl | hknown
    · exact Nat.add_pos_left (Flood.own_pos (mem_originate hm₁ hcall)) _
    · refine Nat.add_pos_right _ ?_
      rwa [← called_eq_freshAt hm₁ (fun q b hq => hdest q b (List.mem_append_left _ hq)) (.inl rfl)]
  cases hrcv with
  | stale => simp [Overlay.isCall] at hdel
  | fresh p =>
    rw [isCall_fresh, decide_eq_true_eq] at hdel
    obtain ⟨rfl, hk, -⟩ := hdel
    have hord := Flood.Run.causal O.nodup (fun _ _ => Visible.mem) hrun (start_quiet O H) hkeys
      (hnew hcall₁) (hnew hcall₂) hf hi
    -- the delivery finds the cause in the history
    have hmem : m₁.hash ∈ s.hist p.dst := by
      have hspread := Flood.Run.spread O.nodup (fun _ _ => Visible.mem) hrun (start_quiet O H) hf
        (hnew hcall₁)
      have hbefore := (hord.step hspread (fun _ _ => Visible.mem) hstep
        (fun _ _ he => by cases he)).hist p.dst
      cases hstep with
      | fresh l₁ _ l₂ hw ho hx =>
        refine hbefore (s.hist p.dst) [] ?_
        rw [Msg.toFlood_key, ← hk]
        exact Flood.State.record_hist_self _ _ _ _
    have hcount := Flood.Run.hist_count hrun p.dst m₁.hash
    rw [List.count_eq_zero_of_not_mem (hnew hcall₁ p.dst), Nat.zero_add] at hcount
    have hpos := List.count_pos_iff.mpr hmem
    rw [called_eq_freshAt hm hdest (.inl rfl)]
    rcases Nat.eq_zero_or_pos (Flood.own p.dst m₁.hash (r₁ ++ .originate v m₂.toFlood :: r₂))
      with hzero | howned
    · exact .inr (by omega)
    · obtain ⟨e, he, hown⟩ := List.countP_pos_iff.mp howned
      cases e with
      | originate x m =>
        obtain ⟨rfl, hkey⟩ := of_decide_eq_true hown
        obtain ⟨m', hm', rfl⟩ := exists_call hm he
        exact .inl (hd.unique hm' hcall₁ hkey).1.symm
      | receive | transmit => cases hown

/-- **Callbacks are run for a cause before they are run for its effect.** -/
theorem called_of_cause (h₀ : O.Formed N₀ H) (hq₀ : O.Quiet N₀)
    (hr : Lts.Run (O.Step fifo) N₀ tr N) (hd : O.Distinct H tr) {u w : PeerId} {m₁ m₂ : Msg}
    (hc : O.Cause tr m₁ m₂) (hcall : NetEvent.call u m₁ ∈ tr) {p : Packet}
    {c : Except Fault (Option (List Callback))} (ht : tr = t₁ ++ .receive p c :: t₂)
    (hdel : O.isCall w m₂.hash (.receive p c) = true) : u = w ∨ 0 < O.called w m₁.hash t₁ := by
  obtain ⟨hto, r₁, u', v, r₂, htr, hcall', hknown⟩ := hc
  have hcall₁ : NetEvent.call u' m₁ ∈ tr := htr ▸ List.mem_append_left _ hcall'
  obtain rfl := (hd.unique hcall hcall₁ rfl).1
  rw [ht] at hr hd
  obtain ⟨N₁, N₂, hr₁, he, -⟩ := hr.split
  -- the effect was called before it was delivered
  have hmem : NetEvent.call v m₂ ∈ t₁ := by
    obtain ⟨-, x, m, hx, hhash, -⟩ := call_of_mem_wire h₀ hq₀ hr₁ (mem_wire_of_receive he)
    unfold Overlay.isCall at hdel
    obtain ⟨-, hk, -⟩ := of_decide_eq_true hdel
    have hv : NetEvent.call v m₂ ∈ t₁ ++ .receive p c :: t₂ := by
      rw [← ht, htr]
      simp
    obtain ⟨rfl, rfl⟩ := hd.unique (List.mem_append_left _ hx) hv (hhash.trans hk)
    exact hx
  obtain ⟨a, b, rfl⟩ := List.append_of_mem hmem
  have hd₁ := hd.of_append
  rw [List.append_assoc, List.cons_append] at ht hd
  obtain ⟨hnot, hnot'⟩ := hd.call_not_mem
  obtain ⟨rfl, -, -⟩ := (List.append_cons_inj_of_notMem hnot hnot').mp (ht.symm.trans htr)
  exact called_of_known h₀ hq₀ hr₁ hd₁ hto hcall' hknown he hdel

theorem called_pos_append (O : Overlay) (v : PeerId) (h : Hash) (t₂ : List NetEvent)
    (hpos : 0 < O.called v h t₁) : 0 < O.called v h (t₁ ++ t₂) := by
  rw [called_append]
  omega

/-- **Causes of causes are causes.** -/
theorem Overlay.Cause.trans {m₁ m₂ m₃ : Msg} (h : O.Cause tr m₁ m₂) (h' : O.Cause tr m₂ m₃)
    (h₀ : O.Formed N₀ H) (hq₀ : O.Quiet N₀) (hr : Lts.Run (O.Step fifo) N₀ tr N)
    (hd : O.Distinct H tr) : O.Cause tr m₁ m₃ := by
  have hcause := h
  obtain ⟨hto, r₁, u, v, r₂, htr, hcall, hknown⟩ := h
  obtain ⟨-, t₁, u', v', t₂, ht, hcall', hknown'⟩ := h'
  have hcall₁ : NetEvent.call u m₁ ∈ tr := htr ▸ List.mem_append_left _ hcall
  have hcall₂ : NetEvent.call v m₂ ∈ tr := by simp [htr]
  obtain rfl := (hd.unique hcall₂ (ht ▸ List.mem_append_left _ hcall') rfl).1
  obtain ⟨a, b, rfl⟩ := List.append_of_mem hcall'
  have hsplit := ht
  rw [List.append_assoc, List.cons_append] at hsplit
  obtain ⟨hnot, hnot'⟩ := (htr ▸ hd).call_not_mem
  obtain ⟨rfl, -, -⟩ := (List.append_cons_inj_of_notMem hnot hnot').mp (htr.symm.trans hsplit)
  refine ⟨hto, _, u, v', t₂, ht, List.mem_append_left _ hcall, ?_⟩
  rcases hknown' with rfl | hpos
  · exact hknown.imp id (called_pos_append O _ _ _)
  · obtain ⟨e, he, hdel⟩ := List.countP_pos_iff.mp hpos
    cases e with
    | call | iterate => cases hdel
    | receive p c =>
      obtain ⟨x, y, hxy⟩ := List.append_of_mem he
      have hrcv : tr = x ++ .receive p c :: (y ++ .call v' m₃ :: t₂) := by
        rw [ht, hxy, List.append_assoc, List.cons_append]
      rw [hxy]
      exact (called_of_cause h₀ hq₀ hr hd hcause hcall₁ hrcv hdel).imp id
        (called_pos_append O _ _ _)

/-- **Causal order**: whatever a window forgets, the callbacks of a node are not run for a message
before they have been run for every broadcast of another node that it goes back to. -/
theorem broadcast2Room_causal (h₀ : O.Formed N₀ H) (hq₀ : O.Quiet N₀)
    (hr : Lts.Run (O.Step fifo) N₀ tr N) (hd : O.Distinct H tr) {u w : PeerId} {m₁ m₂ : Msg}
    (hc : Relation.TransGen (O.Cause tr) m₁ m₂) (hcall : NetEvent.call u m₁ ∈ tr) {p : Packet}
    {c : Except Fault (Option (List Callback))} (ht : tr = t₁ ++ .receive p c :: t₂)
    (hdel : O.isCall w m₂.hash (.receive p c) = true) : u = w ∨ 0 < O.called w m₁.hash t₁ := by
  have hcause : O.Cause tr m₁ m₂ := by
    clear hdel
    induction hc with
    | single h => exact h
    | tail _ h ih => exact ih.trans h h₀ hq₀ hr hd
  exact called_of_cause h₀ hq₀ hr hd hcause hcall ht hdel

/-! ### An answer -/

/-- A broadcast of the first node, an answer of the second one, and both at the third. -/
def answered : List Command :=
  [.broadcast2Room "ar" "hi" 1, .iterate "ar", .deliver 2, .broadcast2Room "br" "hello" 3,
    .iterate "br", .iterate "br", .deliver 4, .deliver 5, .deliver 6, .deliver 7]

theorem answered_isSome : (path.execAll pathNet answered).isSome = true := by decide

def answeredRun : List NetEvent × Net := (path.execAll pathNet answered).get answered_isSome

def question : Msg := (pathNet.nodes "ar").formMessage "hi" .logic "r" 1

def answer : Msg := (pathNet.nodes "br").formMessage "hello" .logic "r" 3

theorem answered_causal : 0 < path.called "cr" question.hash answeredRun.1.dropLast := by
  have hcause : path.Cause answeredRun.1 question answer :=
    ⟨rfl, answeredRun.1.take 3, "ar", "br", answeredRun.1.drop 4, by decide, by decide, by decide⟩
  have hsplit : answeredRun.1 = answeredRun.1.dropLast ++
    [.receive ⟨"br", "cr", answer⟩ (.ok (some [1]))] := by decide
  exact (broadcast2Room_causal (u := "ar") path_formed (by decide) (Overlay.run_get answered_isSome)
    ⟨by decide, by decide⟩ (.single hcause) (by decide) hsplit (by decide)).resolve_left (by decide)

end Yamb
