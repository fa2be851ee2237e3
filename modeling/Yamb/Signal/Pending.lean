import Mathlib.Data.List.Perm.Basic
import Yamb.Lib.Lts
import Yamb.Node.Types

/-!
# The candidates that a Peer takes in

`recvCandidate` applies a candidate at once or parks it in `_pendingCandidates`, which every
`OnSuccess` of a remote description goes through.

* `Incoming`, `InEvent`, `InStep`: a Peer with its observers, and the objects that were received,
  passed to `AddIceCandidate` and deleted;
* `InStep.takes`: what a step does to them;
* `count_of_created`: an object is applied at once, or by each `OnSuccess` from its arrival on;
* **`run_applied_iff`**: every candidate is applied once exactly when one `OnSuccess` follows each
  that is parked.
-/

set_option autoImplicit false

namespace Yamb

/-- An object that `CreateIceCandidate` has made, with its address. -/
structure IceCandidate where
  ptr : ℕ
  candidate : Candidate
deriving DecidableEq

/-- `current`: there is a `current_remote_description()`; `described`: `SetRemoteDescription` has been
called; `observers` are those whose `OnSuccess` is still to come, with their `_iceCandidates`. The last
three list the objects made, passed to `AddIceCandidate`, and deleted from `_pendingCandidates`. -/
structure Incoming where
  current : Bool
  described : Bool
  observers : List (List Candidate)
  pendingCandidates : List IceCandidate
  received : List IceCandidate
  applied : List IceCandidate
  deleted : List IceCandidate

namespace Incoming

def start : Incoming := ⟨false, false, [], [], [], [], []⟩

/-- Both overloads; the one that the PeerManager calls has no candidates. -/
def recvSDP (s : Incoming) (iceCandidates : List Candidate) : Incoming :=
  { s with
    described := true
    observers := s.observers ++ [iceCandidates] }

/-- `create` tells whether `CreateIceCandidate` can parse the candidate. -/
def recvCandidate (create : Candidate → Except String Unit) (s : Incoming) (c : Candidate) :
    Except String Incoming :=
  match create c with
  | .error description => .error ("Can't parse remote candidate: " ++ description)
  | .ok _ =>
    let candidate : IceCandidate := ⟨s.received.length, c⟩
    if s.current then
      .ok { s with
        received := s.received ++ [candidate]
        applied := s.applied ++ [candidate] }
    else
      .ok { s with
        received := s.received ++ [candidate]
        pendingCandidates := s.pendingCandidates ++ [candidate] }

end Incoming

/-- The fields that `OnSuccess` wants a candidate to have. -/
def Candidate.Full (c : Candidate) : Prop := ¬ (c.sdpMLineIndex = -1 ∨ c.sdpMid = "" ∨ c.sdp = "")

instance : DecidablePred Candidate.Full := fun c =>
  inferInstanceAs (Decidable (¬ (c.sdpMLineIndex = -1 ∨ c.sdpMid = "" ∨ c.sdp = "")))

namespace Incoming

/-- The first loop of `OnSuccess`. -/
def recvCandidates (create : Candidate → Except String Unit) (s : Incoming) :
    List Candidate → Except String Incoming
  | [] => .ok s
  | c :: cs =>
    if c.Full then
      match s.recvCandidate create c with
      | .error error => .error error
      | .ok s' => recvCandidates create s' cs
    else recvCandidates create s cs

/-- The second loop leaves `_pendingCandidates` as it is. -/
def onSuccess (create : Candidate → Except String Unit) (s : Incoming)
    (iceCandidates : List Candidate) : Except String Incoming :=
  match s.recvCandidates create iceCandidates with
  | .error error => .error error
  | .ok s' => .ok { s' with
      applied := s'.applied ++ s'.pendingCandidates
      deleted := s'.deleted ++ s'.pendingCandidates }

end Incoming

inductive InEvent
  | recvSDP (iceCandidates : List Candidate)
  | recvCandidate (c : Candidate)
  | setCurrent
  | onSuccess (iceCandidates : List Candidate)
deriving DecidableEq

/-- An exception out of `OnSuccess` ends the process, one out of `recvCandidate` does not. -/
inductive InStep (create : Candidate → Except String Unit) (s : Incoming) :
    InEvent → Incoming → Prop
  | recvSDP (iceCandidates : List Candidate) :
      InStep create s (.recvSDP iceCandidates) (s.recvSDP iceCandidates)
  | recvCandidate {s' : Incoming} (c : Candidate) (h : s.recvCandidate create c = .ok s') :
      InStep create s (.recvCandidate c) s'
  | throw {error : String} (c : Candidate) (h : s.recvCandidate create c = .error error) :
      InStep create s (.recvCandidate c) s
  | setCurrent (h : s.described = true) : InStep create s .setCurrent { s with current := true }
  | onSuccess {s' : Incoming} (l₁ : List (List Candidate)) (iceCandidates : List Candidate)
      (l₂ : List (List Candidate)) (h : s.observers = l₁ ++ iceCandidates :: l₂)
      (hs : { s with observers := l₁ ++ l₂ }.onSuccess create iceCandidates = .ok s') :
      InStep create s (.onSuccess iceCandidates) s'

/-! ### What a step takes in -/

def InEvent.isOnSuccess : InEvent → Bool
  | .onSuccess _ => true
  | _ => false

/-- The valid candidates that an event brings. -/
def InEvent.candidates (create : Candidate → Except String Unit) : InEvent → List Candidate
  | .recvCandidate c => if create c = .ok () then [c] else []
  | .onSuccess cs => cs.filter fun c => c.Full
  | _ => []

/-- The objects made for candidates, from the first free address on. -/
def fresh (n : ℕ) : List Candidate → List IceCandidate
  | [] => []
  | c :: cs => ⟨n, c⟩ :: fresh (n + 1) cs

variable {create : Candidate → Except String Unit} {s s' s₁ s₂ : Incoming} {e : InEvent}
  {tr t₁ t₂ : List InEvent} {o : IceCandidate} {n : ℕ} {cs : List Candidate}

theorem length_fresh : ∀ {n : ℕ} {cs : List Candidate}, (fresh n cs).length = cs.length
  | _, [] => rfl
  | _, _ :: _ => congrArg Nat.succ length_fresh

theorem ptr_of_mem_fresh (h : o ∈ fresh n cs) : n ≤ o.ptr ∧ o.ptr < n + cs.length := by
  induction cs generalizing n with
  | nil => cases h
  | cons c cs ih =>
    rw [List.length_cons]
    rcases List.mem_cons.mp h with rfl | h
    · exact ⟨Nat.le_refl n, Nat.lt_add_of_pos_right (Nat.succ_pos _)⟩
    · have := ih h
      omega

theorem nodup_fresh : (fresh n cs).Nodup := by
  induction cs generalizing n with
  | nil => exact List.nodup_nil
  | cons c cs ih =>
    refine List.nodup_cons.mpr ⟨fun h => ?_, ih⟩
    have := (ptr_of_mem_fresh h).1
    simp only at this
    omega

/-- A step makes objects for its candidates and applies or parks them; `OnSuccess` then applies and
deletes all that are parked. -/
structure Takes (s : Incoming) (e : InEvent) (new : List IceCandidate) (s' : Incoming) : Prop where
  current : s'.current = (s.current || e = .setCurrent)
  received : s'.received = s.received ++ new
  pending : s'.pendingCandidates = s.pendingCandidates ++ if s.current then [] else new
  applied : s'.applied = (s.applied ++ if s.current then new else []) ++
    if e.isOnSuccess then s'.pendingCandidates else []
  deleted : s'.deleted = s.deleted ++ if e.isOnSuccess then s'.pendingCandidates else []

/-- The objects are made and applied or parked. -/
def Incoming.take (s : Incoming) (new : List IceCandidate) : Incoming :=
  { s with
    received := s.received ++ new
    pendingCandidates := s.pendingCandidates ++ if s.current then [] else new
    applied := s.applied ++ if s.current then new else [] }

theorem Incoming.take_nil (s : Incoming) : s.take [] = s := by
  simp [take]

theorem Incoming.take_take (s : Incoming) (l₁ l₂ : List IceCandidate) :
    (s.take l₁).take l₂ = s.take (l₁ ++ l₂) := by
  cases hc : s.current <;> simp [take, hc]

theorem recvCandidate_eq {c : Candidate} (h : s.recvCandidate create c = .ok s') :
    create c = .ok () ∧ s' = s.take (fresh s.received.length [c]) := by
  unfold Incoming.recvCandidate at h
  split at h
  · cases h
  · rename_i hc
    refine ⟨hc, ?_⟩
    cases hcur : s.current with
    | true =>
      rw [hcur, if_pos rfl] at h
      cases h
      simp [Incoming.take, fresh, hcur]
    | false =>
      rw [hcur, if_neg Bool.false_ne_true] at h
      cases h
      simp [Incoming.take, fresh, hcur]

theorem recvCandidates_eq (h : s.recvCandidates create cs = .ok s') :
    s' = s.take (fresh s.received.length (cs.filter fun c => c.Full)) := by
  induction cs generalizing s with
  | nil =>
    cases h
    exact (Incoming.take_nil _).symm
  | cons c cs ih =>
    unfold Incoming.recvCandidates at h
    split_ifs at h with hc
    · rw [List.filter_cons_of_pos (by simpa using hc)]
      split at h
      · cases h
      · rename_i s₁ h₁
        obtain ⟨-, rfl⟩ := recvCandidate_eq h₁
        rw [ih h, Incoming.take_take]
        simp [Incoming.take, fresh]
    · rw [List.filter_cons_of_neg (by simpa using hc)]
      exact ih h

/-- **What a step takes in.** -/
theorem InStep.takes (h : InStep create s e s') :
    Takes s e (fresh s.received.length (e.candidates create)) s' := by
  cases h with
  | recvSDP cs =>
    constructor <;> simp [Incoming.recvSDP, InEvent.candidates, InEvent.isOnSuccess, fresh]
  | recvCandidate c h =>
    obtain ⟨hc, rfl⟩ := recvCandidate_eq h
    rw [InEvent.candidates, if_pos hc]
    constructor <;> simp [Incoming.take, InEvent.isOnSuccess]
  | throw c h =>
    have hc : create c ≠ .ok () := by
      intro hc
      simp [Incoming.recvCandidate, hc] at h
      split_ifs at h
    rw [InEvent.candidates, if_neg hc]
    constructor <;> simp [InEvent.isOnSuccess, fresh]
  | setCurrent h =>
    constructor <;> simp [InEvent.candidates, InEvent.isOnSuccess, fresh]
  | onSuccess l₁ cs l₂ h hs =>
    unfold Incoming.onSuccess at hs
    split at hs
    · cases hs
    · rename_i s₁ h₁
      cases hs
      rw [recvCandidates_eq h₁]
      constructor <;> simp [Incoming.take, InEvent.candidates, InEvent.isOnSuccess]

/-! ### How often an object is applied -/

/-- Every object comes from `CreateIceCandidate`, which makes each at an address of its own. -/
structure Incoming.Known (s : Incoming) : Prop where
  ptr : ∀ o ∈ s.received, o.ptr < s.received.length
  nodup : s.received.Nodup
  pending : s.pendingCandidates ⊆ s.received
  applied : s.applied ⊆ s.received
  deleted : s.deleted ⊆ s.received

theorem InStep.known (h : InStep create s e s') (hs : s.Known) : s'.Known := by
  have ht := h.takes
  have hfresh {o : IceCandidate} (ho : o ∈ fresh s.received.length (e.candidates create)) :=
    ptr_of_mem_fresh ho
  have hpend : s'.pendingCandidates ⊆ s'.received := by
    rw [ht.pending, ht.received]
    refine List.append_subset.mpr ⟨fun o ho => List.mem_append_left _ (hs.pending ho), ?_⟩
    split_ifs
    · exact List.nil_subset _
    · exact List.subset_append_right _ _
  have hflush : (if e.isOnSuccess then s'.pendingCandidates else []) ⊆ s'.received := by
    split_ifs
    · exact hpend
    · exact List.nil_subset _
  refine ⟨fun o ho => ?_, ?_, hpend, ?_, ?_⟩
  · rw [ht.received, List.length_append, length_fresh]
    rcases List.mem_append.mp (ht.received ▸ ho) with ho | ho
    · exact Nat.lt_add_right _ (hs.ptr o ho)
    · exact (hfresh ho).2
  · rw [ht.received]
    refine List.nodup_append.mpr ⟨hs.nodup, nodup_fresh, fun o ho o' ho' he => ?_⟩
    have h₁ := hs.ptr o ho
    have h₂ := (hfresh ho').1
    rw [he] at h₁
    omega
  · rw [ht.applied]
    refine List.append_subset.mpr ⟨List.append_subset.mpr ⟨fun o ho => ?_, ?_⟩, hflush⟩
    · exact ht.received ▸ List.mem_append_left _ (hs.applied ho)
    · rw [ht.received]
      split_ifs
      · exact List.subset_append_right _ _
      · exact List.nil_subset _
  · rw [ht.deleted]
    refine List.append_subset.mpr ⟨fun o ho => ?_, hflush⟩
    exact ht.received ▸ List.mem_append_left _ (hs.deleted ho)

/-- The flushes in a trace. -/
def flushes (tr : List InEvent) : ℕ := tr.countP InEvent.isOnSuccess

/-- From its arrival on, an object that is parked is applied and deleted by each `OnSuccess`. -/
structure Flushed (s : Incoming) (o : IceCandidate) (k : ℕ) (s' : Incoming) : Prop where
  pending : s'.pendingCandidates.count o = s.pendingCandidates.count o
  applied : s'.applied.count o = s.applied.count o + k * s.pendingCandidates.count o
  deleted : s'.deleted.count o = s.deleted.count o + k * s.pendingCandidates.count o

theorem InStep.flushed (h : InStep create s e s') (ho : o.ptr < s.received.length) :
    Flushed s o (flushes [e]) s' := by
  have ht := h.takes
  have hn : (fresh s.received.length (e.candidates create)).count o = 0 :=
    List.count_eq_zero.mpr fun hm => by
      have := (ptr_of_mem_fresh hm).1
      omega
  have hpend : s'.pendingCandidates.count o = s.pendingCandidates.count o := by
    rw [ht.pending, List.count_append]
    split_ifs <;> simp [hn]
  refine ⟨hpend, ?_, ?_⟩
  · rw [ht.applied, List.count_append, List.count_append]
    cases s.current <;> cases he : e.isOnSuccess <;> simp [flushes, he, hn, hpend]
  · rw [ht.deleted, List.count_append]
    cases he : e.isOnSuccess <;> simp [flushes, he, hpend]

theorem run_flushed (h : Lts.Run (InStep create) s tr s') (hs : s.Known) (ho : o ∈ s.received) :
    Flushed s o (flushes tr) s' ∧ o ∈ s'.received ∧ s'.Known := by
  induction h with
  | nil => exact ⟨⟨rfl, by simp [flushes], by simp [flushes]⟩, ho, hs⟩
  | @snoc tr s₁ s₂ e _ he ih =>
    obtain ⟨hf, ho₁, hs₁⟩ := ih
    have hf' := he.flushed (hs₁.ptr o ho₁)
    have hk : flushes (tr ++ [e]) = flushes tr + flushes [e] := List.countP_append ..
    refine ⟨⟨hf'.pending.trans hf.pending, ?_, ?_⟩, ?_, he.known hs₁⟩
    · rw [hf'.applied, hf.applied, hf.pending, hk, Nat.add_mul, Nat.add_assoc]
    · rw [hf'.deleted, hf.deleted, hf.pending, hk, Nat.add_mul, Nat.add_assoc]
    · exact he.takes.received ▸ List.mem_append_left _ ho₁

theorem run_known (h : Lts.Run (InStep create) .start tr s) : s.Known :=
  h.invariant ⟨nofun, List.nodup_nil, nofun, nofun, nofun⟩ fun _ _ _ hs he => he.known hs

theorem run_current (h : Lts.Run (InStep create) .start tr s) :
    s.current = true ↔ .setCurrent ∈ tr := by
  refine h.trace_invariant (I := fun tr s => s.current = true ↔ .setCurrent ∈ tr)
    (by simp [Incoming.start]) fun tr s e s' hs he => ?_
  rw [he.takes.current, Bool.or_eq_true, hs, List.mem_append, List.mem_singleton, decide_eq_true_iff]
  exact or_congr .rfl eq_comm

/-- An object that is made in a step is applied then, or by every `OnSuccess` from that step on. -/
theorem count_of_created (h₁ : Lts.Run (InStep create) .start t₁ s₁) (he : InStep create s₁ e s₂)
    (h₂ : Lts.Run (InStep create) s₂ t₂ s)
    (ho : o ∈ fresh s₁.received.length (e.candidates create)) : o ∈ s.received ∧
      (.setCurrent ∈ t₁ → s.applied.count o = 1 ∧ s.deleted.count o = 0) ∧
      (.setCurrent ∉ t₁ → s.applied.count o = flushes (e :: t₂) ∧
        s.deleted.count o = flushes (e :: t₂)) := by
  have hs₁ := run_known h₁
  have ht := he.takes
  have hn : o ∉ s₁.received := fun hm => by
    have h₁ := hs₁.ptr o hm
    have h₂ := (ptr_of_mem_fresh ho).1
    omega
  have hone := List.count_eq_one_of_mem nodup_fresh ho
  have hp : s₁.pendingCandidates.count o = 0 := List.count_eq_zero.mpr fun hm => hn (hs₁.pending hm)
  have ha : s₁.applied.count o = 0 := List.count_eq_zero.mpr fun hm => hn (hs₁.applied hm)
  have hd : s₁.deleted.count o = 0 := List.count_eq_zero.mpr fun hm => hn (hs₁.deleted hm)
  have ho₂ : o ∈ s₂.received := ht.received ▸ List.mem_append_right _ ho
  obtain ⟨hf, hm, -⟩ := run_flushed h₂ (he.known hs₁) ho₂
  have hk : flushes (e :: t₂) = flushes t₂ + if e.isOnSuccess then 1 else 0 := List.countP_cons
  have hpend : s₂.pendingCandidates.count o = if s₁.current then 0 else 1 := by
    rw [ht.pending, List.count_append, hp]
    cases s₁.current <;> simp [hone]
  have happ : s₂.applied.count o =
      if s₁.current then 1 else if e.isOnSuccess then 1 else 0 := by
    rw [ht.applied, List.count_append, List.count_append, ha]
    cases hc : s₁.current <;> cases e.isOnSuccess <;> simp [hone, hpend, hc]
  have hdel : s₂.deleted.count o = if s₁.current then 0 else if e.isOnSuccess then 1 else 0 := by
    rw [ht.deleted, List.count_append, hd]
    cases hc : s₁.current <;> cases e.isOnSuccess <;> simp [hpend, hc]
  refine ⟨hm, fun hcur => ?_, fun hcur => ?_⟩
  · have hc := (run_current h₁).mpr hcur
    rw [hf.applied, hf.deleted, hpend, happ, hdel, hc]
    simp
  · have hc : s₁.current = false := by simpa using mt (run_current h₁).mp hcur
    rw [hf.applied, hf.deleted, hpend, happ, hdel, hc, hk]
    simp [Nat.add_comm]

/-- Every object was made in some step. -/
theorem exists_created (h : Lts.Run (InStep create) .start tr s) (ho : o ∈ s.received) :
    ∃ t₁ e t₂ s₁ s₂, tr = t₁ ++ e :: t₂ ∧ Lts.Run (InStep create) .start t₁ s₁ ∧
      InStep create s₁ e s₂ ∧ Lts.Run (InStep create) s₂ t₂ s ∧
      o ∈ fresh s₁.received.length (e.candidates create) := by
  induction h with
  | nil => cases ho
  | @snoc tr s s' e hr he ih =>
    rcases List.mem_append.mp (he.takes.received ▸ ho) with ho | ho
    · obtain ⟨t₁, e', t₂, s₁, s₂, rfl, h₁, he', h₂, hf⟩ := ih ho
      exact ⟨t₁, e', t₂ ++ [e], s₁, s₂, by simp, h₁, he', h₂.snoc he, hf⟩
    · exact ⟨tr, e, [], s, s', rfl, hr, he, .nil, ho⟩

/-- **Every candidate is applied once, and no parked object is deleted twice, if and only if** exactly
one `OnSuccess` runs from the arrival of each candidate that is parked on. -/
theorem run_applied_iff (h : Lts.Run (InStep create) .start tr s) :
    s.applied.Perm s.received ∧ s.deleted.Nodup ↔ ∀ t₁ e t₂, tr = t₁ ++ e :: t₂ →
      .setCurrent ∉ t₁ → e.candidates create ≠ [] → flushes (e :: t₂) = 1 := by
  have hs := run_known h
  constructor
  · rintro ⟨hperm, -⟩ t₁ e t₂ rfl hcur hne
    obtain ⟨s₁, s₂, h₁, he, h₂⟩ := h.split
    obtain ⟨o, ho⟩ : ∃ o, o ∈ fresh s₁.received.length (e.candidates create) := by
      refine List.exists_mem_of_length_pos ?_
      rw [length_fresh]
      exact List.length_pos_iff.mpr hne
    obtain ⟨hm, -, hcount⟩ := count_of_created h₁ he h₂ ho
    rw [← (hcount hcur).1, hperm.count_eq]
    exact List.count_eq_one_of_mem hs.nodup hm
  · intro hone
    have hcount {o : IceCandidate} (ho : o ∈ s.received) :
        s.applied.count o = 1 ∧ s.deleted.count o ≤ 1 := by
      obtain ⟨t₁, e, t₂, s₁, s₂, rfl, h₁, he, h₂, hf⟩ := exists_created h ho
      obtain ⟨-, hnow, hlater⟩ := count_of_created h₁ he h₂ hf
      by_cases hcur : .setCurrent ∈ t₁
      · exact ⟨(hnow hcur).1, (hnow hcur).2.trans_le (Nat.zero_le 1)⟩
      · have hne : e.candidates create ≠ [] := by
          intro hnil
          rw [hnil] at hf
          cases hf
        have hk := hone t₁ e t₂ rfl hcur hne
        obtain ⟨ha, hd⟩ := hlater hcur
        exact ⟨by omega, by omega⟩
    constructor
    · rw [List.perm_iff_count]
      intro o
      by_cases ho : o ∈ s.received
      · rw [(hcount ho).1, List.count_eq_one_of_mem hs.nodup ho]
      · rw [List.count_eq_zero.mpr ho, List.count_eq_zero.mpr fun hm => ho (hs.applied hm)]
    · rw [List.nodup_iff_count_le_one]
      intro o
      by_cases ho : o ∈ s.received
      · exact (hcount ho).2
      · rw [List.count_eq_zero.mpr fun hm => ho (hs.deleted hm)]
        exact Nat.zero_le 1

/-- Every remote description has had its `OnSuccess` and is current. -/
def Incoming.Settled (s : Incoming) : Prop :=
  s.observers = [] ∧ s.described = true ∧ s.current = true

/-- A candidate that arrives after its description, and one that arrives when that is current. -/
def earlyAndLate : List InEvent :=
  [.recvSDP [], .recvCandidate ⟨"data", 0, "candidate:1"⟩, .onSuccess [], .setCurrent,
    .recvCandidate ⟨"data", 0, "candidate:2"⟩]

theorem run_applied_iff_earlyAndLate : ∃ s, Lts.Run (InStep fun _ => .ok ()) .start earlyAndLate s ∧
    s.received.length = 2 ∧ ∀ t₁ e t₂, earlyAndLate = t₁ ++ e :: t₂ → .setCurrent ∉ t₁ →
      e.candidates (fun _ => .ok ()) ≠ [] → flushes (e :: t₂) = 1 := by
  have hrun : Lts.Run (InStep fun _ => .ok ()) .start earlyAndLate _ :=
    ((((Lts.Run.single (.recvSDP [])).snoc (.recvCandidate _ rfl)).snoc
      (.onSuccess [] [] [] rfl rfl)).snoc (.setCurrent rfl)).snoc (.recvCandidate _ rfl)
  exact ⟨_, hrun, rfl, (run_applied_iff hrun).mp (by decide)⟩

/-- The second description goes through the candidates of the first again. -/
def renegotiation : List InEvent :=
  [.recvSDP [], .recvCandidate ⟨"data", 0, "candidate:1"⟩, .onSuccess [], .setCurrent, .recvSDP [],
    .onSuccess []]

theorem not_applied_once : ¬ ∀ create tr s, Lts.Run (InStep create) .start tr s → s.Settled →
    s.applied.Perm s.received ∧ s.deleted.Nodup := by
  intro h
  have hrun : Lts.Run (InStep fun _ => .ok ()) .start renegotiation _ :=
    (((((Lts.Run.single (.recvSDP [])).snoc (.recvCandidate _ rfl)).snoc
      (.onSuccess [] [] [] rfl rfl)).snoc (.setCurrent rfl)).snoc (.recvSDP [])).snoc
      (.onSuccess [] [] [] rfl rfl)
  exact absurd (h _ _ _ hrun ⟨rfl, rfl, rfl⟩) (by decide)

end Yamb
