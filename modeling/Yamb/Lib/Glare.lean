import Yamb.Lib.Lts
import Mathlib.Logic.Function.Basic

/-!
# Two ends that may both offer

Two ends negotiate one connection. An end that learns of the other's presence, and has no role yet,
offers if it is the one to offer, and sends its own presence back if not. An offer makes an end
without a role the answering one; an end that has offered ignores it. Offers and answers are asked
for first and posted later; messages may overtake one another.

* `Side`, `Role`, `Signal`, `End`, `State`, `Event`, `Step`: the negotiation, over who is to offer;
* `Agreed`: the invariant when exactly one end is to offer;
* **`run_agreed`**, **`Agreed.settled`**: there are never two offering ends, and what has started and
  is settled has one offering and one answering end.
-/

set_option autoImplicit false

namespace Glare

inductive Side
  | left | right
  deriving DecidableEq

def Side.other : Side → Side
  | .left => .right
  | .right => .left

@[simp] theorem Side.other_other (x : Side) : x.other.other = x := by cases x <;> rfl

@[simp] theorem Side.other_ne (x : Side) : x.other ≠ x := by cases x <;> simp [other]

@[simp] theorem Side.ne_other (x : Side) : x ≠ x.other := (other_ne x).symm

theorem Side.eq_or_eq_other (x y : Side) : y = x ∨ y = x.other := by
  cases x <;> cases y <;> simp [other]

inductive Role
  | offer | answer
  deriving DecidableEq

inductive Signal
  | presence | offer | answer
  deriving DecidableEq

def Role.signal : Role → Signal
  | .offer => .offer
  | .answer => .answer

/-- One end: its role, and the descriptions it has asked for. -/
structure End where
  role : Option Role
  pending : List Role

/-- `wire` lists the messages in flight with the side they go to. -/
structure State where
  ends : Side → End
  wire : List (Side × Signal)
  seen : Side → Bool

inductive Event
  | announce (x : Side)
  | deliver (x : Side) (m : Signal)
  | create (x : Side) (role : Role)

/-- What an end becomes on a signal, and what it sends back. -/
def End.take (offers : Bool) (e : End) : Signal → End × List Signal
  | .presence =>
    match e.role with
    | none => if offers then (⟨some .offer, e.pending ++ [.offer]⟩, []) else (e, [.presence])
    | some _ => (e, [])
  | .offer =>
    match e.role with
    | some .offer => (e, [])
    | _ => (⟨some .answer, e.pending ++ [.answer]⟩, [])
  | .answer => (e, [])

inductive Step (offers : Side → Bool) (s : State) : Event → State → Prop
  | announce (x : Side) :
      Step offers s (.announce x) { s with wire := s.wire ++ [(x.other, .presence)] }
  | deliver (l₁ : List (Side × Signal)) (x : Side) (m : Signal) (l₂ : List (Side × Signal))
      (hw : s.wire = l₁ ++ (x, m) :: l₂) : Step offers s (.deliver x m)
        { ends := Function.update s.ends x ((s.ends x).take (offers x) m).1
          wire := l₁ ++ l₂ ++ ((s.ends x).take (offers x) m).2.map (Prod.mk x.other)
          seen := if m = .presence then Function.update s.seen x true else s.seen }
  | create (x : Side) (role : Role) (rest : List Role)
      (hp : (s.ends x).pending = role :: rest) : Step offers s (.create x role) { s with
        ends := Function.update s.ends x { s.ends x with pending := rest }
        wire := s.wire ++ [(x.other, role.signal)] }

/-- Nothing has happened. -/
def start : State where
  ends := fun _ => ⟨none, []⟩
  wire := []
  seen := fun _ => false

/-- Nothing is in flight and nothing is going to be posted. -/
def State.Settled (s : State) : Prop := s.wire = [] ∧ ∀ x, (s.ends x).pending = []

/-- The invariant when `x` is to offer and the other end is not. -/
structure Agreed (x : Side) (s : State) : Prop where
  not_answer : (s.ends x).role ≠ some .answer
  not_offer : (s.ends x.other).role ≠ some .offer
  not_pending : .offer ∉ (s.ends x.other).pending
  not_wire : (x, .offer) ∉ s.wire
  answered : (s.ends x).role = some .offer → .offer ∈ (s.ends x).pending ∨
    (x.other, .offer) ∈ s.wire ∨ (s.ends x.other).role = some .answer
  offered : (s.ends x.other).role = some .answer ∨ (x.other, .offer) ∈ s.wire ∨
    .offer ∈ (s.ends x).pending → (s.ends x).role = some .offer
  seen_self : s.seen x = true → (s.ends x).role = some .offer
  seen_other : s.seen x.other = true → (x, .presence) ∈ s.wire ∨ (s.ends x).role = some .offer

theorem agreed_start (x : Side) : Agreed x start where
  not_answer := by simp [start]
  not_offer := by simp [start]
  not_pending := by simp [start]
  not_wire := by simp [start]
  answered := by simp [start]
  offered := by simp [start]
  seen_self := by simp [start]
  seen_other := by simp [start]

theorem Agreed.announce {x : Side} {s : State} (h : Agreed x s) (y : Side) :
    Agreed x { s with wire := s.wire ++ [(y.other, .presence)] } where
  not_answer := h.not_answer
  not_offer := h.not_offer
  not_pending := h.not_pending
  not_wire := by simpa using h.not_wire
  answered := by simpa using h.answered
  offered := by simpa using h.offered
  seen_self := h.seen_self
  seen_other := fun hs => (h.seen_other hs).imp_left fun hm => List.mem_append_left _ hm

theorem Agreed.create {x : Side} {s : State} (h : Agreed x s) {y : Side} {role : Role}
    {rest : List Role} (hp : (s.ends y).pending = role :: rest) : Agreed x { s with
      ends := Function.update s.ends y { s.ends y with pending := rest }
      wire := s.wire ++ [(y.other, role.signal)] } := by
  obtain ⟨h₁, h₂, h₃, h₄, h₅, h₆, h₇, h₈⟩ := h
  rcases Side.eq_or_eq_other x y with rfl | rfl
  · -- what the offering end creates leaves the set of asked offers for the wire
    have hmem : ∀ r, r ∈ (s.ends y).pending ↔ r = role ∨ r ∈ rest := by simp [hp]
    refine ⟨?_, ?_, ?_, ?_, ?_, ?_, ?_, ?_⟩ <;>
      simp only [Function.update_self, ne_eq, Side.other_ne, not_false_eq_true,
        Function.update_of_ne, List.mem_append, List.mem_singleton, Prod.mk.injEq]
    · exact h₁
    · exact h₂
    · exact h₃
    · simpa using h₄
    · intro hr
      cases role with
      | offer => exact .inr (.inl (.inr ⟨trivial, rfl⟩))
      | answer =>
        rcases h₅ hr with hm | hm | hm
        · exact .inl (((hmem _).mp hm).resolve_left Role.noConfusion)
        · exact .inr (.inl (.inl hm))
        · exact .inr (.inr hm)
    · intro hr
      refine h₆ ?_
      rw [hmem]
      cases role with
      | offer => exact .inr (.inr (.inl rfl))
      | answer => simpa [Role.signal] using hr
    · exact h₇
    · exact fun hs => (h₈ hs).imp_left .inl
  · have hrole : role = .answer := by
      cases role with
      | offer => simp [hp] at h₃
      | answer => rfl
    subst hrole
    refine ⟨?_, ?_, ?_, ?_, ?_, ?_, ?_, ?_⟩ <;>
      simp only [Function.update_self, ne_eq, Side.ne_other, not_false_eq_true,
        Function.update_of_ne, List.mem_append, List.mem_singleton, Prod.mk.injEq,
        Side.other_other, Role.signal, reduceCtorEq, and_false, or_false, Side.other_ne]
    · exact h₁
    · exact h₂
    · exact fun hr => h₃ (by simp [hp, hr])
    · exact h₄
    · exact h₅
    · exact h₆
    · exact h₇
    · exact h₈

section Deliver

variable {x : Side} {s : State} {l₁ l₂ : List (Side × Signal)} {m : Signal}

theorem mem_rest {y : Side} (hw : s.wire = l₁ ++ (y, m) :: l₂) {p : Side × Signal}
    (hp : p ∈ s.wire) (hne : p ≠ (y, m)) : p ∈ l₁ ++ l₂ := by
  rw [hw, List.mem_append, List.mem_cons] at hp
  rw [List.mem_append]
  exact hp.imp_right fun hp => hp.resolve_left hne

theorem mem_of_mem_rest {y : Side} (hw : s.wire = l₁ ++ (y, m) :: l₂) {p : Side × Signal}
    (hp : p ∈ l₁ ++ l₂) : p ∈ s.wire := by
  rw [hw, List.mem_append, List.mem_cons]
  exact (List.mem_append.mp hp).imp_right .inr

/-- A signal that leaves the ends as they are, and is no offer. -/
theorem Agreed.drop (h : Agreed x s) {y : Side} (hw : s.wire = l₁ ++ (y, m) :: l₂)
    (hm : m ≠ .offer) (hp : y = x → m = .presence → (s.ends x).role = some .offer)
    (seen : Side → Bool) (hself : seen x = true → (s.ends x).role = some .offer)
    (hother : seen x.other = true →
      s.seen x.other = true ∨ (s.ends x).role = some .offer) :
    Agreed x { ends := s.ends, wire := l₁ ++ l₂, seen := seen } where
  not_answer := h.not_answer
  not_offer := h.not_offer
  not_pending := h.not_pending
  not_wire := fun hc => h.not_wire (mem_of_mem_rest hw hc)
  answered := fun hr => (h.answered hr).imp_right fun ha => ha.imp_left fun hmem =>
    mem_rest hw hmem fun he => hm (congrArg Prod.snd he).symm
  offered := fun ho => h.offered (ho.imp_right fun ho => ho.imp_left (mem_of_mem_rest hw))
  seen_self := hself
  seen_other := fun hs => by
    rcases hother hs with hs | hr
    · rcases h.seen_other hs with hmem | hr
      · by_cases he : (x, Signal.presence) = (y, m)
        · obtain ⟨rfl, rfl⟩ := Prod.mk.inj he
          exact .inr (hp rfl rfl)
        · exact .inl (mem_rest hw hmem he)
      · exact .inr hr
    · exact .inr hr

/-- The end that is to offer learns of the other one. -/
theorem Agreed.offer (h : Agreed x s) (hw : s.wire = l₁ ++ (x, .presence) :: l₂)
    (hr : (s.ends x).role = none) : Agreed x
      { ends := Function.update s.ends x ⟨some .offer, (s.ends x).pending ++ [.offer]⟩
        wire := l₁ ++ l₂
        seen := Function.update s.seen x true } := by
  have hfresh : ¬ ((s.ends x.other).role = some .answer ∨ (x.other, .offer) ∈ s.wire ∨
      .offer ∈ (s.ends x).pending) := by
    intro ho
    have := h.offered ho
    rw [hr] at this
    cases this
  refine ⟨?_, ?_, ?_, fun hc => h.not_wire (mem_of_mem_rest hw hc), ?_, ?_, ?_, ?_⟩ <;>
    simp only [Function.update_self, ne_eq, Side.other_ne, not_false_eq_true, Function.update_of_ne]
  · simp
  · exact h.not_offer
  · exact h.not_pending
  · exact fun _ => .inl (by simp)
  · exact fun _ => trivial
  · exact fun _ => trivial
  · exact fun _ => .inr trivial

/-- The other end takes the offer. -/
theorem Agreed.answer (h : Agreed x s) (hw : s.wire = l₁ ++ (x.other, .offer) :: l₂) :
    Agreed x { s with
      ends := Function.update s.ends x.other
        ⟨some .answer, (s.ends x.other).pending ++ [.answer]⟩
      wire := l₁ ++ l₂ } := by
  have hx : (s.ends x).role = some .offer := h.offered (.inr (.inl (by simp [hw])))
  refine ⟨?_, ?_, ?_, fun hc => h.not_wire (mem_of_mem_rest hw hc), ?_, ?_, ?_, ?_⟩ <;>
    simp only [Function.update_self, ne_eq, Side.ne_other, not_false_eq_true, Function.update_of_ne]
  · exact h.not_answer
  · simp
  · simpa using h.not_pending
  · exact fun _ => .inr (.inr trivial)
  · exact fun _ => hx
  · exact fun _ => hx
  · exact fun _ => .inr hx

/-- The other end, without a role, answers a presence with its own. -/
theorem Agreed.bounce (h : Agreed x s) (hw : s.wire = l₁ ++ (x.other, .presence) :: l₂) :
    Agreed x
      { ends := s.ends
        wire := l₁ ++ l₂ ++ [(x, .presence)]
        seen := Function.update s.seen x.other true } where
  not_answer := h.not_answer
  not_offer := h.not_offer
  not_pending := h.not_pending
  not_wire := fun hc => by
    rcases List.mem_append.mp hc with hc | hc
    · exact h.not_wire (mem_of_mem_rest hw hc)
    · simp at hc
  answered := fun hr => (h.answered hr).imp_right fun ha => ha.imp_left fun hmem =>
    List.mem_append_left _ (mem_rest hw hmem (by simp))
  offered := fun ho => h.offered (ho.imp_right fun ho => ho.imp_left fun hm => by
    rcases List.mem_append.mp hm with hm | hm
    · exact mem_of_mem_rest hw hm
    · simp at hm)
  seen_self := fun hs => h.seen_self (by simpa using hs)
  seen_other := fun _ => .inl (by simp)

/-- What reaches the end that is to offer. -/
theorem Agreed.deliver_self (h : Agreed x s) (hw : s.wire = l₁ ++ (x, m) :: l₂) :
    Agreed x
      { ends := Function.update s.ends x ((s.ends x).take true m).1
        wire := l₁ ++ l₂ ++ ((s.ends x).take true m).2.map (Prod.mk x.other)
        seen := if m = .presence then Function.update s.seen x true else s.seen } := by
  generalize he : s.ends x = e
  obtain ⟨role, pending⟩ := e
  cases m with
  | offer => exact absurd (by simp [hw]) h.not_wire
  | answer =>
    simp only [End.take, List.map_nil, List.append_nil, ← he, Function.update_eq_self,
      reduceCtorEq, if_false]
    exact h.drop hw (by simp) (fun _ => Signal.noConfusion) _ h.seen_self .inl
  | presence =>
    cases role with
    | none =>
      simp only [End.take, if_true, List.map_nil, List.append_nil]
      have := h.offer hw (by rw [he])
      rwa [he] at this
    | some r =>
      have hr : (s.ends x).role = some .offer := by
        cases r with
        | offer => rw [he]
        | answer => exact absurd (by rw [he]) h.not_answer
      simp only [End.take, List.map_nil, List.append_nil, ← he, Function.update_eq_self, if_true]
      exact h.drop hw (by simp) (fun _ _ => hr) _ (fun _ => hr) fun _ => .inr hr

/-- What reaches the end that is to answer. -/
theorem Agreed.deliver_other (h : Agreed x s) (hw : s.wire = l₁ ++ (x.other, m) :: l₂) :
    Agreed x
      { ends := Function.update s.ends x.other ((s.ends x.other).take false m).1
        wire := l₁ ++ l₂ ++ ((s.ends x.other).take false m).2.map (Prod.mk x.other.other)
        seen := if m = .presence then Function.update s.seen x.other true else s.seen } := by
  generalize he : s.ends x.other = e
  obtain ⟨role, pending⟩ := e
  cases m with
  | offer =>
    have hans := h.answer hw
    rw [he] at hans
    cases role with
    | none => simpa [End.take] using hans
    | some r =>
      cases r with
      | offer => exact absurd (by rw [he]) h.not_offer
      | answer => simpa [End.take] using hans
  | answer =>
    simp only [End.take, List.map_nil, List.append_nil, ← he, Function.update_eq_self,
      reduceCtorEq, if_false]
    exact h.drop hw (by simp) (fun hc => absurd hc (Side.other_ne x)) _ h.seen_self .inl
  | presence =>
    cases role with
    | none =>
      simp only [End.take, Bool.false_eq_true, if_false, List.map_cons, List.map_nil,
        Side.other_other, ← he, Function.update_eq_self, if_true]
      exact h.bounce hw
    | some r =>
      have hr : (s.ends x).role = some .offer := by
        cases r with
        | offer => exact absurd (by rw [he]) h.not_offer
        | answer => exact h.offered (.inl (by rw [he]))
      simp only [End.take, List.map_nil, List.append_nil, ← he, Function.update_eq_self, if_true]
      exact h.drop hw (by simp) (fun hc => absurd hc (Side.other_ne x)) _ (fun _ => hr)
        fun _ => .inr hr

theorem Agreed.deliver {offers : Side → Bool} (hx : offers x = true)
    (hy : offers x.other = false) (h : Agreed x s) {y : Side} (hw : s.wire = l₁ ++ (y, m) :: l₂) :
    Agreed x
      { ends := Function.update s.ends y ((s.ends y).take (offers y) m).1
        wire := l₁ ++ l₂ ++ ((s.ends y).take (offers y) m).2.map (Prod.mk y.other)
        seen := if m = .presence then Function.update s.seen y true else s.seen } := by
  rcases Side.eq_or_eq_other x y with rfl | rfl
  · rw [hx]
    exact h.deliver_self hw
  · rw [hy]
    exact h.deliver_other hw

end Deliver

variable {offers : Side → Bool} {x : Side} {s : State} {tr : List Event}

/-- **The invariant holds in every run** when exactly one end is to offer. -/
theorem run_agreed (hx : offers x = true) (hy : offers x.other = false)
    (h : Lts.Run (Step offers) start tr s) : Agreed x s := by
  refine h.invariant (agreed_start x) fun s e s' hs he => ?_
  cases he with
  | announce y => exact hs.announce y
  | deliver l₁ y m l₂ hw => exact hs.deliver hx hy hw
  | create y role rest hp => exact hs.create hp

/-- **There are never two offering ends.** -/
theorem Agreed.not_both (h : Agreed x s) : ¬ ∀ y, (s.ends y).role = some .offer :=
  fun hall => h.not_offer (hall x.other)

/-- **Once settled**, one end has offered and the other has answered. -/
theorem Agreed.settled (h : Agreed x s) (hs : s.Settled) {y : Side} (hy : s.seen y = true) :
    (s.ends x).role = some .offer ∧ (s.ends x.other).role = some .answer := by
  have hx : (s.ends x).role = some .offer := by
    rcases Side.eq_or_eq_other x y with rfl | rfl
    · exact h.seen_self hy
    · exact (h.seen_other hy).resolve_left (by simp [hs.1])
  refine ⟨hx, ?_⟩
  rcases h.answered hx with hp | hw | hr
  · simp [hs.2 x] at hp
  · simp [hs.1] at hw
  · exact hr

end Glare
