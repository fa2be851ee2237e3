import Mathlib.Algebra.BigOperators.Group.List.Basic
import Mathlib.Algebra.GroupWithZero.Nat
import Mathlib.Data.List.Nodup

/-!
# Operations on one document of a collection

A store keeps a list of documents; an operation finds one that matches, whichever it likes, and
changes or deletes it in one atomic step.

* `UpdateOne p f`: `f` is applied to one document that satisfies `p`, which is also the answer; when
  none does, the answer is `none` and the collection stays as it is;
* `DeleteOne p`: one document that satisfies `p` goes, and the answer counts it;
* `UpdateOne.mem`, `UpdateOne.map_eq`, `UpdateOne.sum_eq`, `DeleteOne.sublist`: what the operations
  keep, and what they change;
* `updateAt`, `deleteAt`: the operations with the choice made by an index.
-/

set_option autoImplicit false

namespace Collection

variable {α β : Type} {p : α → Prop} {f : α → α} {l l' : List α} {r : Option α} {n : ℕ}

/-- The answer is the document as it was before the update. -/
inductive UpdateOne (p : α → Prop) (f : α → α) : List α → Option α → List α → Prop
  | found (l₁ : List α) (d : α) (l₂ : List α) (h : p d) :
      UpdateOne p f (l₁ ++ d :: l₂) (some d) (l₁ ++ f d :: l₂)
  | missed {l : List α} (h : ∀ d ∈ l, ¬ p d) : UpdateOne p f l none l

inductive DeleteOne (p : α → Prop) : List α → ℕ → List α → Prop
  | found (l₁ : List α) (d : α) (l₂ : List α) (h : p d) : DeleteOne p (l₁ ++ d :: l₂) 1 (l₁ ++ l₂)
  | missed {l : List α} (h : ∀ d ∈ l, ¬ p d) : DeleteOne p l 0 l

/-! ### Updates -/

theorem UpdateOne.of_none (h : UpdateOne p f l none l') : l' = l ∧ ∀ d ∈ l, ¬ p d := by
  cases h with
  | missed h => exact ⟨rfl, h⟩

theorem UpdateOne.of_some {d : α} (h : UpdateOne p f l (some d) l') :
    p d ∧ ∃ l₁ l₂, l = l₁ ++ d :: l₂ ∧ l' = l₁ ++ f d :: l₂ := by
  cases h with
  | found l₁ _ l₂ h => exact ⟨h, l₁, l₂, rfl, rfl⟩

/-- An update answers with a document as soon as there is one that matches. -/
theorem UpdateOne.exists_of_mem (h : UpdateOne p f l r l') {d : α} (hd : d ∈ l) (hp : p d) :
    ∃ d', r = some d' := by
  cases h with
  | found l₁ d' l₂ h => exact ⟨d', rfl⟩
  | missed h => exact absurd hp (h d hd)

theorem UpdateOne.value_mem {d : α} (h : UpdateOne p f l (some d) l') : d ∈ l := by
  obtain ⟨-, l₁, l₂, rfl, -⟩ := h.of_some
  simp

theorem UpdateOne.value_matches {d : α} (h : UpdateOne p f l (some d) l') : p d := h.of_some.1

/-- Every document afterwards is one from before, or the one that was found, changed. -/
theorem UpdateOne.mem (h : UpdateOne p f l r l') {x : α} (hx : x ∈ l') :
    x ∈ l ∨ ∃ d ∈ l, r = some d ∧ p d ∧ x = f d := by
  cases h with
  | found l₁ d l₂ h =>
    simp only [List.mem_append, List.mem_cons] at hx ⊢
    rcases hx with hx | rfl | hx
    · exact .inl (.inl hx)
    · exact .inr ⟨d, by simp, rfl, h, rfl⟩
    · exact .inl (.inr (.inr hx))
  | missed => exact .inl hx

/-- Every document from before is still there, or it is the one found and its new version is. -/
theorem UpdateOne.mem_of_mem (h : UpdateOne p f l r l') {x : α} (hx : x ∈ l) :
    x ∈ l' ∨ r = some x ∧ f x ∈ l' := by
  cases h with
  | found l₁ d l₂ h =>
    simp only [List.mem_append, List.mem_cons] at hx ⊢
    rcases hx with hx | rfl | hx
    · exact .inl (.inl hx)
    · exact .inr ⟨rfl, .inr (.inl rfl)⟩
    · exact .inl (.inr (.inr hx))
  | missed => exact .inl hx

theorem UpdateOne.value_update_mem {d : α} (h : UpdateOne p f l (some d) l') : f d ∈ l' := by
  obtain ⟨-, l₁, l₂, -, rfl⟩ := h.of_some
  simp

/-- What the update keeps of every document that matches, and every document has, stays. -/
theorem UpdateOne.forall (h : UpdateOne p f l r l') {Q : α → Prop} (hl : ∀ d ∈ l, Q d)
    (hf : ∀ d ∈ l, p d → Q d → Q (f d)) : ∀ d ∈ l', Q d := by
  intro x hx
  rcases h.mem hx with hx | ⟨d, hd, -, hp, rfl⟩
  · exact hl x hx
  · exact hf d hd hp (hl d hd)

/-- A key that the update leaves alone. -/
theorem UpdateOne.map_eq (h : UpdateOne p f l r l') {g : α → β} (hg : ∀ d, g (f d) = g d) :
    l'.map g = l.map g := by
  cases h with
  | found l₁ d l₂ h => simp [hg]
  | missed => rfl

theorem UpdateOne.length_eq (h : UpdateOne p f l r l') : l'.length = l.length := by
  have := congrArg List.length (h.map_eq (g := fun _ => ()) fun _ => rfl)
  simpa using this

/-- A sum over the documents changes by what changes in the one that was found. -/
theorem UpdateOne.sum_eq {d : α} (h : UpdateOne p f l (some d) l') (w : α → ℕ) :
    (l'.map w).sum + w d = (l.map w).sum + w (f d) := by
  obtain ⟨-, l₁, l₂, rfl, rfl⟩ := h.of_some
  simp only [List.map_append, List.map_cons, List.sum_append, List.sum_cons]
  omega

/-- With a key that tells the documents apart, exactly the one that was found is another one
afterwards. -/
theorem UpdateOne.mem_iff_of_nodup {d : α} (h : UpdateOne p f l (some d) l') {g : α → β}
    (hnd : (l.map g).Nodup) {x : α} : x ∈ l' ↔ x = f d ∨ x ∈ l ∧ g x ≠ g d := by
  obtain ⟨-, l₁, l₂, rfl, rfl⟩ := h.of_some
  rw [List.map_append, List.map_cons, List.nodup_middle, List.nodup_cons, ← List.map_append] at hnd
  have hne : ∀ y ∈ l₁ ++ l₂, g y ≠ g d := fun y hy he => hnd.1 (he ▸ List.mem_map_of_mem hy)
  simp only [List.mem_append, List.mem_cons] at hne ⊢
  constructor
  · rintro (hx | rfl | hx)
    · exact .inr ⟨.inl hx, hne x (.inl hx)⟩
    · exact .inl rfl
    · exact .inr ⟨.inr (.inr hx), hne x (.inr hx)⟩
  · rintro (rfl | ⟨hx | rfl | hx, hgx⟩)
    · exact .inr (.inl rfl)
    · exact .inl hx
    · exact absurd rfl hgx
    · exact .inr (.inr hx)

/-! ### Deletions -/

theorem DeleteOne.sublist (h : DeleteOne p l n l') : l'.Sublist l := by
  cases h with
  | found l₁ d l₂ h => exact (List.sublist_cons_self d l₂).append_left l₁
  | missed => exact List.Sublist.refl _

theorem DeleteOne.of_zero (h : DeleteOne p l 0 l') : l' = l ∧ ∀ d ∈ l, ¬ p d := by
  cases h with
  | missed h => exact ⟨rfl, h⟩

theorem DeleteOne.of_one (h : DeleteOne p l 1 l') :
    ∃ l₁ d l₂, p d ∧ l = l₁ ++ d :: l₂ ∧ l' = l₁ ++ l₂ := by
  cases h with
  | found l₁ d l₂ h => exact ⟨l₁, d, l₂, h, rfl, rfl⟩

theorem DeleteOne.eq_zero_or_one (h : DeleteOne p l n l') : n = 0 ∨ n = 1 := by
  cases h with
  | found => exact .inr rfl
  | missed => exact .inl rfl

theorem DeleteOne.eq_one_of_mem (h : DeleteOne p l n l') {d : α} (hd : d ∈ l) (hp : p d) :
    n = 1 := by
  cases h with
  | found => rfl
  | missed h => exact absurd hp (h d hd)

/-- With a key that tells the documents apart, a deletion takes exactly the documents with the key of
the one it found. -/
theorem mem_iff_of_nodup_middle {l₁ l₂ : List α} {d : α} {g : α → β}
    (hnd : ((l₁ ++ d :: l₂).map g).Nodup) {x : α} :
    x ∈ l₁ ++ l₂ ↔ x ∈ l₁ ++ d :: l₂ ∧ g x ≠ g d := by
  rw [List.map_append, List.map_cons, List.nodup_middle, List.nodup_cons, ← List.map_append] at hnd
  constructor
  · intro hx
    refine ⟨?_, fun he => hnd.1 (he ▸ List.mem_map_of_mem hx)⟩
    simp only [List.mem_append, List.mem_cons] at hx ⊢
    exact hx.imp id .inr
  · rintro ⟨hx, hne⟩
    simp only [List.mem_append, List.mem_cons] at hx ⊢
    rcases hx with hx | rfl | hx
    · exact .inl hx
    · exact absurd rfl hne
    · exact .inr hx

/-! ### The choice by an index -/

section Choice

variable [DecidablePred p]

/-- The parts of a list around its match number `k`. -/
def splitAt (p : α → Prop) [DecidablePred p] : ℕ → List α → Option (List α × α × List α)
  | _, [] => none
  | k, d :: l =>
    if p d then
      match k with
      | 0 => some ([], d, l)
      | k + 1 => (splitAt p k l).map fun s => (d :: s.1, s.2)
    else (splitAt p k l).map fun s => (d :: s.1, s.2)

theorem eq_of_splitAt {l₁ l₂ : List α} {d : α} :
    ∀ {k : ℕ} {l : List α}, splitAt p k l = some (l₁, d, l₂) → l = l₁ ++ d :: l₂ ∧ p d := by
  intro k l
  induction l generalizing k l₁ with
  | nil => intro h; cases k <;> cases h
  | cons x l ih =>
    intro h
    have hrec : ∀ {k}, (splitAt p k l).map (fun s => (x :: s.1, s.2)) = some (l₁, d, l₂) →
        x :: l = l₁ ++ d :: l₂ ∧ p d := by
      intro k h
      obtain ⟨⟨m₁, d', m₂⟩, hs, heq⟩ := Option.map_eq_some_iff.mp h
      cases heq
      obtain ⟨rfl, hp⟩ := ih hs
      exact ⟨rfl, hp⟩
    unfold splitAt at h
    split_ifs at h with hx
    · cases k with
      | zero => cases h; exact ⟨rfl, hx⟩
      | succ k => exact hrec h
    · exact hrec h

/-- `UpdateOne` with the match number `k`. -/
def updateAt (p : α → Prop) [DecidablePred p] (f : α → α) (k : ℕ) (l : List α) :
    Option (Option α × List α) :=
  match splitAt p k l with
  | some (l₁, d, l₂) => some (some d, l₁ ++ f d :: l₂)
  | none => if ∀ d ∈ l, ¬ p d then some (none, l) else none

theorem updateOne_of_updateAt {k : ℕ} (h : updateAt p f k l = some (r, l')) :
    UpdateOne p f l r l' := by
  unfold updateAt at h
  split at h
  · rename_i l₁ d l₂ hs
    cases h
    obtain ⟨rfl, hp⟩ := eq_of_splitAt hs
    exact .found l₁ d l₂ hp
  · split_ifs at h with hn
    cases h
    exact .missed hn

/-- `DeleteOne` with the first match. -/
def deleteAt (p : α → Prop) [DecidablePred p] (l : List α) : Option (ℕ × List α) :=
  match splitAt p 0 l with
  | some (l₁, _, l₂) => some (1, l₁ ++ l₂)
  | none => if ∀ d ∈ l, ¬ p d then some (0, l) else none

theorem deleteOne_of_deleteAt (h : deleteAt p l = some (n, l')) : DeleteOne p l n l' := by
  unfold deleteAt at h
  split at h
  · rename_i l₁ d l₂ hs
    cases h
    obtain ⟨rfl, hp⟩ := eq_of_splitAt hs
    exact .found l₁ d l₂ hp
  · split_ifs at h with hn
    cases h
    exact .missed hn

end Choice

end Collection
