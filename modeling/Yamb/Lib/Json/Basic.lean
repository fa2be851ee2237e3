/-!
# JSON values

* `Json`: the values over a type of strings and a type of numbers; an object is the list of its
  members;
* `find`: the first member of a name; `exists_obj_of_find`: only objects have members.
-/

set_option autoImplicit false

/-- The JSON values. -/
inductive Json (σ ν : Type) where
  | null
  | bool (b : Bool)
  | num (n : ν)
  | str (s : σ)
  | arr (items : List (Json σ ν))
  | obj (members : List (σ × Json σ ν))

namespace Json

variable {σ ν : Type}

/-- The value of the first member of a name; nothing in what is not an object. -/
def find [DecidableEq σ] (key : σ) : Json σ ν → Option (Json σ ν)
  | .obj ms => (ms.find? fun m => m.1 = key).map Prod.snd
  | _ => none

theorem exists_obj_of_find [DecidableEq σ] {key : σ} {v w : Json σ ν} (h : v.find key = some w) :
    ∃ ms, v = .obj ms := by
  cases v with
  | obj ms => exact ⟨ms, rfl⟩
  | null | bool b | num n | str s | arr items => cases h

end Json
