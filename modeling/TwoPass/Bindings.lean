/-!
# Bindings

A list of keys and values in which the order of the first entries counts: instruction tables and
pending operands are written down in this form.
-/

namespace TwoPass

/-- Binds a key in a list of bindings.  A key that is already there keeps its place and takes the
new value; a new key goes to the end. -/
def bindKey {κ α : Type} [BEq κ] (key : κ) (value : α) : List (κ × α) → List (κ × α)
  | [] => [(key, value)]
  | (other, old) :: rest =>
    if other == key then (other, value) :: rest else (other, old) :: bindKey key value rest

/-- A bound key has its new value, and every other key the one it had. -/
theorem lookup_bindKey {κ α : Type} [BEq κ] [LawfulBEq κ] (key other : κ) (value : α)
    (bindings : List (κ × α)) :
    (bindKey key value bindings).lookup other =
      if other == key then some value else bindings.lookup other := by
  induction bindings with
  | nil => cases h : other == key <;> simp [bindKey, List.lookup_cons, h]
  | cons binding rest ih =>
    obtain ⟨name, old⟩ := binding
    rw [bindKey]
    split
    next same =>
      -- The key is found here, so only the value differs.
      rw [eq_of_beq same]
      cases h : other == key <;> simp [List.lookup_cons, h]
    next differs =>
      cases h : other == name with
      | false => simp [List.lookup_cons, h, ih]
      | true =>
        have apart : (other == key) = false := by
          rw [eq_of_beq h]
          simpa using differs
        simp [List.lookup_cons, h, apart]

/-- The bindings of a list of pairs, each key once. -/
def bindAll {κ α : Type} [BEq κ] (pairs : List (κ × α)) : List (κ × α) :=
  pairs.foldl (fun bound pair => bindKey pair.1 pair.2 bound) []

end TwoPass
