import TwoPass.Text.Basic

/-!
# Document trees

What a structured document says, whatever it is written in: scalars, sequences and mappings.  A
scalar can be read in several ways; its notation decides which of them are open.
-/

namespace TwoPass

/-- A scalar with its possible readings. -/
structure Scalar where
  /-- The scalar as text. -/
  text : Option Text := none
  /-- The scalar as a natural number. -/
  number : Option Nat := none
  /-- The scalar as a truth value. -/
  truth : Option Bool := none
  /-- Whether nothing is written at all. -/
  absent : Bool := false
  deriving DecidableEq, Repr, Inhabited

/-- A document. -/
inductive Tree where
  | scalar (scalar : Scalar)
  | sequence (items : List Tree)
  | mapping (entries : List (Tree × Tree))
  deriving Inhabited

namespace Tree

/-- A scalar that can only be read as text. -/
def ofText (text : Text) : Tree := .scalar { text := some text }

/-- The text of a scalar. -/
def text? : Tree → Option Text
  | .scalar leaf => leaf.text
  | _ => none

/-- The number of a scalar. -/
def number? : Tree → Option Nat
  | .scalar leaf => leaf.number
  | _ => none

/-- The truth value of a scalar. -/
def truth? : Tree → Option Bool
  | .scalar leaf => leaf.truth
  | _ => none

/-- The entries of a mapping.  Where nothing is written there are none. -/
def entries? : Tree → Option (List (Tree × Tree))
  | .mapping entries => some entries
  | .scalar leaf => if leaf.absent then some [] else none
  | .sequence _ => none

/-- The entries of a mapping from texts to values of some kind. -/
def pairs? {κ α : Type} (key? : Text → Option κ) (value? : Tree → Option α) (tree : Tree) :
    Option (List (κ × α)) := do
  let entries ← tree.entries?
  entries.mapM fun entry => do
    let key ← entry.1.text?.bind key?
    let value ← value? entry.2
    return (key, value)

/-- The fields of a record that is written as a mapping. -/
def fields? (tree : Tree) : Option (List (Text × Tree)) := tree.pairs? some some

end Tree

/-- The value of the only field with one of the given names: `some none` if there is no such field,
and `none` if there are several. -/
def onlyField? (names : List Text) (fields : List (Text × Tree)) : Option (Option Tree) :=
  match fields.filter (names.contains ·.1) with
  | [] => some none
  | [field] => some (some field.2)
  | _ => none

end TwoPass
