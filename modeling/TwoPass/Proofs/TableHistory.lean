import TwoPass.Processor.Table
import TwoPass.Proofs.Outcome

/-!
# Tables that insertions build

Instruction tables are made by inserting mnemonics one after the other into the empty table.
`Built` are the tables that successful insertions lead to; what every insertion guarantees holds of
all of them.
-/

namespace TwoPass.Table

variable {table next : Table} {mnemonic : Text} {operands : Nat} {modes : Modes}

/-- The tables that successful insertions make from the empty one. -/
inductive Built : Table → Prop
  | empty : Built {}
  | standard {table next : Table} {mnemonic : Text} {modes : Modes} (hbuilt : Built table)
      (hinsert : table.insertStandard mnemonic modes = .ok next) : Built next
  | special {table next : Table} {mnemonic : Text} {operands : Nat} {modes : Modes}
      (hbuilt : Built table) (hinsert : table.insertSpecial mnemonic operands modes = .ok next) :
      Built next

/-! ## One insertion -/

theorem insertStandard_cases (h : table.insertStandard mnemonic modes = .ok next) :
    ∃ name, next = { table with standard := table.standard ++ [(name, modes)] } := by
  obtain ⟨name, -, rfl⟩ := Outcome.map_eq_ok.mp h
  exact ⟨name, rfl⟩

/-- A special mnemonic is entered with two or three operands only. -/
theorem insertSpecial_cases (h : table.insertSpecial mnemonic operands modes = .ok next) :
    2 ≤ operands ∧ operands ≤ 3 ∧
      ∃ name, next = { table with special := table.special ++ [(name, ⟨operands, modes⟩)] } := by
  unfold insertSpecial at h
  split at h
  next => cases h
  next hcount =>
    simp only [Bool.or_eq_true, decide_eq_true_eq, not_or, Nat.not_lt] at hcount
    obtain ⟨name, -, rfl⟩ := Outcome.map_eq_ok.mp h
    exact ⟨hcount.1, hcount.2, name, rfl⟩

/-! ## All insertions -/

theorem Built.special_operands (hbuilt : Built table) :
    ∀ entry ∈ table.special, 2 ≤ entry.2.operands ∧ entry.2.operands ≤ 3 := by
  induction hbuilt with
  | empty => simp
  | standard _ hinsert ih =>
      obtain ⟨name, rfl⟩ := insertStandard_cases hinsert
      exact ih
  | special _ hinsert ih =>
      obtain ⟨hlow, hhigh, name, rfl⟩ := insertSpecial_cases hinsert
      intro entry hentry
      rcases List.mem_append.mp hentry with hold | hnew
      · exact ih entry hold
      · rw [List.mem_singleton.mp hnew]
        exact ⟨hlow, hhigh⟩

/-- Whatever special mnemonic is found in a table takes two or three operands. -/
theorem Built.lookup_special {special : Special} (hbuilt : Built table)
    (hlookup : table.lookup mnemonic = some (.special special)) :
    2 ≤ special.operands ∧ special.operands ≤ 3 := by
  simp only [lookup] at hlookup
  split at hlookup
  next found hfound =>
    cases hlookup
    obtain ⟨before, after, hsplit, -⟩ := List.lookup_eq_some_iff.mp hfound
    exact hbuilt.special_operands (Text.fold mnemonic, special) (by rw [hsplit]; simp)
  next => simp at hlookup

end TwoPass.Table
