import Mathlib.Data.List.DropRight
import Mathlib.Data.List.Induction
import TwoPass.Proofs.TableHistory

/-!
# What a table holds after any insertions

An insertion is granted or refused, and a refused one leaves the table as it was.  Two kinds of
mnemonics share one set of names, a mnemonic is stored in another form than it is entered in, and it
is looked up in a third one.  This file shows that a table nevertheless holds exactly what has been
granted: `Records` relates a table to the rows that were entered into it.

* `Row.insert_eq_ok_iff`, `Row.insert_eq_error_iff`: when an insertion is granted, and why not.
* `lookup_enter`: a granted insertion changes the answer for its own name only.
* `Records.enter`, `records_ofHistory`: what one insertion keeps, and then all of them.
-/

namespace TwoPass

/-! ## The form in which mnemonics are stored -/

namespace Text

/-- A capital letter becomes the letter 32 places further on. -/
theorem toLower_cases (c : Char) :
    c.toLower = c ∨ 65 ≤ c.toNat ∧ c.toNat ≤ 90 ∧ c.toLower.toNat = c.toNat + 32 := by
  unfold Char.toLower
  split
  next hupper =>
    have hlow : 65 ≤ c.toNat := UInt32.le_iff_toNat_le.mp hupper.1
    have hhigh : c.toNat ≤ 90 := UInt32.le_iff_toNat_le.mp hupper.2
    refine .inr ⟨hlow, hhigh, ?_⟩
    show (c.val + 32).toNat = c.val.toNat + 32
    rw [UInt32.toNat_add, Nat.mod_eq_of_lt]
    · rfl
    · show c.toNat + 32 < 2 ^ 32
      omega
  next => exact .inl rfl

theorem isBlank_toLower (c : Char) : isBlank c.toLower = isBlank c := by
  rcases toLower_cases c with hsame | ⟨hlow, hhigh, hletter⟩
  · rw [hsame]
  · -- Neither a capital nor a small letter is blank.
    have hsolid : ∀ d : Char, 65 ≤ d.toNat → d.toNat ≤ 122 → isBlank d = false := by
      intro d hd hd'
      simp only [isBlank, blankRanges, List.any_cons, List.any_nil, Bool.or_false,
        Bool.or_eq_false_iff, Bool.and_eq_false_iff, decide_eq_false_iff_not]
      omega
    rw [hsolid c hlow (by omega), hsolid c.toLower (by omega) (by omega)]

theorem fold_fold (text : Text) : fold (fold text) = fold text := by
  rw [fold, fold, List.map_map]
  refine List.map_congr_left fun c _ => ?_
  rcases toLower_cases c with hsame | ⟨hlow, -, hletter⟩
  · rw [Function.comp_apply, hsame, hsame]
  · -- What has become a small letter is not a capital one.
    rcases toLower_cases c.toLower with hsame | ⟨-, hhigh, -⟩
    · exact hsame
    · omega

theorem trim_fold (text : Text) : trim (fold text) = fold (trim text) := by
  have hblank : isBlank ∘ Char.toLower = isBlank := funext isBlank_toLower
  simp only [trim, trimEnd, trimStart, fold, List.dropWhile_map, hblank, ← List.map_reverse]

/-- Once the blanks at both ends are gone, there are none to remove. -/
theorem trim_trim (text : Text) : trim (trim text) = trim text := by
  -- The blanks at the end are removed from a text that does not start with one.
  have hstart : trimStart (trim text) = trim text := by
    rw [trimStart, List.dropWhile_eq_self_iff]
    intro hsome
    have hstarts : trim text <+: trimStart text := List.rdropWhile_prefix isBlank (trimStart text)
    rw [hstarts.getElem hsome]
    exact List.dropWhile_eq_self_iff.mp (List.dropWhile_idempotent isBlank text) _
  have hend : trimEnd (trim text) = trim text :=
    List.rdropWhile_idempotent isBlank (trimStart text)
  rw [trim, hstart, hend]

end Text

namespace Table

theorem fold_nameOf (mnemonic : Text) : Text.fold (nameOf mnemonic) = nameOf mnemonic :=
  Text.fold_fold _

theorem trim_nameOf (mnemonic : Text) : Text.trim (nameOf mnemonic) = nameOf mnemonic := by
  rw [nameOf, Text.trim_fold, Text.trim_trim]

/-! ## Rows -/

/-- What is entered into a table at once: a mnemonic, and a code for each of its modes.  The codes
are opcodes, or texts as long as those have not been read. -/
structure Row (code : Type) where
  mnemonic : Text
  /-- How many operands a special mnemonic takes.  A standard one says nothing. -/
  operands : Option Nat
  modes : List (Mode × code)
  deriving DecidableEq, Repr, Inhabited

namespace Row

variable {code : Type}

/-- The name under which a row is stored. -/
def name (row : Row code) : Text := nameOf row.mnemonic

/-- A special mnemonic takes two or three operands. -/
def HasCount (row : Row code) : Prop := ∀ count ∈ row.operands, count = 2 ∨ count = 3

/-- What the table knows about the mnemonic once the row has been entered. -/
def entry (row : Row Opcode) : Entry :=
  row.operands.elim (.standard row.modes) fun count => .special ⟨count, row.modes⟩

/-- Enters a row into a table. -/
def insert (table : Table) (row : Row Opcode) : Except TableError Table :=
  match row.operands with
  | none => table.insertStandard row.mnemonic row.modes
  | some count => table.insertSpecial row.mnemonic count row.modes

end Row

variable {table next : Table} {row : Row Opcode} {rows : List (Row Opcode)} {entry : Entry}
  {error : TableError}

/-- The table with a further row. -/
def enter (table : Table) (row : Row Opcode) : Table :=
  match row.operands with
  | none => { table with standard := table.standard ++ [(row.name, row.modes)] }
  | some count => { table with special := table.special ++ [(row.name, ⟨count, row.modes⟩)] }

/-- All names that are stored, of either kind. -/
def names (table : Table) : List Text := table.standard.map Prod.fst ++ table.special.map Prod.fst

theorem length_names (table : Table) : table.names.length = table.size := by
  simp [names, size]

theorem names_enter (table : Table) (row : Row Opcode) :
    (table.enter row).names.Perm (table.names ++ [row.name]) := by
  unfold enter names
  cases row.operands with
  | none =>
      simp only [List.map_append, List.map_cons, List.map_nil, List.append_assoc]
      exact List.Perm.append_left _ List.perm_append_comm
  | some count => simp

/-! ## One insertion -/

theorem freshName_of_none {mnemonic : Text} (hnone : table.lookup (nameOf mnemonic) = none) :
    table.freshName mnemonic = .ok (nameOf mnemonic) := by
  simp [freshName, contains, hnone]

theorem freshName_of_some {mnemonic : Text} (hsome : table.lookup (nameOf mnemonic) = some entry) :
    table.freshName mnemonic = .error (.duplicateMnemonic mnemonic) := by
  simp [freshName, contains, hsome]

namespace Row

theorem insert_of_not_count {count : Nat} (hmem : count ∈ row.operands)
    (hcount : ¬(count = 2 ∨ count = 3)) :
    row.insert table = .error (.badOperandCount row.mnemonic count) := by
  have hrefused : (count < 2 || 3 < count) = true := by
    simp only [Bool.or_eq_true, decide_eq_true_eq]
    omega
  simp only [insert, Option.mem_def.mp hmem, insertSpecial, hrefused, if_true]

/-- With a proper count, it is the name alone that decides. -/
theorem insert_of_hasCount (hcount : row.HasCount) :
    row.insert table = (table.freshName row.mnemonic).map fun name =>
      match row.operands with
      | none => { table with standard := table.standard ++ [(name, row.modes)] }
      | some count => { table with special := table.special ++ [(name, ⟨count, row.modes⟩)] } := by
  unfold insert
  cases hoperands : row.operands with
  | none => rfl
  | some count =>
      have haccepted : (count < 2 || 3 < count) = false := by
        have hrange : count = 2 ∨ count = 3 := hcount count hoperands
        simp only [Bool.or_eq_false_iff, decide_eq_false_iff_not]
        omega
      simp only [insertSpecial, haccepted, Bool.false_eq_true, if_false]

theorem insert_of_none (hcount : row.HasCount) (hnone : table.lookup row.name = none) :
    row.insert table = .ok (table.enter row) := by
  rw [insert_of_hasCount hcount, freshName_of_none hnone]
  rfl

theorem insert_of_some (hcount : row.HasCount) (hsome : table.lookup row.name = some entry) :
    row.insert table = .error (.duplicateMnemonic row.mnemonic) := by
  rw [insert_of_hasCount hcount, freshName_of_some hsome]
  rfl

/-- All that can happen to a row. -/
theorem insert_cases (row : Row Opcode) (table : Table) :
    (row.HasCount ∧ table.lookup row.name = none ∧ row.insert table = .ok (table.enter row)) ∨
    (row.HasCount ∧ (∃ entry, table.lookup row.name = some entry) ∧
      row.insert table = .error (.duplicateMnemonic row.mnemonic)) ∨
    ∃ count ∈ row.operands, ¬(count = 2 ∨ count = 3) ∧
      row.insert table = .error (.badOperandCount row.mnemonic count) := by
  by_cases hcount : row.HasCount
  · cases hlookup : table.lookup row.name with
    | none => exact .inl ⟨hcount, rfl, insert_of_none hcount hlookup⟩
    | some entry => exact .inr (.inl ⟨hcount, ⟨entry, rfl⟩, insert_of_some hcount hlookup⟩)
  · simp only [HasCount, not_forall, exists_prop] at hcount
    obtain ⟨count, hmem, hrange⟩ := hcount
    exact .inr (.inr ⟨count, hmem, hrange, insert_of_not_count hmem hrange⟩)

/-- A row is entered if its count is proper and its name is new. -/
theorem insert_eq_ok_iff : row.insert table = .ok next ↔
    row.HasCount ∧ table.lookup row.name = none ∧ next = table.enter row := by
  constructor
  · intro hinsert
    rcases insert_cases row table with ⟨hcount, hnone, hok⟩ | ⟨-, -, herror⟩ | ⟨_, -, -, herror⟩
    · rw [hok] at hinsert
      exact ⟨hcount, hnone, (Except.ok.inj hinsert).symm⟩
    · rw [herror] at hinsert
      cases hinsert
    · rw [herror] at hinsert
      cases hinsert
  · rintro ⟨hcount, hnone, rfl⟩
    exact insert_of_none hcount hnone

/-- A row is refused for its count, or else because the table knows its name. -/
theorem insert_eq_error_iff : row.insert table = .error error ↔
    (∃ count ∈ row.operands, ¬(count = 2 ∨ count = 3) ∧
      error = .badOperandCount row.mnemonic count) ∨
    (row.HasCount ∧ (∃ entry, table.lookup row.name = some entry) ∧
      error = .duplicateMnemonic row.mnemonic) := by
  constructor
  · intro hinsert
    rcases insert_cases row table with ⟨-, -, hok⟩ | ⟨hcount, hknown, herror⟩ |
        ⟨count, hmem, hcount, herror⟩
    · rw [hok] at hinsert
      cases hinsert
    · rw [herror] at hinsert
      exact .inr ⟨hcount, hknown, (Except.error.inj hinsert).symm⟩
    · rw [herror] at hinsert
      exact .inl ⟨count, hmem, hcount, (Except.error.inj hinsert).symm⟩
  · rintro (⟨count, hmem, hcount, rfl⟩ | ⟨hcount, ⟨entry, hsome⟩, rfl⟩)
    · exact insert_of_not_count hmem hcount
    · exact insert_of_some hcount hsome

theorem exists_insert_eq_error_iff (hcount : row.HasCount) :
    (∃ error, row.insert table = .error error) ↔ ∃ entry, table.lookup row.name = some entry := by
  cases hlookup : table.lookup row.name with
  | none => simp [insert_of_none hcount hlookup]
  | some entry => simp [insert_of_some hcount hlookup]

end Row

/-- A new row answers for its own name, and no other answer changes. -/
theorem lookup_enter (hnone : table.lookup row.name = none) (query : Text) :
    (table.enter row).lookup query =
      if row.name = Text.fold query then some row.entry else table.lookup query := by
  have hfold : Text.fold row.name = row.name := fold_nameOf row.mnemonic
  have hparts : table.special.lookup row.name = none ∧ table.standard.lookup row.name = none := by
    simp only [lookup, hfold] at hnone
    cases hspecial : table.special.lookup row.name with
    | none => simpa [hspecial] using hnone
    | some special => simp [hspecial] at hnone
  by_cases hname : row.name = Text.fold query
  · rw [if_pos hname]
    simp only [lookup, enter, Row.entry, ← hname]
    cases row.operands <;> simp [List.lookup_append, hparts]
  · rw [if_neg hname]
    have hother : (Text.fold query == row.name) = false := beq_false_of_ne (Ne.symm hname)
    simp only [lookup, enter]
    cases row.operands <;> simp [List.lookup_append, List.lookup_cons, hother]

/-! ## What has been entered -/

/-- The table holds exactly these rows, each under a name of its own. -/
structure Records (table : Table) (rows : List (Row Opcode)) : Prop where
  names : table.names.Perm (rows.map Row.name)
  distinct : (rows.map Row.name).Nodup
  lookup : ∀ query entry, table.lookup query = some entry ↔
    ∃ row ∈ rows, row.name = Text.fold query ∧ row.entry = entry

theorem records_empty : Records {} [] where
  names := .nil
  distinct := .nil
  lookup := by simp [Table.lookup]

/-- The rows of a table are told apart by their names. -/
theorem Records.exists_lookup_iff (hrecords : Records table rows) (row : Row Opcode) :
    (∃ entry, table.lookup row.name = some entry) ↔ row.name ∈ rows.map Row.name := by
  have hfold : Text.fold row.name = row.name := fold_nameOf row.mnemonic
  simp only [hrecords.lookup, hfold, List.mem_map]
  constructor
  · rintro ⟨_, earlier, hmem, hname, -⟩
    exact ⟨earlier, hmem, hname⟩
  · rintro ⟨earlier, hmem, hname⟩
    exact ⟨_, earlier, hmem, hname, rfl⟩

/-- A row that is entered joins the rows of the table. -/
theorem Records.enter (hrecords : Records table rows) (hinsert : row.insert table = .ok next) :
    Records next (rows ++ [row]) := by
  obtain ⟨-, hnone, rfl⟩ := Row.insert_eq_ok_iff.mp hinsert
  have hnew : row.name ∉ rows.map Row.name := by
    rw [← hrecords.exists_lookup_iff, hnone]
    simp
  refine ⟨?_, ?_, ?_⟩
  · rw [List.map_append, List.map_singleton]
    exact (names_enter table row).trans (hrecords.names.append_right _)
  · rw [List.map_append, List.map_singleton]
    have hcons : (row.name :: rows.map Row.name).Nodup :=
      List.nodup_cons.mpr ⟨hnew, hrecords.distinct⟩
    exact (List.perm_append_singleton _ _).nodup_iff.mpr hcons
  · intro query entry
    rw [lookup_enter hnone]
    by_cases hname : row.name = Text.fold query
    · -- No earlier row has this name.
      have hearlier : ∀ earlier ∈ rows, earlier.name ≠ Text.fold query := by
        intro earlier hmem heq
        exact hnew (List.mem_map.mpr ⟨earlier, hmem, heq.trans hname.symm⟩)
      rw [if_pos hname, Option.some.injEq]
      constructor
      · intro hentry
        exact ⟨row, by simp, hname, hentry⟩
      · rintro ⟨other, hmem, hother, hentry⟩
        rcases List.mem_append.mp hmem with hold | hlast
        · exact absurd hother (hearlier other hold)
        · rwa [List.mem_singleton.mp hlast] at hentry
    · rw [if_neg hname, hrecords.lookup]
      constructor
      · rintro ⟨earlier, hmem, hearlier⟩
        exact ⟨earlier, List.mem_append_left _ hmem, hearlier⟩
      · rintro ⟨other, hmem, hother, hentry⟩
        rcases List.mem_append.mp hmem with hold | hlast
        · exact ⟨other, hold, hother, hentry⟩
        · rw [List.mem_singleton.mp hlast] at hother
          exact absurd hother hname

/-! ## Histories -/

/-- Tries to enter a row.  A row that is refused leaves the table as it was. -/
def attempt (table : Table) (row : Row Opcode) : Table :=
  match row.insert table with
  | .ok next => next
  | .error _ => table

/-- The table after a history of attempts. -/
def ofHistory (history : List (Row Opcode)) : Table := history.foldl attempt {}

/-- The rows of a history that are granted, one after the other. -/
def grantedFrom (table : Table) : List (Row Opcode) → List (Row Opcode)
  | [] => []
  | row :: rest =>
    match row.insert table with
    | .ok next => row :: grantedFrom next rest
    | .error _ => grantedFrom table rest

/-- The rows of a history that are granted. -/
def granted (history : List (Row Opcode)) : List (Row Opcode) := grantedFrom {} history

theorem grantedFrom_append (front back : List (Row Opcode)) :
    grantedFrom table (front ++ back) =
      grantedFrom table front ++ grantedFrom (front.foldl attempt table) back := by
  induction front generalizing table with
  | nil => rfl
  | cons row front ih =>
      rw [List.cons_append, List.foldl_cons]
      cases hinsert : row.insert table with
      | ok next => simp [grantedFrom, attempt, hinsert, ih]
      | error error => simp [grantedFrom, attempt, hinsert, ih]

theorem ofHistory_append (history later : List (Row Opcode)) :
    ofHistory (history ++ later) = later.foldl attempt (ofHistory history) :=
  List.foldl_append

theorem granted_append (history later : List (Row Opcode)) :
    granted (history ++ later) = granted history ++ grantedFrom (ofHistory history) later :=
  grantedFrom_append history later

/-- Whatever has been tried, the table holds what was granted. -/
theorem records_ofHistory (history : List (Row Opcode)) :
    Records (ofHistory history) (granted history) := by
  induction history using List.reverseRecOn with
  | nil => exact records_empty
  | append_singleton history row ih =>
      rw [ofHistory_append, granted_append, List.foldl_cons, List.foldl_nil]
      cases hinsert : row.insert (ofHistory history) with
      | ok next => simpa [attempt, grantedFrom, hinsert] using ih.enter hinsert
      | error error => simpa [attempt, grantedFrom, hinsert] using ih

theorem built_ofHistory (history : List (Row Opcode)) : Built (ofHistory history) := by
  induction history using List.reverseRecOn with
  | nil => exact .empty
  | append_singleton history row ih =>
      rw [ofHistory_append, List.foldl_cons, List.foldl_nil, attempt]
      split
      next next hinsert =>
        unfold Row.insert at hinsert
        cases hoperands : row.operands with
        | none =>
            rw [hoperands] at hinsert
            exact .standard ih hinsert
        | some count =>
            rw [hoperands] at hinsert
            exact .special ih hinsert
      next => exact ih

/-- Every table is what its history makes it.  Names are stored trimmed and in small letters, each
once and for one kind only, and special mnemonics have two or three operands.  There are as many
mnemonics as insertions were granted.  A refused insertion changes nothing, and with a proper count
it is refused exactly if an earlier granted one has the same name.  A query finds the one granted
mnemonic of that name, and what it finds is never changed by later insertions. -/
theorem entries_of_history (history : List (Row Opcode)) :
    (∀ name ∈ (ofHistory history).names, Text.trim name = name ∧ Text.fold name = name) ∧
    (ofHistory history).names.Nodup ∧
    (∀ row ∈ (ofHistory history).special, row.2.operands = 2 ∨ row.2.operands = 3) ∧
    (ofHistory history).size = (granted history).length ∧
    (∀ (row : Row Opcode) error, row.insert (ofHistory history) = .error error →
      ofHistory (history ++ [row]) = ofHistory history ∧
        granted (history ++ [row]) = granted history) ∧
    (∀ row : Row Opcode, row.HasCount → ((∃ error, row.insert (ofHistory history) = .error error) ↔
      ∃ earlier ∈ granted history, earlier.name = row.name)) ∧
    (∀ query entry, (ofHistory history).lookup query = some entry ↔
      ∃ row ∈ granted history, row.name = Text.fold query ∧ row.entry = entry) ∧
    ((granted history).map Row.name).Nodup ∧
    (∀ later query entry, (ofHistory history).lookup query = some entry →
      (ofHistory (history ++ later)).lookup query = some entry) := by
  have hrecords := records_ofHistory history
  refine ⟨?_, hrecords.names.nodup_iff.mpr hrecords.distinct, ?_, ?_, ?_, ?_, hrecords.lookup,
    hrecords.distinct, ?_⟩
  · intro name hname
    obtain ⟨row, -, rfl⟩ := List.mem_map.mp (hrecords.names.mem_iff.mp hname)
    exact ⟨trim_nameOf row.mnemonic, fold_nameOf row.mnemonic⟩
  · intro row hrow
    have hrange := (built_ofHistory history).special_operands row hrow
    omega
  · rw [← length_names, hrecords.names.length_eq, List.length_map]
  · intro row error hinsert
    rw [ofHistory_append, granted_append]
    simp [attempt, grantedFrom, hinsert]
  · intro row hcount
    rw [Row.exists_insert_eq_error_iff hcount, hrecords.exists_lookup_iff, List.mem_map]
  · intro later query entry hlookup
    rw [(records_ofHistory _).lookup, granted_append]
    obtain ⟨row, hmem, hrow⟩ := (hrecords.lookup query entry).mp hlookup
    exact ⟨row, List.mem_append_left _ hmem, hrow⟩

/-- Two mnemonics, each entered once.  The other rows are refused: for a name that is known, for the
number of operands, and again for a name. -/
def sampleHistory : List (Row Opcode) :=
  [⟨" NOP\t".toList, none, [(.inherent, .short 0x01)]⟩,
   ⟨"nop".toList, some 2, [(.direct, .short 0x02)]⟩,
   ⟨"BSet".toList, some 4, [(.direct, .short 0x03)]⟩,
   ⟨"BSet".toList, some 2, [(.direct, .short 0x14)]⟩,
   ⟨"bset ".toList, none, []⟩]

theorem entries_of_sampleHistory :
    (ofHistory sampleHistory).size = 2 ∧
      (∃ error, (⟨"Nop".toList, some 3, []⟩ : Row Opcode).insert (ofHistory sampleHistory) =
        .error error) ∧
      (ofHistory sampleHistory).lookup "bSET".toList =
        some (.special ⟨2, [(.direct, .short 0x14)]⟩) := by
  have hgranted : granted sampleHistory =
      [⟨" NOP\t".toList, none, [(.inherent, .short 0x01)]⟩,
       ⟨"BSet".toList, some 2, [(.direct, .short 0x14)]⟩] := by
    decide +kernel
  obtain ⟨-, -, -, hsize, -, hrefused, hlookup, -⟩ := entries_of_history sampleHistory
  rw [hgranted] at hsize hrefused hlookup
  have hcount : Row.HasCount (⟨"Nop".toList, some 3, []⟩ : Row Opcode) := by simp [Row.HasCount]
  exact ⟨hsize, (hrefused _ hcount).mpr ⟨_, List.mem_cons_self, by decide +kernel⟩,
    (hlookup _ _).mpr ⟨_, List.mem_cons_of_mem _ List.mem_cons_self, by decide +kernel, rfl⟩⟩

end Table

end TwoPass
