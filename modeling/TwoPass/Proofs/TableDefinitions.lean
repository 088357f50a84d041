import TwoPass.Processor.Definition
import TwoPass.Proofs.TableEntries

/-!
# Which definitions make a table

A definition is read row by row, the standard mnemonics first, and every row is checked in four
ways, one after the other.  What comes out does not depend on that order as long as nothing is
wrong: a definition makes a table exactly if all of its rows pass all checks and have names of their
own (`Sound`).  If something is wrong, the rows before the first bad one are sound, and that row
fails with the first check that it does not pass (`Offence`).

* `Row.read_eq_ok`, `Row.read_eq_error`: reading the opcodes of a row.
* `Loaded.add`, `Loaded.exists_add_iff`, `Loaded.add_eq_error`: entering a row into the table of the
  rows before it.
* `Loaded.lookup_of_mem`, `Loaded.lookup_eq_none`: what the table answers.
* `loaded_of_foldlM`, `foldlM_of_sound`: all rows, by induction from the end.
-/

namespace TwoPass

namespace Table.Row

variable {written : Row Text} {row : Row Opcode} {error : TableError}

/-! ## Reading a row -/

/-- Reads the opcode for one mode. -/
def readMode (mode : Mode × Text) : Except TableError (Mode × Opcode) :=
  (TableDefinition.readOpcode mode.2).map (mode.1, ·)

theorem readMode_eq_ok {text : Mode × Text} {code : Mode × Opcode} :
    readMode text = .ok code ↔ text.1 = code.1 ∧ Opcode.parse? text.2 = some code.2 := by
  simp only [readMode, TableDefinition.readOpcode, Outcome.map_eq_ok, Outcome.elim_eq_ok]
  constructor
  · rintro ⟨opcode, hopcode, rfl⟩
    exact ⟨rfl, hopcode⟩
  · rintro ⟨hmode, hopcode⟩
    exact ⟨code.2, hopcode, Prod.ext hmode rfl⟩

theorem readMode_eq_error {text : Mode × Text} :
    readMode text = .error error ↔ Opcode.parse? text.2 = none ∧ .badOpcode text.2 = error := by
  rw [readMode, TableDefinition.readOpcode, Outcome.map_eq_error, Outcome.elim_eq_error]

/-- Reads the opcodes of a row. -/
def read (written : Row Text) : Except TableError (Row Opcode) :=
  (TableDefinition.readModes written.mnemonic written.modes).map
    (⟨written.mnemonic, written.operands, ·⟩)

theorem readModes_of_nonempty (hsome : written.modes ≠ []) :
    TableDefinition.readModes written.mnemonic written.modes = written.modes.mapM readMode := by
  rw [TableDefinition.readModes, if_neg (by simpa using hsome)]
  rfl

/-- The row as written says the same as the row, with texts in place of opcodes. -/
structure Spells (written : Row Text) (row : Row Opcode) : Prop where
  mnemonic : written.mnemonic = row.mnemonic
  operands : written.operands = row.operands
  modes : List.Forall₂ (fun text code => text.1 = code.1 ∧ Opcode.parse? text.2 = some code.2)
    written.modes row.modes

/-- There is a mode, and every opcode can be read. -/
structure Readable (written : Row Text) : Prop where
  nonempty : written.modes ≠ []
  opcodes : ∀ mode ∈ written.modes, ∃ opcode, Opcode.parse? mode.2 = some opcode

theorem Spells.name_eq (hspells : Spells written row) : row.name = written.name := by
  rw [name, name, hspells.mnemonic]

theorem Spells.hasCount_iff (hspells : Spells written row) :
    row.HasCount ↔ written.HasCount := by
  rw [HasCount, HasCount, hspells.operands]

theorem read_eq_ok : written.read = .ok row ↔ written.modes ≠ [] ∧ Spells written row := by
  by_cases hsome : written.modes = []
  · simp [read, TableDefinition.readModes, hsome, Except.map]
  · rw [read, readModes_of_nonempty hsome, Outcome.map_eq_ok]
    simp only [Outcome.mapM_eq_ok, readMode_eq_ok]
    constructor
    · rintro ⟨modes, hmodes, rfl⟩
      exact ⟨hsome, rfl, rfl, hmodes⟩
    · rintro ⟨-, hmnemonic, hoperands, hmodes⟩
      exact ⟨row.modes, hmodes, by rw [hmnemonic, hoperands]⟩

/-- A row cannot be read if it has no modes, or because of the first opcode that cannot be read. -/
theorem read_eq_error : written.read = .error error ↔
    (written.modes = [] ∧ error = .noModes written.mnemonic) ∨
      ∃ mode text, written.modes.find? (fun mode => (Opcode.parse? mode.2).isNone) =
        some (mode, text) ∧ error = .badOpcode text := by
  by_cases hsome : written.modes = []
  · simp [read, TableDefinition.readModes, hsome, Except.map, eq_comm]
  · rw [read, readModes_of_nonempty hsome, Outcome.map_eq_error]
    simp only [hsome, false_and, false_or]
    clear hsome
    generalize written.modes = modes
    induction modes with
    | nil => simp [pure, Except.pure]
    | cons first rest ih =>
        cases hfirst : readMode first with
        | error other =>
            obtain ⟨hnone, rfl⟩ := readMode_eq_error.mp hfirst
            rw [Outcome.mapM_cons_of_error hfirst]
            simp [hnone, Prod.ext_iff, eq_comm]
        | ok code =>
            obtain ⟨-, hopcode⟩ := readMode_eq_ok.mp hfirst
            rw [Outcome.mapM_cons_of_ok hfirst, Outcome.map_eq_error, ih]
            simp [hopcode]

theorem exists_read_iff : (∃ row, written.read = .ok row) ↔ Readable written := by
  constructor
  · rintro ⟨row, hread⟩
    obtain ⟨hsome, hspells⟩ := read_eq_ok.mp hread
    refine ⟨hsome, fun mode hmode => ?_⟩
    obtain ⟨k, hget⟩ := List.getElem?_of_mem hmode
    obtain ⟨code, -, -, hopcode⟩ := Outcome.getElem?_of_forall₂ hspells.modes hget
    exact ⟨code.2, hopcode⟩
  · intro hreadable
    cases hread : written.read with
    | ok row => exact ⟨row, rfl⟩
    | error error =>
        rcases read_eq_error.mp hread with ⟨hnone, -⟩ | ⟨mode, text, hfirst, -⟩
        · exact absurd hnone hreadable.nonempty
        · obtain ⟨opcode, hopcode⟩ := hreadable.opcodes _ (List.mem_of_find?_eq_some hfirst)
          have hunread := List.find?_some hfirst
          rw [hopcode] at hunread
          cases hunread

end Table.Row

namespace TableDefinition

open Table (Row Records)

variable {table next : Table} {written : Row Text} {writtens front : List (Row Text)} {query : Text}
  {error : TableError}

/-! ## Sound rows -/

/-- The rows of a definition in the order in which they are read. -/
def rows (definition : TableDefinition) : List (Row Text) :=
  definition.standard.map (fun entry => ⟨entry.1, none, entry.2⟩) ++
    definition.special.map fun entry => ⟨entry.1, some entry.2.operands, entry.2.modes⟩

/-- Rows without anything wrong. -/
structure Sound (writtens : List (Row Text)) : Prop where
  modes : ∀ written ∈ writtens, written.modes ≠ []
  opcodes : ∀ written ∈ writtens, ∀ mode ∈ written.modes, ∃ opcode,
    Opcode.parse? mode.2 = some opcode
  counts : ∀ written ∈ writtens, written.HasCount
  distinct : (writtens.map Row.name).Nodup

/-- What is wrong with a row after some others.  Of several errors the first in this order is the
one that counts. -/
inductive Offence (earlier : List (Row Text)) (written : Row Text) : TableError → Prop
  | noModes (hmodes : written.modes = []) : Offence earlier written (.noModes written.mnemonic)
  | badOpcode {mode : Mode} {text : Text}
      (hfirst : written.modes.find? (fun mode => (Opcode.parse? mode.2).isNone) =
        some (mode, text)) : Offence earlier written (.badOpcode text)
  | badOperandCount {count : Nat} (hreadable : written.Readable) (hmem : count ∈ written.operands)
      (hcount : ¬(count = 2 ∨ count = 3)) :
      Offence earlier written (.badOperandCount written.mnemonic count)
  | duplicateMnemonic (hreadable : written.Readable) (hcount : written.HasCount)
      (hname : written.name ∈ earlier.map Row.name) :
      Offence earlier written (.duplicateMnemonic written.mnemonic)

theorem sound_concat : Sound (front ++ [written]) ↔
    Sound front ∧ written.Readable ∧ written.HasCount ∧ written.name ∉ front.map Row.name := by
  have hnames : ((front ++ [written]).map Row.name).Nodup ↔
      written.name ∉ front.map Row.name ∧ (front.map Row.name).Nodup := by
    rw [List.map_append, List.map_singleton, (List.perm_append_singleton _ _).nodup_iff,
      List.nodup_cons]
  constructor
  · intro hsound
    have hlast : written ∈ front ++ [written] := by simp
    have hfront : ∀ other ∈ front, other ∈ front ++ [written] := fun _ => List.mem_append_left _
    obtain ⟨hnew, hdistinct⟩ := hnames.mp hsound.distinct
    exact ⟨⟨fun other hmem => hsound.modes other (hfront other hmem),
      fun other hmem => hsound.opcodes other (hfront other hmem),
      fun other hmem => hsound.counts other (hfront other hmem), hdistinct⟩,
      ⟨hsound.modes written hlast, hsound.opcodes written hlast⟩, hsound.counts written hlast, hnew⟩
  · rintro ⟨hsound, hreadable, hcount, hnew⟩
    refine ⟨?_, ?_, ?_, hnames.mpr ⟨hnew, hsound.distinct⟩⟩
    · exact List.forall_mem_append.mpr
        ⟨hsound.modes, List.forall_mem_singleton.mpr hreadable.nonempty⟩
    · exact List.forall_mem_append.mpr
        ⟨hsound.opcodes, List.forall_mem_singleton.mpr hreadable.opcodes⟩
    · exact List.forall_mem_append.mpr ⟨hsound.counts, List.forall_mem_singleton.mpr hcount⟩

/-! ## Row by row -/

/-- Reads a row and enters it. -/
def add (table : Table) (written : Row Text) : Except TableError Table := do
  let row ← written.read
  row.insert table

theorem toTable_eq (definition : TableDefinition) :
    definition.toTable = definition.rows.foldlM add {} := by
  have hstandard : ∀ (table : Table) (entry : Text × ModeTexts),
      addStandard table entry = add table ⟨entry.1, none, entry.2⟩ := by
    intro table entry
    unfold addStandard add Row.read
    cases readModes entry.1 entry.2 <;> rfl
  have hspecial : ∀ (table : Table) (entry : Text × SpecialText),
      addSpecial table entry = add table ⟨entry.1, some entry.2.operands, entry.2.modes⟩ := by
    intro table entry
    unfold addSpecial add Row.read
    cases readModes entry.1 entry.2.modes <;> rfl
  rw [toTable, rows, List.foldlM_append, List.foldlM_map]
  simp only [List.foldlM_map, ← hstandard, ← hspecial]

/-- The table holds what the rows spell. -/
def Loaded (writtens : List (Row Text)) (table : Table) : Prop :=
  ∃ rows, List.Forall₂ Row.Spells writtens rows ∧ Records table rows

theorem map_name_of_spells {rows : List (Row Opcode)}
    (hspells : List.Forall₂ Row.Spells writtens rows) :
    rows.map Row.name = writtens.map Row.name := by
  induction hspells with
  | nil => rfl
  | cons hfirst _ ih => rw [List.map_cons, List.map_cons, hfirst.name_eq, ih]

/-- A row finds its name taken if an earlier row has it. -/
theorem lookup_isSome_iff {rows : List (Row Opcode)} {row : Row Opcode}
    (hspells : List.Forall₂ Row.Spells front rows) (hrecords : Records table rows)
    (hrow : written.Spells row) :
    (∃ entry, table.lookup row.name = some entry) ↔ written.name ∈ front.map Row.name := by
  rw [hrecords.exists_lookup_iff, map_name_of_spells hspells, hrow.name_eq]

theorem Loaded.add (hloaded : Loaded front table) (hadd : add table written = .ok next) :
    Loaded (front ++ [written]) next := by
  obtain ⟨rows, hspells, hrecords⟩ := hloaded
  obtain ⟨row, hread, hinsert⟩ := Outcome.bind_eq_ok.mp hadd
  obtain ⟨-, hrow⟩ := Row.read_eq_ok.mp hread
  exact ⟨rows ++ [row], List.rel_append hspells (.cons hrow .nil), hrecords.enter hinsert⟩

theorem Loaded.exists_add_iff (hloaded : Loaded front table) :
    (∃ next, TableDefinition.add table written = .ok next) ↔
      written.Readable ∧ written.HasCount ∧ written.name ∉ front.map Row.name := by
  obtain ⟨rows, hspells, hrecords⟩ := hloaded
  constructor
  · rintro ⟨next, hadd⟩
    obtain ⟨row, hread, hinsert⟩ := Outcome.bind_eq_ok.mp hadd
    obtain ⟨-, hrow⟩ := Row.read_eq_ok.mp hread
    obtain ⟨hcount, hnone, -⟩ := Row.insert_eq_ok_iff.mp hinsert
    refine ⟨Row.exists_read_iff.mp ⟨row, hread⟩, hrow.hasCount_iff.mp hcount, ?_⟩
    rw [← lookup_isSome_iff hspells hrecords hrow, hnone]
    simp
  · rintro ⟨hreadable, hcount, hnew⟩
    obtain ⟨row, hread⟩ := Row.exists_read_iff.mpr hreadable
    obtain ⟨-, hrow⟩ := Row.read_eq_ok.mp hread
    rw [← lookup_isSome_iff hspells hrecords hrow, not_exists] at hnew
    exact ⟨_, Outcome.bind_eq_ok.mpr ⟨row, hread, Row.insert_of_none
      (hrow.hasCount_iff.mpr hcount) (Option.eq_none_iff_forall_ne_some.mpr hnew)⟩⟩

/-- A row that cannot be added fails with its offence. -/
theorem Loaded.add_eq_error (hloaded : Loaded front table) :
    TableDefinition.add table written = .error error ↔ Offence front written error := by
  obtain ⟨rows, hspells, hrecords⟩ := hloaded
  rw [TableDefinition.add, Outcome.bind_eq_error]
  constructor
  · rintro (hread | ⟨row, hread, hinsert⟩)
    · rcases Row.read_eq_error.mp hread with ⟨hnone, rfl⟩ | ⟨mode, text, hfirst, rfl⟩
      · exact .noModes hnone
      · exact .badOpcode hfirst
    · have hreadable : written.Readable := Row.exists_read_iff.mp ⟨row, hread⟩
      obtain ⟨-, hrow⟩ := Row.read_eq_ok.mp hread
      have hknown := lookup_isSome_iff hspells hrecords hrow
      rcases Row.insert_eq_error_iff.mp hinsert with ⟨count, hmem, hcount, rfl⟩ |
          ⟨hcount, hentry, rfl⟩
      · rw [← hrow.mnemonic]
        exact .badOperandCount hreadable (hrow.operands ▸ hmem) hcount
      · rw [← hrow.mnemonic]
        exact .duplicateMnemonic hreadable (hrow.hasCount_iff.mp hcount) (hknown.mp hentry)
  · intro hoffence
    cases hoffence with
    | noModes hmodes => exact .inl (Row.read_eq_error.mpr (.inl ⟨hmodes, rfl⟩))
    | badOpcode hfirst => exact .inl (Row.read_eq_error.mpr (.inr ⟨_, _, hfirst, rfl⟩))
    | badOperandCount hreadable hmem hcount =>
        obtain ⟨row, hread⟩ := Row.exists_read_iff.mpr hreadable
        obtain ⟨-, hrow⟩ := Row.read_eq_ok.mp hread
        rw [hrow.operands] at hmem
        refine .inr ⟨row, hread, ?_⟩
        rw [hrow.mnemonic]
        exact Row.insert_of_not_count hmem hcount
    | duplicateMnemonic hreadable hcount hname =>
        obtain ⟨row, hread⟩ := Row.exists_read_iff.mpr hreadable
        obtain ⟨-, hrow⟩ := Row.read_eq_ok.mp hread
        obtain ⟨entry, hentry⟩ := (lookup_isSome_iff hspells hrecords hrow).mpr hname
        refine .inr ⟨row, hread, ?_⟩
        rw [hrow.mnemonic]
        exact Row.insert_of_some (hrow.hasCount_iff.mpr hcount) hentry

/-! ## What a loaded table answers -/

theorem Loaded.size_eq (hloaded : Loaded writtens table) : table.size = writtens.length := by
  obtain ⟨rows, hspells, hrecords⟩ := hloaded
  rw [← Table.length_names, hrecords.names.length_eq, List.length_map, hspells.length_eq]

theorem Loaded.lookup_of_mem (hloaded : Loaded writtens table) (hwritten : written ∈ writtens)
    (hquery : Text.fold query = written.name) :
    ∃ row, written.Spells row ∧ table.lookup query = some row.entry := by
  obtain ⟨rows, hspells, hrecords⟩ := hloaded
  obtain ⟨k, hget⟩ := List.getElem?_of_mem hwritten
  obtain ⟨row, hrow, hspelled⟩ := Outcome.getElem?_of_forall₂ hspells hget
  refine ⟨row, hspelled, (hrecords.lookup query row.entry).mpr ⟨row, ?_, ?_, rfl⟩⟩
  · exact List.mem_of_getElem? hrow
  · rw [hspelled.name_eq, hquery]

theorem Loaded.lookup_eq_none (hloaded : Loaded writtens table)
    (hquery : ∀ written ∈ writtens, Text.fold query ≠ written.name) :
    table.lookup query = none := by
  obtain ⟨rows, hspells, hrecords⟩ := hloaded
  apply Option.eq_none_iff_forall_ne_some.mpr
  intro entry hentry
  obtain ⟨row, hrow, hname, -⟩ := (hrecords.lookup query entry).mp hentry
  obtain ⟨k, hget⟩ := List.getElem?_of_mem hrow
  obtain ⟨written, hwritten, hspelled⟩ := Outcome.getElem?_of_forall₂_right hspells hget
  exact hquery written (List.mem_of_getElem? hwritten) (hname.symm.trans hspelled.name_eq)

/-! ## All rows -/

theorem loaded_of_foldlM (hrows : writtens.foldlM add {} = .ok table) :
    Loaded writtens table ∧ Sound writtens := by
  induction writtens using List.reverseRecOn generalizing table with
  | nil =>
      cases hrows
      exact ⟨⟨[], .nil, Table.records_empty⟩, by simp, by simp, by simp, .nil⟩
  | append_singleton front written ih =>
      rw [Outcome.foldlM_concat] at hrows
      obtain ⟨before, hfront, hlast⟩ := Outcome.bind_eq_ok.mp hrows
      obtain ⟨hloaded, hsound⟩ := ih hfront
      exact ⟨hloaded.add hlast, sound_concat.mpr ⟨hsound, hloaded.exists_add_iff.mp ⟨table, hlast⟩⟩⟩

theorem foldlM_of_sound (hsound : Sound writtens) :
    ∃ table, writtens.foldlM add {} = .ok table := by
  induction writtens using List.reverseRecOn with
  | nil => exact ⟨{}, rfl⟩
  | append_singleton front written ih =>
      obtain ⟨hfront, hrow⟩ := sound_concat.mp hsound
      obtain ⟨before, hbefore⟩ := ih hfront
      obtain ⟨next, hnext⟩ := (loaded_of_foldlM hbefore).1.exists_add_iff.mpr hrow
      rw [Outcome.foldlM_concat]
      exact ⟨next, Outcome.bind_eq_ok.mpr ⟨before, hbefore, hnext⟩⟩

/-- Loading accepts the sound definitions, and only those.  Their table has as many mnemonics as the
definition; each of them is found in any case of its letters, as the kind it was written as and with
the opcodes that its texts spell, and nothing else is found.  Any other definition is refused for
its first bad row: all rows before that are sound. -/
theorem table_of_definition (definition : TableDefinition) :
    ((∃ table, definition.toTable = .ok table) ↔ Sound definition.rows) ∧
    (∀ table, definition.toTable = .ok table →
      table.size = definition.standard.length + definition.special.length ∧
      (∀ written ∈ definition.rows, ∀ query, Text.fold query = written.name →
        ∃ row, written.Spells row ∧ table.lookup query = some row.entry) ∧
      (∀ query, (∀ written ∈ definition.rows, Text.fold query ≠ written.name) →
        table.lookup query = none)) ∧
    (∀ error, definition.toTable = .error error ↔
      ∃ front written back, definition.rows = front ++ written :: back ∧ Sound front ∧
        Offence front written error) := by
  rw [toTable_eq]
  refine ⟨⟨?_, foldlM_of_sound⟩, ?_, ?_⟩
  · rintro ⟨table, htable⟩
    exact (loaded_of_foldlM htable).2
  · intro table htable
    obtain ⟨hloaded, -⟩ := loaded_of_foldlM htable
    refine ⟨?_, fun written hwritten query => hloaded.lookup_of_mem hwritten,
      fun query => hloaded.lookup_eq_none⟩
    rw [hloaded.size_eq]
    simp [TableDefinition.rows]
  · intro error
    rw [Outcome.foldlM_eq_error]
    constructor
    · rintro ⟨front, written, back, table, hrows, hfront, hadd⟩
      obtain ⟨hloaded, hsound⟩ := loaded_of_foldlM hfront
      exact ⟨front, written, back, hrows, hsound, hloaded.add_eq_error.mp hadd⟩
    · rintro ⟨front, written, back, hrows, hsound, hoffence⟩
      obtain ⟨table, hfront⟩ := foldlM_of_sound hsound
      obtain ⟨hloaded, -⟩ := loaded_of_foldlM hfront
      exact ⟨front, written, back, table, hrows, hfront, hloaded.add_eq_error.mpr hoffence⟩

def smallDefinition : TableDefinition where
  standard := [("LDAA ".toList, [(.immediate, "86".toList), (.indexedY, "18 a6".toList)])]
  special := [("bset".toList, ⟨2, [(.direct, "14".toList)]⟩)]

/-- The special mnemonic has an opcode that cannot be read, one operand and a name that is taken. -/
def flawedDefinition : TableDefinition where
  standard := [("nop".toList, [(.inherent, "01".toList)])]
  special := [(" NOP".toList, ⟨1, [(.direct, "12".toList), (.extended, "0G".toList)]⟩)]

theorem table_of_smallDefinition :
    (∃ table, smallDefinition.toTable = .ok table ∧ table.size = 2 ∧
      ∃ row : Row Opcode, row.modes.length = 2 ∧
        table.lookup "ldaa".toList = some row.entry) ∧
    flawedDefinition.toTable = .error (.badOpcode "0G".toList) := by
  constructor
  · have htable : smallDefinition.toTable = .ok
        { standard := [("ldaa".toList, [(.immediate, .short 0x86), (.indexedY, .paged 0x18 0xA6)])]
          special := [("bset".toList, ⟨2, [(.direct, .short 0x14)]⟩)] } := by
      rfl
    obtain ⟨hsize, hlookup, -⟩ := (table_of_definition smallDefinition).2.1 _ htable
    obtain ⟨row, hspells, hentry⟩ := hlookup _ List.mem_cons_self "ldaa".toList (by decide +kernel)
    exact ⟨_, htable, hsize, row, hspells.modes.length_eq.symm, hentry⟩
  · have hfront : Sound [⟨"nop".toList, none, [(.inherent, "01".toList)]⟩] :=
      (loaded_of_foldlM rfl).2
    have hfirst : ([(.direct, "12".toList), (.extended, "0G".toList)] : ModeTexts).find?
        (fun mode => (Opcode.parse? mode.2).isNone) = some (.extended, "0G".toList) := rfl
    exact ((table_of_definition flawedDefinition).2.2 _).mpr
      ⟨_, _, [], rfl, hfront, .badOpcode hfirst⟩

end TableDefinition

end TwoPass
