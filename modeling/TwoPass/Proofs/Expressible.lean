import TwoPass.Proofs.CodeSize
import TwoPass.Proofs.Literals
import TwoPass.Proofs.Records

/-!
# Every memory can be written down

Any bytes at any addresses of the 16-bit space can be spelled as a source: each run of them by an
`ORG` line and as many `FCB` lines as one likes.  `Spells` leaves open how the numbers are written,
how the bytes of a run are divided among lines and in which order the runs come.

Such a source assembles with every table, since it has no instructions.  Its lines carry the bytes
of the runs and nothing else (`Carries`).  Cutting a run into lines changes neither its cells nor
whether it is apart from the others, so merging the lines restores the memory.
-/

namespace TwoPass

open Text Statement

/-! ## Sources that spell runs -/

/-- A hexadecimal literal of a number. -/
def HexLiteral (n : Nat) (token : Text) : Prop :=
  ∃ digits, numeral? 16 digits = some n ∧ token = '$' :: digits

/-- An indented line with a directive and its operand. -/
def DirectiveLine (directive operand line : Text) : Prop :=
  ∃ margin gap, IsGap margin ∧ IsGap gap ∧ line = margin ++ (directive ++ (gap ++ operand))

/-- A line that sets the address of the next byte. -/
def OriginLine (start : UInt32) (line : Text) : Prop :=
  ∃ token, HexLiteral start.toNat token ∧ DirectiveLine "ORG".toList token line

/-- A line of one or more bytes. -/
def BytesLine (bytes : List UInt8) (line : Text) : Prop :=
  ∃ tokens, tokens ≠ [] ∧ List.Forall₂ (fun byte => HexLiteral byte.toNat) bytes tokens ∧
    DirectiveLine "FCB".toList ([','].intercalate tokens) line

/-- The line that ends a source. -/
def FinishLine (line : Text) : Prop := ∃ margin, IsGap margin ∧ line = margin ++ "END".toList

/-- Lines that spell a run: its start, and then its bytes in order. -/
def SpellsRun (run : Run) (lines : List Text) : Prop :=
  ∃ origin rows stretches, OriginLine run.start origin ∧ List.Forall₂ BytesLine stretches rows ∧
    stretches.flatten = run.bytes ∧ lines = origin :: rows

/-- A source that spells some runs one after the other, in any order. -/
def Spells (runs : List Run) (source : List Text) : Prop :=
  ∃ order parts finish, order.Perm runs ∧ List.Forall₂ SpellsRun order parts ∧ FinishLine finish ∧
    source = parts.flatten ++ [finish]

/-! ### The plainest lines -/

theorem originLine_render {start : UInt32} {digits : Text}
    (hdigits : numeral? 16 digits = some start.toNat) :
    OriginLine start (render (.origin ('$' :: digits))) :=
  ⟨'$' :: digits, ⟨digits, hdigits, rfl⟩, [' '], [' '], by decide, by decide, rfl⟩

theorem bytesLine_render {bytes : List UInt8} {tokens : List Text} (hsome : tokens ≠ [])
    (hliterals : List.Forall₂ (fun byte => HexLiteral byte.toNat) bytes tokens) :
    BytesLine bytes (render (.formBytes tokens)) :=
  ⟨tokens, hsome, hliterals, [' '], [' '], by decide, by decide, rfl⟩

theorem finishLine_render : FinishLine (render .finish) := ⟨[' '], by decide, rfl⟩

/-! ## Reading the lines -/

section Reading

variable {n : Nat} {token operand directive line : Text} {bytes : List UInt8} {start : UInt32}

theorem HexLiteral.not_mem {c : Char} (hliteral : HexLiteral n token) (hdollar : c ≠ '$')
    (hother : digitOf 16 c = none) : c ∉ token := by
  obtain ⟨digits, hdigits, rfl⟩ := hliteral
  rw [List.mem_cons, not_or]
  exact ⟨hdollar, not_mem_of_numeral? hdigits hother⟩

theorem HexLiteral.solid (hliteral : HexLiteral n token) : ∀ c ∈ token, isBlank c = false := by
  obtain ⟨digits, hdigits, rfl⟩ := hliteral
  exact List.forall_mem_cons.mpr ⟨by decide, solid_of_numeral? hdigits⟩

theorem HexLiteral.isWord (hliteral : HexLiteral n token) : IsWord token where
  nonempty := by
    obtain ⟨digits, -, rfl⟩ := hliteral
    exact List.cons_ne_nil _ _
  solid := hliteral.solid
  code := hliteral.not_mem (by decide) (by decide)

theorem HexLiteral.value? {word : UInt32} (hliteral : HexLiteral word.toNat token) :
    Literal.value? token = some word := by
  obtain ⟨digits, hdigits, rfl⟩ := hliteral
  exact Literal.value?_hexadecimal hdigits

theorem DirectiveLine.parse (hline : DirectiveLine directive operand line)
    (hdirective : IsWord directive) (hoperand : IsWord operand) :
    parse line = parseIndented directive [operand] := by
  obtain ⟨margin, gap, hmargin, hgap, rfl⟩ := hline
  have hwords : codeWords (margin ++ (directive ++ (gap ++ operand))) = [directive, operand] := by
    rw [codeWords_gap_append hmargin,
      codeWords_word_append hdirective (hgap.endsWord operand), codeWords_gap_append hgap,
      codeWords_of_isWord hoperand]
  exact parse_of_indented hwords (hmargin.startsBlank _)

theorem OriginLine.parse (hline : OriginLine start line) :
    ∃ token, parse line = .ok (.origin token) ∧ Literal.value? token = some start := by
  obtain ⟨token, hliteral, hdirective⟩ := hline
  refine ⟨token, ?_, hliteral.value?⟩
  rw [hdirective.parse (by decide) hliteral.isWord]
  rfl

theorem formByte_of_hexLiteral {byte : UInt8} (hliteral : HexLiteral byte.toNat token)
    (symbols : Symbols) : Progress.formByte symbols token = .ok byte := by
  have hvalue : Literal.value? token = some byte.toUInt32 :=
    HexLiteral.value? (by rwa [UInt8.toNat_toUInt32])
  have hlimit : byte.toUInt32 ≤ byteMax := by
    rw [UInt32.le_iff_toNat_le, UInt8.toNat_toUInt32]
    exact Nat.le_of_lt_succ byte.toNat_lt
  simp only [Progress.formByte, hvalue, Progress.formByte.toByte, Symbols.checkLimit, hlimit,
    if_true, Except.map, UInt8.toUInt8_toUInt32]

theorem BytesLine.nonempty (hline : BytesLine bytes line) : bytes ≠ [] := by
  obtain ⟨tokens, hsome, hliterals, -⟩ := hline
  rintro rfl
  exact hsome (List.forall₂_nil_left_iff.mp hliterals)

theorem BytesLine.parse (hline : BytesLine bytes line) :
    ∃ tokens, parse line = .ok (.formBytes tokens) ∧
      ∀ symbols, tokens.mapM (Progress.formByte symbols) = .ok bytes := by
  obtain ⟨tokens, hsome, hliterals, hdirective⟩ := hline
  have hliteral : ∀ token ∈ tokens, ∃ n, HexLiteral n token := by
    intro token htoken
    obtain ⟨i, hget⟩ := List.getElem?_of_mem htoken
    obtain ⟨byte, -, hbyte⟩ := Outcome.getElem?_of_forall₂_right hliterals hget
    exact ⟨byte.toNat, hbyte⟩
  have hword : IsWord ([','].intercalate tokens) := by
    apply isWord_intercalate (by decide) hsome
    intro token htoken
    obtain ⟨n, hn⟩ := hliteral token htoken
    exact hn.isWord
  have hsplit : ([','].intercalate tokens).splitOn ',' = tokens := by
    apply List.splitOn_intercalate ',' _ hsome
    intro token htoken
    obtain ⟨n, hn⟩ := hliteral token htoken
    exact hn.not_mem (by decide) (by decide)
  refine ⟨tokens, ?_, fun symbols => Outcome.mapM_eq_ok.mpr ?_⟩
  · rw [hdirective.parse (by decide) hword]
    show Except.ok (Statement.formBytes (([','].intercalate tokens).splitOn ',')) = _
    rw [hsplit]
  · exact (hliterals.imp fun _ _ hbyte => formByte_of_hexLiteral hbyte symbols).flip

theorem FinishLine.parse (hline : FinishLine line) : parse line = .ok .finish := by
  obtain ⟨margin, hmargin, rfl⟩ := hline
  have hwords : codeWords (margin ++ "END".toList) = ["END".toList] := by
    rw [codeWords_gap_append hmargin, codeWords_of_isWord (by decide)]
  rw [parse_of_indented hwords (hmargin.startsBlank _)]
  rfl

end Reading

/-! ## Lines that carry the bytes of runs -/

namespace Line

theorem operandBytes_byte (address : UInt32) (byte : UInt8) :
    operandBytes address 1 (byte.toNat : Int) = .ok [byte] := by
  have hbyte : byte.toNat < 256 := byte.toNat_lt
  have hslot : InSlot 1 (byte.toNat : Int) :=
    inSlot_iff.mpr ⟨by decide, by rwa [Int.natAbs_natCast, byteRange_one]⟩
  have hlow : ((byte.toNat : Int) % (byteRange 1 : Int)).toNat = byte.toNat := by
    rw [byteRange_one]
    omega
  rw [operandBytes_of_inSlot address hslot, hlow]
  simp [bigEndian]

/-- The bytes of a data line are the data. -/
theorem bytes_data {address : UInt32} {bytes : List UInt8} (hsome : bytes ≠ []) :
    (data address bytes).bytes = .ok bytes := by
  have hoperands : (data address bytes).operands.mapM
      (operandBytes ((data address bytes).address.getD 0) (data address bytes).operandWidth) =
        .ok (bytes.tail.map ([·])) := by
    rw [Outcome.mapM_eq_ok, data, List.forall₂_map_left_iff, List.forall₂_map_right_iff,
      List.forall₂_same]
    intro byte hbyte
    have hoperand : (data address bytes).operands ≠ [] :=
      mt List.map_eq_nil_iff.mp (List.ne_nil_of_mem hbyte)
    have hwidth := (fits_data hsome).operandWidth hoperand
    rw [data] at hwidth
    rw [hwidth]
    exact operandBytes_byte _ byte
  rw [Line.bytes, byteGroups, hoperands]
  obtain ⟨first, rest, rfl⟩ := List.exists_cons_of_ne_nil hsome
  simp [Except.map, data, Opcode.bytes, ← List.flatMap_def]

end Line

namespace Run

variable {run piece : Run} {runs more : List Run} {lines others : List Line}

/-- The line of data that puts a run in its place. -/
def dataLine (run : Run) : Line := .data run.start run.bytes

theorem piece?_dataLine (hsome : run.bytes ≠ []) : run.dataLine.piece? = some run :=
  Line.piece?_eq_some.mpr ⟨rfl, Line.bytes_data hsome⟩

/-- Lines that hold the bytes of some runs, in their order, and nothing else. -/
structure Carries (lines : List Line) (runs : List Run) : Prop where
  plain : ∀ line ∈ lines, line = .empty ∨ ∃ piece : Run, piece.Proper ∧ line = piece.dataLine
  cells_eq : cells (lines.filterMap Line.piece?) = cells runs

theorem carries_nil : Carries [] [] where
  plain := by simp
  cells_eq := rfl

theorem carries_empty : Carries [.empty] [] where
  plain := by simp
  cells_eq := rfl

theorem Carries.append (hlines : Carries lines runs) (hothers : Carries others more) :
    Carries (lines ++ others) (runs ++ more) where
  plain := by
    intro line hline
    rcases List.mem_append.mp hline with hline | hline
    · exact hlines.plain line hline
    · exact hothers.plain line hline
  cells_eq := by
    rw [List.filterMap_append, cells_append, cells_append, hlines.cells_eq, hothers.cells_eq]

theorem Carries.pending_eq_nil (hlines : Carries lines runs) {line : Line} (hline : line ∈ lines) :
    line.pending = [] := by
  rcases hlines.plain line hline with rfl | ⟨piece, -, rfl⟩ <;> rfl

/-- A run can be divided among lines in any way. -/
theorem carries_addressed {stretches : List (List UInt8)} (hrun : run.Within)
    (hflatten : stretches.flatten = run.bytes) (hsome : ∀ stretch ∈ stretches, stretch ≠ []) :
    Carries ((addressed run.start stretches).map dataLine) [run] := by
  have hbound : run.start.toNat + stretches.flatten.length ≤ 0x10000 := by rwa [hflatten]
  obtain ⟨hcells, hpieces⟩ := cells_addressed hbound
  have hproper : ∀ piece ∈ addressed run.start stretches, piece.Proper := by
    intro piece hpiece
    obtain ⟨hbytes, hwithin⟩ := hpieces piece hpiece
    exact ⟨hsome _ hbytes, hwithin⟩
  refine ⟨?_, ?_⟩
  · intro line hline
    obtain ⟨piece, hpiece, rfl⟩ := List.mem_map.mp hline
    exact .inr ⟨piece, hproper piece hpiece, rfl⟩
  · have hsame : ((addressed run.start stretches).map dataLine).filterMap Line.piece? =
        addressed run.start stretches := by
      rw [List.filterMap_map]
      exact (List.filterMap_congr fun piece hpiece =>
        piece?_dataLine (hproper piece hpiece).nonempty).trans List.filterMap_some
    rw [hsame, hcells, hflatten]
    simp [cells]

/-- Merging lines that carry some runs restores their memory. -/
theorem Carries.exists_ofLines (hcarries : Carries lines runs) (hsome : runs ≠ [])
    (hproper : ∀ run ∈ runs, run.Proper) (hapart : runs.Pairwise Apart) :
    ∃ rebuilt, ofLines lines = .ok rebuilt ∧ image rebuilt = image runs := by
  have hpieces : ∀ piece ∈ lines.filterMap Line.piece?, piece.Proper := by
    intro piece hpiece
    obtain ⟨line, hline, hget⟩ := List.mem_filterMap.mp hpiece
    rcases hcarries.plain line hline with rfl | ⟨other, hother, rfl⟩
    · cases hget
    · rw [piece?_dataLine hother.nonempty] at hget
      cases hget
      exact hother
  have hready : ∀ line ∈ lines, line.Ready := by
    intro line hline
    rcases hcarries.plain line hline with rfl | ⟨piece, hpiece, rfl⟩
    · exact .inl rfl
    · exact .inr ⟨piece, piece?_dataLine hpiece.nonempty, rfl, hpiece.nonempty⟩
  have hpiecesApart : (lines.filterMap Line.piece?).Pairwise Apart := by
    rwa [pairwise_apart_iff_cells, hcarries.cells_eq, ← pairwise_apart_iff_cells]
  have hpiecesSome : lines.filterMap Line.piece? ≠ [] := by
    intro hnone
    have hcells := hcarries.cells_eq
    obtain ⟨run, rest, rfl⟩ := List.exists_cons_of_ne_nil hsome
    obtain ⟨byte, bytes, hbytes⟩ :=
      List.exists_cons_of_ne_nil (hproper run List.mem_cons_self).nonempty
    rw [hnone] at hcells
    simp [cells, hbytes, cellsFrom] at hcells
  obtain ⟨rebuilt, hrebuilt⟩ := Run.exists_ofLines hready hpiecesSome hpieces hpiecesApart
  obtain ⟨-, -, -, hfilled⟩ := pieces_of_ofLines hready hrebuilt
  refine ⟨rebuilt, hrebuilt, image_congr hfilled.apart hapart ?_⟩
  intro cell
  rw [hfilled.perm.mem_iff, hcarries.cells_eq]

end Run

/-! ## Assembling the source -/

namespace Progress

variable {setting : Setting} {progress : Progress} {source : List Text} {lines : List Line}

/-- Lines of bytes are assembled to lines of data, each where the one before it ends. -/
theorem Reached.bytesLines {address : UInt32} {stretches : List (List UInt8)} {rows : List Text}
    (hreached : Reached setting source lines progress) (htarget : progress.target = some address)
    (hopen : progress.ended = false) (hrows : List.Forall₂ BytesLine stretches rows) :
    ∃ next, Reached setting (source ++ rows)
        (lines ++ (addressed address stretches).map Run.dataLine) next ∧ next.ended = false := by
  induction hrows generalizing source lines progress address with
  | nil => exact ⟨progress, by simpa [addressed] using hreached, hopen⟩
  | @cons stretch row stretches rows hrow _ ih =>
      obtain ⟨tokens, hparse, hbytes⟩ := hrow.parse
      have hobeyed : Obeyed setting progress (.formBytes tokens) (.data address stretch) _ :=
        .formBytes htarget (hbytes progress.symbols)
      have hnext := hreached.step (hobeyed.step hparse (.inr hopen))
      obtain ⟨last, hlast, hlastOpen⟩ := ih hnext rfl hopen
      refine ⟨last, ?_, hlastOpen⟩
      simpa [addressed, Run.dataLine] using hlast

theorem Reached.spelledRun {run : Run} {part : List Text}
    (hreached : Reached setting source lines progress) (hopen : progress.ended = false)
    (hmultiple : setting.multipleOrigins = true) (hrun : run.Proper) (hpart : SpellsRun run part) :
    ∃ more next, Reached setting (source ++ part) (lines ++ more) next ∧ next.ended = false ∧
      Run.Carries more [run] := by
  obtain ⟨origin, rows, stretches, horigin, hrows, hflatten, rfl⟩ := hpart
  obtain ⟨token, hparse, hvalue⟩ := horigin.parse
  have hlimit : run.start ≤ wordMax := by
    have hbound := hrun.bounded
    have hlength := hrun.length_pos
    show run.start.toNat ≤ 0xFFFF
    omega
  have hobeyed : Obeyed setting progress (.origin token) .empty _ :=
    .origin (.inr hmultiple) hvalue hlimit
  have hstart := hreached.step (hobeyed.step hparse (.inr hopen))
  obtain ⟨next, hnext, hnextOpen⟩ := hstart.bytesLines rfl hopen hrows
  refine ⟨.empty :: (addressed run.start stretches).map Run.dataLine, next, ?_, hnextOpen, ?_⟩
  · simpa using hnext
  · apply Run.carries_empty.append
    apply Run.carries_addressed hrun.bounded hflatten
    intro stretch hstretch
    obtain ⟨i, hget⟩ := List.getElem?_of_mem hstretch
    obtain ⟨row, -, hrow⟩ := Outcome.getElem?_of_forall₂ hrows hget
    exact hrow.nonempty

theorem Reached.spelledRuns {runs : List Run} {parts : List (List Text)}
    (hreached : Reached setting source lines progress) (hopen : progress.ended = false)
    (hmultiple : setting.multipleOrigins = true) (hruns : ∀ run ∈ runs, run.Proper)
    (hparts : List.Forall₂ SpellsRun runs parts) :
    ∃ more next, Reached setting (source ++ parts.flatten) (lines ++ more) next ∧
      next.ended = false ∧ Run.Carries more runs := by
  induction hparts generalizing source lines progress with
  | nil => exact ⟨[], progress, by simpa using hreached, hopen, Run.carries_nil⟩
  | @cons run part runs parts hpart _ ih =>
      obtain ⟨hrun, hrest⟩ := List.forall_mem_cons.mp hruns
      obtain ⟨first, middle, hfirst, hmiddleOpen, hcarries⟩ :=
        hreached.spelledRun hopen hmultiple hrun hpart
      obtain ⟨rest, last, hlast, hlastOpen, hcarries'⟩ := ih hfirst hmiddleOpen hrest
      refine ⟨first ++ rest, last, ?_, hlastOpen, hcarries.append hcarries'⟩
      simpa using hlast

end Progress

namespace Program

variable {runs : List Run}

/-- The plainest source that spells some runs: the bytes of each run are in one line. -/
def plainSource (runs : List Run) : List Text :=
  (runs.flatMap fun run =>
    [render (.origin ('$' :: hex run.start.toNat)),
      render (.formBytes (run.bytes.map fun byte => '$' :: byteHex byte))]) ++ [render .finish]

theorem spells_plainSource (hproper : ∀ run ∈ runs, run.Proper) :
    Spells runs (plainSource runs) := by
  refine ⟨runs, _, render .finish, .refl runs, ?_, finishLine_render, rfl⟩
  rw [List.forall₂_map_right_iff, List.forall₂_same]
  intro run hrun
  have hbytes : BytesLine run.bytes
      (render (.formBytes (run.bytes.map fun byte => '$' :: byteHex byte))) := by
    apply bytesLine_render (mt List.map_eq_nil_iff.mp (hproper run hrun).nonempty)
    rw [List.forall₂_map_right_iff, List.forall₂_same]
    exact fun byte _ => ⟨byteHex byte, numeral?_byteHex byte, rfl⟩
  exact ⟨_, _, [run.bytes], originLine_render (numeral?_hex _), .cons hbytes .nil, by simp, rfl⟩

/-- Every memory can be written as a source.  Take any runs that lie within the 16-bit address
space, hold something each and share no address.  There is a source that spells them, and every such
source assembles with any table if several `ORG` lines are allowed; merging its lines succeeds and
restores the memory that the runs fill. -/
theorem image_of_spells (hsome : runs ≠ []) (hproper : ∀ run ∈ runs, run.Proper)
    (hapart : runs.Pairwise Run.Apart) :
    Spells runs (plainSource runs) ∧
      ∀ table source, Spells runs source →
        ∃ program rebuilt, assemble ⟨table, true⟩ source = .ok program ∧
          Run.ofLines program.lines = .ok rebuilt ∧ Run.image rebuilt = Run.image runs := by
  refine ⟨spells_plainSource hproper, ?_⟩
  rintro table source ⟨order, parts, finish, hperm, hparts, hfinish, rfl⟩
  have horderSome : order ≠ [] := by
    rintro rfl
    exact hsome hperm.nil_eq.symm
  have horderProper : ∀ run ∈ order, run.Proper :=
    fun run hrun => hproper run (hperm.mem_iff.mp hrun)
  have horderApart : order.Pairwise Run.Apart := (hperm.pairwise_iff Run.Apart.symm).mpr hapart
  have hstart : Progress.Reached ⟨table, true⟩ [] [] {} := .start
  obtain ⟨lines, progress, hreached, hopen, hcarries⟩ :=
    hstart.spelledRuns rfl rfl horderProper hparts
  rw [List.nil_append, List.nil_append] at hreached
  have hlast := hreached.step (Progress.Obeyed.finish.step hfinish.parse (.inr hopen))
  have hall : Run.Carries (lines ++ [.empty]) order := by
    simpa using hcarries.append Run.carries_empty
  obtain ⟨rebuilt, hrebuilt, himage⟩ := hall.exists_ofLines horderSome horderProper horderApart
  refine ⟨⟨lines ++ [.empty], progress.symbols⟩, rebuilt,
    assemble_eq_ok.mpr ⟨_, _, hlast, rfl, rfl, ?_⟩, hrebuilt, himage.trans ?_⟩
  · exact List.forall₂_same.mpr fun line hline =>
      Line.link_of_settled _ line (hall.pending_eq_nil hline)
  · exact Run.image_congr horderApart hapart fun cell => (hperm.flatMap_right _).mem_iff

/-- Two runs that touch each other, up to the top of the address space. -/
def topRuns : List Run := [⟨0xFFFD, [1, 2]⟩, ⟨0xFFFF, [0xAB]⟩]

/-- A source that spells the upper run first and the lower one in two lines. -/
def topSource : List Text :=
  [" ORG $FFFF".toList, " FCB $AB".toList, " ORG $fffd".toList, " FCB $1".toList,
    " FCB $02".toList, " END".toList]

theorem spells_topSource : Spells topRuns topSource := by
  have hbyte : ∀ (byte : UInt8) (digits : Text), numeral? 16 digits = some byte.toNat →
      BytesLine [byte] (render (.formBytes ['$' :: digits])) := by
    intro byte digits hdigits
    exact bytesLine_render (List.cons_ne_nil _ _) (.cons ⟨digits, hdigits, rfl⟩ .nil)
  have hupper : SpellsRun ⟨0xFFFF, [0xAB]⟩ [" ORG $FFFF".toList, " FCB $AB".toList] :=
    ⟨_, _, [[0xAB]], originLine_render (by decide : numeral? 16 "FFFF".toList = some 0xFFFF),
      .cons (hbyte 0xAB "AB".toList (by decide)) .nil, rfl, rfl⟩
  have hlower : SpellsRun ⟨0xFFFD, [1, 2]⟩
      [" ORG $fffd".toList, " FCB $1".toList, " FCB $02".toList] :=
    ⟨_, _, [[1], [2]], originLine_render (by decide : numeral? 16 "fffd".toList = some 0xFFFD),
      .cons (hbyte 1 "1".toList (by decide)) (.cons (hbyte 2 "02".toList (by decide)) .nil),
      rfl, rfl⟩
  exact ⟨[⟨0xFFFF, [0xAB]⟩, ⟨0xFFFD, [1, 2]⟩], _, _, .swap _ _ _,
    .cons hupper (.cons hlower .nil), finishLine_render, rfl⟩

theorem image_of_spells_topSource :
    Spells topRuns topSource ∧
      ∃ program rebuilt, assemble sampleSetting topSource = .ok program ∧
        Run.ofLines program.lines = .ok rebuilt ∧ Run.image rebuilt = Run.image topRuns := by
  have hproper : ∀ run ∈ topRuns, run.Proper := by
    simp only [topRuns, List.forall_mem_cons]
    exact ⟨⟨by decide, by decide⟩, ⟨by decide, by decide⟩, by simp⟩
  have hapart : topRuns.Pairwise Run.Apart := Run.pairwise_apart_iff_cells.mpr (by decide)
  obtain ⟨-, hall⟩ := image_of_spells (by decide) hproper hapart
  exact ⟨spells_topSource, hall sampleSetting.table topSource spells_topSource⟩

end Program

end TwoPass
