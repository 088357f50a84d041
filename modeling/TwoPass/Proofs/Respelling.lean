import Mathlib.Logic.Relation
import TwoPass.Proofs.CodeSize
import TwoPass.Proofs.Words

/-!
# Layout and letter case do not matter

A line can be spelled in many ways: with another comment or none, with other blanks between its
words and after them, and with other letters for a keyword or a mnemonic.  `Respelling` is one such
change.  It leaves the statement of the line as it is, except for the letters of a mnemonic, and
those do not matter to the encoder; so the first pass takes the same step for both lines
(`step_eq_of_respelled`), and the two sources assemble to the same result, be it a program or a
fault.

A line that says nothing can also be added anywhere.  The lines before it are assembled as before,
and those after it only move down by one, in the program and in the report of a fault.  Both passes
go line by line, so this is one induction over the position for each (`run_insertIdx`,
`linkFrom_insertIdx`).
-/

namespace TwoPass

open Text

/-! ## Spelling a line in another way -/

/-- A change of a line that its meaning does not depend on. -/
inductive Respelling : Text → Text → Prop
  /-- Another comment after the code. -/
  | comment {code old new : Text} (hcode : '*' ∉ code) (hold : IsComment old)
      (hnew : IsComment new) : Respelling (code ++ old) (code ++ new)
  /-- Other blanks in a gap. -/
  | gap {front old new back : Text} (hold : IsGap old) (hnew : IsGap new) :
      Respelling (front ++ (old ++ back)) (front ++ (new ++ back))
  /-- Other blanks at the end. -/
  | trailing {line old new : Text} (hold : AllBlank old) (hnew : AllBlank new) :
      Respelling (line ++ old) (line ++ new)
  /-- Other letters for the keyword after a name. -/
  | keyword {name gap old new rest : Text} (hname : IsWord name) (hgap : IsGap gap)
      (hold : IsWord old) (hnew : IsWord new) (hrest : EndsWord rest)
      (hsame : sameWord old new = true) :
      Respelling (name ++ (gap ++ (old ++ rest))) (name ++ (gap ++ (new ++ rest)))
  /-- Other letters for the directive or the mnemonic of an indented line. -/
  | head {gap old new rest : Text} (hgap : IsGap gap) (hold : IsWord old) (hnew : IsWord new)
      (hrest : EndsWord rest) (hsame : sameWord old new = true) :
      Respelling (gap ++ (old ++ rest)) (gap ++ (new ++ rest))

/-- Two lines that any number of such changes lead from one to the other. -/
def Respelled : Text → Text → Prop := Relation.ReflTransGen Respelling

/-- A line that is blank, or a comment only. -/
def Vacant (line : Text) : Prop :=
  ∃ blanks comment, AllBlank blanks ∧ IsComment comment ∧ line = blanks ++ comment

namespace Statement

variable {line other : Text}

/-- What is read from two spellings of a line: the same, or the same mnemonic in other letters. -/
inductive Alike : Except Fault Statement → Except Fault Statement → Prop
  | refl (parsed : Except Fault Statement) : Alike parsed parsed
  | instruction {old new : Text} (hsame : sameWord old new = true) (operands : List Text) :
      Alike (.ok (.instruction old operands)) (.ok (.instruction new operands))

theorem Alike.of_eq {first second : Except Fault Statement} (heq : first = second) :
    Alike first second := heq ▸ .refl first

/-- A line is read by its words and by where it starts, which matters only if there are words. -/
theorem parse_congr (hwords : codeWords line = codeWords other)
    (hstart : codeWords line ≠ [] → startsBlank line = startsBlank other) :
    parse line = parse other := by
  unfold parse
  rw [← hwords]
  cases hcode : codeWords line with
  | nil => rfl
  | cons head operands =>
      rw [hstart (by rw [hcode]; exact List.cons_ne_nil head operands)]

/-- What comes after a front that has all the words does not matter. -/
theorem parse_append_congr {front old new : Text} {code : List Text}
    (hold : codeWords (front ++ old) = code) (hnew : codeWords (front ++ new) = code)
    (hempty : front = [] → code = []) : parse (front ++ old) = parse (front ++ new) := by
  apply parse_congr (hold.trans hnew.symm)
  intro hsome
  have hfront : front ≠ [] := fun hnone => hsome (hold.trans (hempty hnone))
  rw [startsBlank_append hfront, startsBlank_append hfront]

theorem parseMargin_congr {old new : Text} (hsame : sameWord old new = true) (name : Text)
    (operands : List Text) :
    parseMargin name (old :: operands) = parseMargin name (new :: operands) := by
  unfold parseMargin
  simp only [sameWord_congr hsame]

theorem alike_parseIndented {old new : Text} (hsame : sameWord old new = true)
    (operands : List Text) : Alike (parseIndented old operands) (parseIndented new operands) := by
  unfold parseIndented
  simp only [sameWord_congr hsame]
  by_cases horigin : sameWord new "org".toList = true
  · rw [if_pos horigin, if_pos horigin]
    exact .refl _
  rw [if_neg horigin, if_neg horigin]
  by_cases hfinish : sameWord new "end".toList = true
  · rw [if_pos hfinish, if_pos hfinish]
    exact .refl _
  rw [if_neg hfinish, if_neg hfinish]
  by_cases hbytes : sameWord new "fcb".toList = true
  · rw [if_pos hbytes, if_pos hbytes]
    exact .refl _
  rw [if_neg hbytes, if_neg hbytes]
  exact .instruction hsame operands

theorem parse_of_vacant (hvacant : Vacant line) : parse line = .ok .blank := by
  obtain ⟨blanks, comment, hblank, hcomment, rfl⟩ := hvacant
  have hwords : codeWords (blanks ++ comment) = [] := by
    have hcode := codeWords_append_comment (hblank.not_mem (by decide)) hcomment
    rw [hcode, ← List.append_nil blanks, words_blanks_append hblank]
    rfl
  rw [parse, hwords]

end Statement

open Statement

/-- Both spellings of a line are read alike. -/
theorem Respelling.alike {line other : Text} (hrespelling : Respelling line other) :
    Alike (parse line) (parse other) := by
  cases hrespelling with
  | comment hcode hold hnew =>
      apply Alike.of_eq
      apply parse_append_congr (codeWords_append_comment hcode hold)
        (codeWords_append_comment hcode hnew)
      rintro rfl
      rfl
  | @gap front old new back hold hnew =>
      apply Alike.of_eq
      apply parse_congr (codeWords_gap_congr hold hnew front back)
      intro _
      by_cases hfront : front = []
      · rw [hfront, List.nil_append, List.nil_append, hold.startsBlank, hnew.startsBlank]
      · rw [startsBlank_append hfront, startsBlank_append hfront]
  | @trailing line old new hold hnew =>
      apply Alike.of_eq
      apply parse_append_congr (codeWords_append_blanks hold line)
        (codeWords_append_blanks hnew line)
      rintro rfl
      rfl
  | @keyword name gap old new rest hname hgap hold hnew hrest hsame =>
      have hparse : ∀ word, IsWord word → parse (name ++ (gap ++ (word ++ rest))) =
          parseMargin name (word :: codeWords rest) := by
        intro word hword
        refine parse_of_margin ?_ (hname.startsBlank _)
        rw [codeWords_append_gap hname.code hgap, words_of_isWord hname,
          codeWords_word_append hword hrest, List.singleton_append]
      apply Alike.of_eq
      rw [hparse old hold, hparse new hnew, parseMargin_congr hsame]
  | @head gap old new rest hgap hold hnew hrest hsame =>
      have hparse : ∀ word, IsWord word → parse (gap ++ (word ++ rest)) =
          parseIndented word (codeWords rest) := by
        intro word hword
        refine parse_of_indented ?_ (hgap.startsBlank _)
        rw [codeWords_gap_append hgap, codeWords_word_append hword hrest]
      rw [hparse old hold, hparse new hnew]
      exact alike_parseIndented hsame _

/-! ## Assembling another spelling -/

theorem Table.lookup_congr {old new : Text} (table : Table) (hsame : sameWord old new = true) :
    table.lookup old = table.lookup new := by
  rw [lookup, lookup, sameWord_iff.mp hsame]

/-- The letters of a mnemonic do not matter, not even for the jumps that the encoder tells apart by
their names. -/
theorem Instruction.encode_congr {old new : Text} (table : Table) (symbols : Symbols)
    (hsame : sameWord old new = true) (tokens : List Text) :
    encode table symbols old tokens = encode table symbols new tokens := by
  have hoperand : ∀ modes token,
      encodeOperand symbols old modes token = encodeOperand symbols new modes token := by
    intro modes token
    simp only [encodeOperand, encodeAddress, sameWord_congr hsame]
  have hstandard : ∀ modes,
      encodeStandard symbols old modes tokens = encodeStandard symbols new modes tokens := by
    intro modes
    rcases tokens with _ | ⟨token, _ | ⟨second, rest⟩⟩
    · rfl
    · exact hoperand modes token
    · rfl
  simp only [encode, Table.lookup_congr table hsame, hstandard]

namespace Progress

variable {setting : Setting} {progress : Progress} {source : List Text}

theorem step_congr {line other : Text} (halike : Alike (parse line) (parse other)) :
    progress.step setting line = progress.step setting other := by
  unfold step
  generalize parse line = parsed at halike ⊢
  generalize parse other = parsed' at halike ⊢
  cases halike with
  | refl => rfl
  | instruction hsame operands =>
      simp only [obey, Instruction.encode_congr setting.table progress.symbols hsame]

theorem step_eq_of_respelled {line other : Text} (hrespelled : Respelled line other)
    (progress : Progress) : progress.step setting line = progress.step setting other := by
  induction hrespelled with
  | refl => rfl
  | tail _ hrespelling ih => rw [ih, step_congr hrespelling.alike]

theorem run_eq_of_respelled {respelled : List Text}
    (hall : List.Forall₂ Respelled source respelled) (progress : Progress) (index : Nat) :
    progress.run setting index source = progress.run setting index respelled := by
  induction hall generalizing progress index with
  | nil => rfl
  | cons hfirst _ ih => simp only [run, step_eq_of_respelled hfirst, ih]

end Progress

theorem Program.layOut_eq_of_respelled {setting : Setting} {source respelled : List Text}
    (hall : List.Forall₂ Respelled source respelled) :
    layOut setting source = layOut setting respelled := by
  rw [layOut, layOut, Progress.run_eq_of_respelled hall, hall.length_eq]

/-! ## Adding a line that says nothing -/

/-- A fault as it is reported after a line has been added at a position. -/
def Diagnostic.pushedFrom (position : Nat) (diagnostic : Diagnostic) : Diagnostic :=
  if position ≤ diagnostic.line then { diagnostic with line := diagnostic.line + 1 } else diagnostic

theorem Diagnostic.pushedFrom_of_le {position line : Nat} (hle : position ≤ line) (fault : Fault) :
    pushedFrom position ⟨line, fault⟩ = ⟨line + 1, fault⟩ := if_pos hle

theorem Diagnostic.pushedFrom_of_lt {position line : Nat} (hlt : line < position) (fault : Fault) :
    pushedFrom position ⟨line, fault⟩ = ⟨line, fault⟩ := if_neg (Nat.not_le.mpr hlt)

/-- A program with an empty line added at a position. -/
def Program.insertEmpty (position : Nat) (program : Program) : Program :=
  { program with lines := program.lines.insertIdx position .empty }

open Diagnostic

namespace Progress

variable {setting : Setting} {source : List Text} {text : Text}

theorem step_of_vacant (hvacant : Vacant text) (progress : Progress) :
    progress.step setting text = .ok (.empty, progress) := by
  unfold step
  rw [parse_of_vacant hvacant]

/-- A run that starts one line later reports its faults one line later. -/
theorem run_succ {position index : Nat} (hle : position ≤ index) (progress : Progress) :
    progress.run setting (index + 1) source =
      (progress.run setting index source).mapError (pushedFrom position) := by
  induction source generalizing progress index with
  | nil => rfl
  | cons first rest ih =>
      rw [run, run]
      cases progress.step setting first with
      | error fault => simp only [Except.mapError, pushedFrom_of_le hle]
      | ok result =>
          have hrest := ih (Nat.le_succ_of_le hle) result.2
          simp only [hrest]
          cases result.2.run setting (index + 1) rest <;> rfl

theorem run_insertIdx (hvacant : Vacant text) (position : Nat) (progress : Progress) (index : Nat) :
    progress.run setting index (source.insertIdx position text) =
      ((progress.run setting index source).map fun result =>
        (result.1.insertIdx position .empty, result.2)).mapError
          (pushedFrom (index + position)) := by
  -- Along the lines before the position, each of which is taken as it was.
  induction position generalizing source progress index with
  | zero =>
      rw [List.insertIdx_zero, run, step_of_vacant hvacant]
      simp only [run_succ (Nat.le_refl index)]
      cases progress.run setting index source <;> rfl
  | succ position ih =>
      cases source with
      | nil => rfl
      | cons first rest =>
          rw [List.insertIdx_succ_cons, run, run]
          cases progress.step setting first with
          | error fault =>
              have hbefore : index < index + (position + 1) := by omega
              simp only [Except.map, Except.mapError, pushedFrom_of_lt hbefore]
          | ok result =>
              simp only [ih, Nat.add_assoc, Nat.add_comm 1]
              cases result.2.run setting (index + 1) rest <;> rfl

end Progress

namespace Line

variable {symbols : Symbols}

theorem linkFrom_succ {position index : Nat} (hle : position ≤ index) (lines : List Line) :
    linkFrom symbols (index + 1) lines =
      ((linkFrom symbols index lines).1,
        (linkFrom symbols index lines).2.map (pushedFrom position)) := by
  induction lines generalizing index with
  | nil => rfl
  | cons line rest ih =>
      rw [linkFrom, linkFrom]
      cases line.link symbols with
      | error fault => simp only [Option.map_some, pushedFrom_of_le hle]
      | ok linked => simp only [ih (Nat.le_succ_of_le hle)]

theorem linkFrom_insertIdx (position index : Nat) (lines : List Line) :
    linkFrom symbols index (lines.insertIdx position .empty) =
      ((linkFrom symbols index lines).1.insertIdx position .empty,
        (linkFrom symbols index lines).2.map (pushedFrom (index + position))) := by
  induction position generalizing index lines with
  | zero =>
      rw [List.insertIdx_zero, linkFrom, link_of_settled symbols .empty rfl]
      simp only [linkFrom_succ (Nat.le_refl index)]
      rfl
  | succ position ih =>
      cases lines with
      | nil => rfl
      | cons line rest =>
          rw [List.insertIdx_succ_cons, linkFrom, linkFrom]
          cases line.link symbols with
          | error fault =>
              have hbefore : index < index + (position + 1) := by omega
              simp only [Option.map_some, pushedFrom_of_lt hbefore, List.insertIdx_succ_cons]
          | ok linked => simp only [ih, List.insertIdx_succ_cons, Nat.add_assoc, Nat.add_comm 1]

end Line

namespace Program

variable {setting : Setting} {source : List Text} {text : Text} {position : Nat}

theorem layOut_insertIdx (hvacant : Vacant text) (hposition : position ≤ source.length) :
    layOut setting (source.insertIdx position text) =
      ((layOut setting source).map (insertEmpty position)).mapError (pushedFrom position) := by
  unfold layOut
  rw [Progress.run_insertIdx hvacant, List.length_insertIdx_of_le_length hposition, Nat.zero_add]
  cases ({} : Progress).run setting 0 source with
  | error diagnostic => rfl
  | ok result =>
      obtain ⟨lines, progress⟩ := result
      simp only [Except.map, Except.mapError]
      by_cases hended : progress.ended = true
      · simp only [hended, if_true]
        rfl
      · simp only [hended, Bool.false_eq_true, if_false, pushedFrom_of_le hposition]

theorem link_insertEmpty (position : Nat) (draft : Program) :
    (insertEmpty position draft).link =
      (draft.link.map (insertEmpty position)).mapError (pushedFrom position) := by
  unfold link Line.linkAll
  rw [insertEmpty, Line.linkFrom_insertIdx, Nat.zero_add]
  cases hlink : Line.linkFrom draft.symbols 0 draft.lines with
  | mk lines stopped => cases stopped <;> rfl

theorem assemble_insertIdx (hvacant : Vacant text) (hposition : position ≤ source.length) :
    assemble setting (source.insertIdx position text) =
      ((assemble setting source).map (insertEmpty position)).mapError (pushedFrom position) := by
  rw [assemble, assemble, layOut_insertIdx hvacant hposition]
  cases layOut setting source with
  | error diagnostic => rfl
  | ok draft => exact link_insertEmpty position draft

/-- Neither layout nor letter case matters.  A source that is spelled in another way assembles to
the same program or fails with the same fault, and a blank line or a comment that is added anywhere
only adds an empty line there, or moves the fault that is reported after it. -/
theorem assemble_respelled (setting : Setting) :
    (∀ source respelled, List.Forall₂ Respelled source respelled →
      assemble setting respelled = assemble setting source) ∧
    ∀ source text position, Vacant text → position ≤ source.length →
      assemble setting (source.insertIdx position text) =
        ((assemble setting source).map (insertEmpty position)).mapError
          (pushedFrom position) := by
  refine ⟨?_, fun source text position => assemble_insertIdx⟩
  intro source respelled hall
  rw [assemble, assemble, layOut_eq_of_respelled hall]

/-- A source in plain spelling. -/
def neatSource : List Text :=
  [" ORG $0100".toList, "ONE EQU 1".toList, "HERE".toList, " FCB ONE".toList, " END".toList]

/-- The same source with another kind of change in each line. -/
def looseSource : List Text :=
  ["\tORG $0100".toList, "ONE equ 1".toList, "HERE  ".toList, " fcb ONE".toList,
    " END* done".toList]

theorem respelled_looseSource : List.Forall₂ Respelled neatSource looseSource := by
  have horigin : Respelling ([] ++ ([' '] ++ "ORG $0100".toList))
      ([] ++ (['\t'] ++ "ORG $0100".toList)) := .gap (by decide) (by decide)
  have hconstant : Respelling ("ONE".toList ++ ([' '] ++ ("EQU".toList ++ " 1".toList)))
      ("ONE".toList ++ ([' '] ++ ("equ".toList ++ " 1".toList))) :=
    .keyword (by decide) (by decide) (by decide) (by decide) (by decide) (by decide)
  have hlabel : Respelling ("HERE".toList ++ []) ("HERE".toList ++ [' ', ' ']) :=
    .trailing (by decide) (by decide)
  have hbytes : Respelling ([' '] ++ ("FCB".toList ++ " ONE".toList))
      ([' '] ++ ("fcb".toList ++ " ONE".toList)) :=
    .head (by decide) (by decide) (by decide) (by decide) (by decide)
  have hfinish : Respelling (" END".toList ++ []) (" END".toList ++ "* done".toList) :=
    .comment (by decide) (by decide) (by decide)
  exact .cons (.single horigin) (.cons (.single hconstant) (.cons (.single hlabel)
    (.cons (.single hbytes) (.cons (.single hfinish) .nil))))

theorem assemble_respelled_looseSource :
    List.Forall₂ Respelled neatSource looseSource ∧ Vacant "  * code".toList ∧
    ∃ program, assemble sampleSetting neatSource = .ok program ∧
      assemble sampleSetting looseSource = .ok program ∧
      assemble sampleSetting (neatSource.insertIdx 3 "  * code".toList) =
        .ok (insertEmpty 3 program) := by
  have hassemble : assemble sampleSetting neatSource = .ok ⟨[{}, {}, {},
      ⟨some 0x100, some (.short 1), none, [], [], 1⟩, {}],
      ⟨[("HERE".toList, 0x100)], [("ONE".toList, 1)]⟩⟩ := by decide +kernel
  have hvacant : Vacant "  * code".toList :=
    ⟨"  ".toList, "* code".toList, by decide, by decide, by decide⟩
  obtain ⟨hrespelled, hinserted⟩ := assemble_respelled sampleSetting
  refine ⟨respelled_looseSource, hvacant, _, hassemble, ?_, ?_⟩
  · rw [hrespelled _ _ respelled_looseSource, hassemble]
  · rw [hinserted neatSource _ 3 hvacant (by decide), hassemble]
    rfl

end Program

end TwoPass
