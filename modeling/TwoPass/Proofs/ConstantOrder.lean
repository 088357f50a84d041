import TwoPass.Proofs.Names

/-!
# Constants can be defined first

A name means what the constants defined so far make of it, so it matters in general where a constant
is defined: a jump to a name that becomes a constant further down goes to the label of that name.
This file shows that there is no other way in which it matters.  If no name is both a label and a
constant, all definitions of constants can be moved to the front of the source.

The run over the reordered source is compared with the original one line by line.  Once all
constants are defined it knows at every line what the original run knows there, and all constants in
addition (`Progress.withConstants`).

* `Encoded.extend`: with more constants an instruction is encoded in the same way, unless one of
  them has the name of a label that the instruction waits for.
* `Obeyed.withConstants`: the same for any statement that defines no constant.
* `Reached.hoisted`: the same for a whole run, by induction over its steps.

What the second pass has filled in is a label, which is why no constant can have its name.
-/

namespace TwoPass

variable {setting : Setting} {source : List Text} {lines : List Line} {line : Line}

/-! ## More constants -/

namespace Symbols

variable {symbols more : Symbols} {limit word : UInt32} {missing : Fault} {token : Text}

/-- Every constant of `symbols` is one of `more`, with the same value. -/
def Extends (more symbols : Symbols) : Prop :=
  ∀ name word, symbols.constant? name = some word → more.constant? name = some word

theorem Extends.value? (hextends : more.Extends symbols)
    (hvalue : symbols.value? token = some word) : more.value? token = some word := by
  unfold Symbols.value? at hvalue ⊢
  cases hliteral : Literal.value? token with
  | some literal =>
      rw [hliteral, Option.some_or] at hvalue
      rw [Option.some_or, hvalue]
  | none =>
      rw [hliteral, Option.none_or] at hvalue
      rw [Option.none_or, hextends token word hvalue]

theorem Extends.resolve (hextends : more.Extends symbols)
    (hresolve : symbols.resolve limit missing token = .ok word) :
    more.resolve limit missing token = .ok word := by
  obtain ⟨hvalue, hlimit⟩ := resolve_eq_ok.mp hresolve
  exact resolve_eq_ok.mpr ⟨hextends.value? hvalue, hlimit⟩

/-- A name that was left open stays open as long as it does not become a constant. -/
theorem Extends.resolveOrDefer {operand : Operand} (hextends : more.Extends symbols)
    (hopen : ∀ name, operand = .label name → more.constant? name = none)
    (hresolve : symbols.resolveOrDefer limit token = .ok operand) :
    more.resolveOrDefer limit token = .ok operand := by
  apply resolveOrDefer_eq_ok.mpr
  rcases resolveOrDefer_eq_ok.mp hresolve with ⟨word, hvalue, hlimit, hword⟩ | ⟨hnone, hlabel⟩
  · exact .inl ⟨word, hextends.value? hvalue, hlimit, hword⟩
  · have hliteral : Literal.value? token = none := (Option.or_eq_none_iff.mp hnone).1
    refine .inr ⟨?_, hlabel⟩
    show (Literal.value? token).or (more.constant? token) = none
    rw [hliteral, Option.none_or, hopen token hlabel]

theorem Extends.formByte {byte : UInt8} (hextends : more.Extends symbols)
    (hbyte : Progress.formByte symbols token = .ok byte) :
    Progress.formByte more token = .ok byte := by
  unfold Progress.formByte at hbyte ⊢
  cases hliteral : Literal.value? token with
  | some literal => rwa [hliteral] at hbyte
  | none =>
      simp only [hliteral] at hbyte ⊢
      split at hbyte
      next => cases hbyte
      next hsome =>
        rw [if_neg hsome]
        cases hconstant : symbols.constant? token with
        | none =>
            rw [hconstant] at hbyte
            cases hbyte
        | some word =>
            rw [hextends token word hconstant]
            rwa [hconstant] at hbyte

end Symbols

/-- The encoder asks for constants only where it needs a value, so more of them do no harm; where a
label may stand, they must not have its name. -/
theorem Instruction.Encoded.extend {symbols more : Symbols} {mnemonic : Text} {entry : Entry}
    {tokens : List Text} {instruction : Instruction} (hextends : more.Extends symbols)
    (hopen : ∀ name, .label name ∈ instruction.operands → more.constant? name = none)
    (hencoded : Encoded symbols mnemonic entry tokens instruction) :
    Encoded more mnemonic entry tokens instruction := by
  -- A target that has become an operand is resolved in the same way.
  have hdefer : ∀ limit token target, target ∈ instruction.operands →
      symbols.resolveOrDefer limit token = .ok target →
      more.resolveOrDefer limit token = .ok target := by
    intro limit token target hmem htarget
    refine hextends.resolveOrDefer (fun name hname => hopen name ?_) htarget
    rwa [hname] at hmem
  cases hencoded with
  | inherent hopcode => exact .inherent hopcode
  | branch hopcode htarget =>
      exact .branch hopcode (hdefer _ _ _ List.mem_cons_self htarget)
  | immediate hbranch hopcode hword =>
      exact .immediate hbranch hopcode (hextends.resolve hword)
  | indexed hbranch hplain hindex hopcode hoffset =>
      exact .indexed hbranch hplain hindex hopcode (hextends.resolve hoffset)
  | jump hbranch hplain hindex hjump hopcode htarget =>
      exact .jump hbranch hplain hindex hjump hopcode (hdefer _ _ _ List.mem_cons_self htarget)
  | call hbranch hplain hindex hcall htarget hplaced =>
      refine .call hbranch hplain hindex hcall (hdefer _ _ _ ?_ htarget) hplaced
      rw [hplaced.operands_eq]
      exact List.mem_cons_self
  | address hbranch hplain hindex hjump hcall hword hplaced =>
      exact .address hbranch hplain hindex hjump hcall (hextends.resolve hword) hplaced
  | special hcount hparts hbase hopcode haddress hmask htargets =>
      refine .special hcount hparts hbase hopcode (hextends.resolve haddress)
        (hextends.resolve hmask) (Outcome.mapM_eq_ok_of_imp htargets ?_)
      intro token _ target htarget
      exact hdefer _ _ _ (List.mem_cons_of_mem _ (List.mem_cons_of_mem _ htarget))

/-! ## Running with all constants -/

namespace Progress

variable {progress next : Progress} {statement : Statement} {constants : List (Text × UInt32)}

/-- What is known, with other constants. -/
def withConstants (progress : Progress) (constants : List (Text × UInt32)) : Progress :=
  { progress with symbols := { progress.symbols with constants } }

/-- Constants stay defined. -/
theorem Obeyed.extends (hobeyed : Obeyed setting progress statement line next) :
    next.symbols.Extends progress.symbols := by
  intro name word hconstant
  unfold Symbols.constant? at hconstant ⊢
  rcases hobeyed.constants with ⟨_, _, _, -, -, -, hnext⟩ | ⟨-, hnext⟩
  · rw [hnext, List.lookup_append, hconstant, Option.some_or]
  · rw [hnext, hconstant]

/-- One step: a statement that defines no constant does the same if more constants are known. -/
theorem Obeyed.withConstants (hobeyed : Obeyed setting progress statement line next)
    (hplain : ∀ name value, statement ≠ .constant name value)
    (hextends : (progress.withConstants constants).symbols.Extends progress.symbols)
    (hopen : ∀ entry ∈ line.pending, constants.lookup entry.2 = none) :
    Obeyed setting (progress.withConstants constants) statement line
      (next.withConstants constants) := by
  cases hobeyed with
  | blank => exact .blank
  | label htarget hfresh => exact .label htarget hfresh
  | @constant name value => exact absurd rfl (hplain name value)
  | origin hallowed hvalue hlimit => exact .origin hallowed hvalue hlimit
  | finish => exact .finish
  | formBytes htarget hbytes =>
      refine .formBytes htarget (Outcome.mapM_eq_ok_of_imp hbytes ?_)
      intro token _ byte _
      exact hextends.formByte
  | @instruction mnemonic operands address instruction htarget hencode =>
      obtain ⟨entry, hlookup, hencoded⟩ := Instruction.encode_cases hencode
      refine .instruction htarget (Instruction.encode_eq_ok.mpr ⟨entry, hlookup, ?_⟩)
      refine hencoded.extend hextends fun name hname => ?_
      -- The label is among those that the line waits for.
      obtain ⟨i, hget⟩ := List.getElem?_of_mem hname
      exact hopen (i, name) (Instruction.mem_pendingFrom.mpr ⟨i, (Nat.zero_add i).symm, hget⟩)

end Progress

/-! ## Moving the definitions to the front -/

/-- The name that a source line defines as a constant. -/
def constantOf? (text : Text) : Option Text :=
  match Statement.parse text with
  | .ok (.constant name _) => some name
  | _ => none

/-- Whether a source line defines a constant. -/
def definesConstant (text : Text) : Bool := (constantOf? text).isSome

/-- The lines that define constants, and after them all others, both in their order. -/
def hoistConstants (source : List Text) : List Text :=
  source.filter definesConstant ++ source.filter (!definesConstant ·)

theorem definesConstant_iff {text : Text} {statement : Statement}
    (hparse : Statement.parse text = .ok statement) :
    definesConstant text = true ↔ ∃ name value, statement = .constant name value := by
  unfold definesConstant constantOf?
  rw [hparse]
  cases statement <;> simp

/-- The lines that hold code. -/
def codeLines (lines : List Line) : List Line := lines.filter (!·.isEmpty)

theorem codeLines_append (lines others : List Line) :
    codeLines (lines ++ others) = codeLines lines ++ codeLines others :=
  List.filter_append ..

theorem codeLines_empty : codeLines [.empty] = [] := rfl

namespace Progress

variable {progress next : Progress} {statement : Statement} {constants : List (Text × UInt32)}

/-- The definitions alone lead to all constants and to no code. -/
theorem Reached.definitions (hreached : Reached setting source lines progress) :
    ∃ front, codeLines front = [] ∧
      Reached setting (source.filter definesConstant) front
        (({} : Progress).withConstants progress.symbols.constants) := by
  induction hreached with
  | start => exact ⟨[], rfl, .start⟩
  | @step source lines progress next text line _ hstep ih =>
      obtain ⟨front, hempty, hfront⟩ := ih
      obtain ⟨statement, hparse, -, hobeyed⟩ := step_cases hstep
      rw [List.filter_append]
      rcases hobeyed.constants with ⟨name, value, word, rfl, hvalue, hfresh, hnext⟩ |
        ⟨hother, hnext⟩
      · have hdefines := (definesConstant_iff hparse).mpr ⟨name, value, rfl⟩
        have hdefined : Obeyed setting (({} : Progress).withConstants progress.symbols.constants)
            (.constant name value) .empty
            (({} : Progress).withConstants next.symbols.constants) := by
          rw [hnext]
          exact .constant hvalue hfresh
        refine ⟨front ++ [.empty], ?_, ?_⟩
        · rw [codeLines_append, hempty, codeLines_empty, List.append_nil]
        · rw [List.filter_cons_of_pos hdefines, List.filter_nil]
          exact hfront.step (hdefined.step hparse (.inr rfl))
      · have hplain : ¬definesConstant text = true := by
          rw [definesConstant_iff hparse]
          rintro ⟨name, value, heq⟩
          exact hother name value heq
        rw [List.filter_cons_of_neg hplain, List.filter_nil, List.append_nil, hnext]
        exact ⟨front, hempty, hfront⟩

/-- All other lines do the same after the definitions as among them.  The induction goes over the
steps of the original run; `constants` are those that it ends with. -/
theorem Reached.hoisted {front : List Text} {frontLines : List Line}
    (hreached : Reached setting source lines progress)
    (hfront : Reached setting front frontLines (({} : Progress).withConstants constants))
    (hextends : (progress.withConstants constants).symbols.Extends progress.symbols)
    (hopen : ∀ line ∈ lines, ∀ entry ∈ line.pending, constants.lookup entry.2 = none) :
    ∃ rest, codeLines rest = codeLines lines ∧
      Reached setting (front ++ source.filter (!definesConstant ·)) (frontLines ++ rest)
        (progress.withConstants constants) := by
  induction hreached with
  | start => exact ⟨[], rfl, by simpa using hfront⟩
  | @step source lines progress next text line _ hstep ih =>
      obtain ⟨statement, hparse, hended, hobeyed⟩ := step_cases hstep
      -- What is known before the step extends to all constants as well.
      have hbefore : (progress.withConstants constants).symbols.Extends progress.symbols :=
        fun name word hconstant => hextends name word (hobeyed.extends name word hconstant)
      obtain ⟨rest, hcode, hrest⟩ := ih hbefore fun line hline =>
        hopen line (List.mem_append_left _ hline)
      rw [List.filter_append, codeLines_append]
      by_cases hdefines : definesConstant text = true
      · obtain ⟨name, value, rfl⟩ := (definesConstant_iff hparse).mp hdefines
        rw [List.filter_cons_of_neg (by simp [hdefines]), List.filter_nil, List.append_nil]
        cases hobeyed with
        | constant =>
            rw [codeLines_empty, List.append_nil]
            exact ⟨rest, hcode, hrest⟩
      · have hplain : ∀ name value, statement ≠ .constant name value := by
          intro name value heq
          exact hdefines ((definesConstant_iff hparse).mpr ⟨name, value, heq⟩)
        have hsame : (progress.withConstants constants).step setting text =
            .ok (line, next.withConstants constants) :=
          (hobeyed.withConstants hplain hbefore (hopen line (by simp))).step hparse hended
        refine ⟨rest ++ [line], ?_, ?_⟩
        · rw [codeLines_append, hcode]
        · rw [List.filter_cons_of_pos (by simp [hdefines]), List.filter_nil, ← List.append_assoc,
            ← List.append_assoc]
          exact hrest.step hsame

end Progress

/-! ## Whole programs -/

namespace Program

variable {program : Program} {progress : Progress} {symbols : Symbols} {linked others : List Line}

theorem empty_or_address_of_reached (hreached : Progress.Reached setting source lines progress)
    (hline : line ∈ lines) : line = .empty ∨ line.address.isSome := by
  obtain ⟨n, hget⟩ := List.getElem?_of_mem hline
  obtain ⟨statement, _, _, -, -, hobeyed⟩ := hreached.obeyed_at hget
  obtain ⟨haddress, hempty⟩ := hobeyed.isCode
  by_cases hcode : statement.isCode = true
  · exact .inr (haddress.mpr hcode)
  · exact .inl (hempty hcode)

/-- Filling in labels neither makes lines empty nor fills empty ones. -/
theorem codeLines_of_link (hlines : ∀ line ∈ lines, line = .empty ∨ line.address.isSome)
    (hlinked : List.Forall₂ (fun line after => line.link symbols = .ok after) lines linked) :
    List.Forall₂ (fun line after => line.link symbols = .ok after)
      (codeLines lines) (codeLines linked) := by
  induction hlinked with
  | nil => exact .nil
  | @cons line after lines linked hlink _ ih =>
      obtain ⟨hfirst, hrest⟩ := List.forall_mem_cons.mp hlines
      have hsame : after.isEmpty = line.isEmpty := by
        rcases hfirst with rfl | haddress
        · rw [Line.link_of_settled _ _ rfl] at hlink
          rw [Except.ok.inj hlink]
        · obtain ⟨address, haddress⟩ := Option.isSome_iff_exists.mp haddress
          rw [Line.link_frame hlink]
          simp [Line.isEmpty, haddress]
      unfold codeLines at ih ⊢
      by_cases hempty : line.isEmpty = true
      · rw [List.filter_cons_of_neg (by simp [hempty]),
          List.filter_cons_of_neg (by simp [hsame, hempty])]
        exact ih hrest
      · rw [List.filter_cons_of_pos (by simp [hempty]),
          List.filter_cons_of_pos (by simp [hsame, hempty])]
        exact .cons hlink (ih hrest)

/-- Lines with the same code can be filled in if one of them can, to the same code. -/
theorem exists_linked_of_codeLines (hlines : ∀ line ∈ lines, line = .empty ∨ line.address.isSome)
    (hothers : ∀ line ∈ others, line = .empty ∨ line.address.isSome)
    (hcode : codeLines others = codeLines lines)
    (hlinked : List.Forall₂ (fun line after => line.link symbols = .ok after) lines linked) :
    ∃ result, List.Forall₂ (fun line after => line.link symbols = .ok after) others result ∧
      codeLines result = codeLines linked := by
  have hall : ∀ line ∈ others, ∃ after, line.link symbols = .ok after := by
    intro line hline
    rcases hothers line hline with rfl | haddress
    · exact ⟨.empty, Line.link_of_settled _ _ rfl⟩
    · have hmem : line ∈ codeLines lines := by
        rw [← hcode]
        refine List.mem_filter.mpr ⟨hline, ?_⟩
        simp [Line.isEmpty, Option.isNone_eq_false_iff.mpr haddress]
      obtain ⟨i, hget⟩ := List.getElem?_of_mem (List.mem_of_mem_filter hmem)
      obtain ⟨after, -, hlink⟩ := Outcome.getElem?_of_forall₂ hlinked hget
      exact ⟨after, hlink⟩
  obtain ⟨result, hresult⟩ := Outcome.exists_mapM_eq_ok hall
  have hlinked' := Outcome.mapM_eq_ok.mp hresult
  refine ⟨result, hlinked', ?_⟩
  -- Both come from the same code.
  have hfirst := codeLines_of_link hothers hlinked'
  have hsecond := codeLines_of_link hlines hlinked
  rw [hcode] at hfirst
  exact Except.ok.inj ((Outcome.mapM_eq_ok.mpr hfirst).symm.trans (Outcome.mapM_eq_ok.mpr hsecond))

theorem mem_labelOf?_of_label? {name : Text} {address : UInt32}
    (hreached : Progress.Reached setting source lines progress)
    (hlabel : progress.symbols.label? name = some address) :
    name ∈ source.filterMap labelOf? := by
  have hdefined : ∃ n, Reads source n (.label name) := by
    by_contra hnowhere
    rw [hreached.label?_eq_none.mpr (not_exists.mp hnowhere)] at hlabel
    cases hlabel
  obtain ⟨n, hreads⟩ := hdefined
  obtain ⟨text, hget, hparse⟩ := reads_iff.mp hreads
  exact List.mem_filterMap.mpr ⟨text, List.mem_of_getElem? hget, by simp [labelOf?, hparse]⟩

theorem mem_constantOf?_of_constant? {name : Text} {word : UInt32}
    (hreached : Progress.Reached setting source lines progress)
    (hconstant : progress.symbols.constant? name = some word) :
    name ∈ source.filterMap constantOf? := by
  obtain ⟨n, -, value, hreads, -⟩ := hreached.constant?_eq_some.mp hconstant
  obtain ⟨text, hget, hparse⟩ := reads_iff.mp hreads
  exact List.mem_filterMap.mpr ⟨text, List.mem_of_getElem? hget, by simp [constantOf?, hparse]⟩

/-- A name that a line has waited for is that of a label, and of no constant. -/
theorem constant?_eq_none_of_pending
    (hdistinct : (source.filterMap labelOf?).Disjoint (source.filterMap constantOf?))
    (hreached : Progress.Reached setting source lines progress)
    (hlinked : List.Forall₂ (fun line after => line.link progress.symbols = .ok after)
      lines linked) :
    ∀ line ∈ lines, ∀ entry ∈ line.pending, progress.symbols.constant? entry.2 = none := by
  intro line hline entry hentry
  obtain ⟨n, hget⟩ := List.getElem?_of_mem hline
  obtain ⟨after, -, hlink⟩ := Outcome.getElem?_of_forall₂ hlinked hget
  obtain ⟨numbers, hnumbers, -⟩ := Outcome.map_eq_ok.mp hlink
  obtain ⟨i, hi⟩ := List.getElem?_of_mem hentry
  obtain ⟨number, -, hnumber⟩ := Outcome.getElem?_of_forall₂ (Outcome.mapM_eq_ok.mp hnumbers) hi
  obtain ⟨value, hvalue, -⟩ := Outcome.map_eq_ok.mp hnumber
  obtain ⟨target, htarget, -⟩ := Line.labelNumber_eq_ok.mp hvalue
  by_contra hsome
  obtain ⟨word, hword⟩ := Option.ne_none_iff_exists'.mp hsome
  exact hdistinct (mem_labelOf?_of_label? hreached htarget)
    (mem_constantOf?_of_constant? hreached hword)

/-- Constants can be defined first.  If a source assembles and no name is both a label and a
constant of it, then the source with all its constants at the front assembles as well, to the same
code, the same labels and the same constants. -/
theorem hoisted_of_assemble (hassemble : assemble setting source = .ok program)
    (hdistinct : (source.filterMap labelOf?).Disjoint (source.filterMap constantOf?)) :
    ∃ hoisted, assemble setting (hoistConstants source) = .ok hoisted ∧
      codeLines hoisted.lines = codeLines program.lines ∧
      hoisted.symbols.labels = program.symbols.labels ∧
      hoisted.symbols.constants = program.symbols.constants := by
  obtain ⟨lines, progress, hreached, hended, hsymbols, hlinked⟩ := assemble_eq_ok.mp hassemble
  obtain ⟨front, hempty, hfront⟩ := hreached.definitions
  have hopen := constant?_eq_none_of_pending hdistinct hreached hlinked
  obtain ⟨rest, hcode, hrest⟩ := hreached.hoisted hfront (fun _ _ hconstant => hconstant) hopen
  have hsame : codeLines (front ++ rest) = codeLines lines := by
    rw [codeLines_append, hempty, hcode, List.nil_append]
  obtain ⟨result, hresult, hresultCode⟩ := exists_linked_of_codeLines
    (fun _ => empty_or_address_of_reached hreached) (fun _ => empty_or_address_of_reached hrest)
    hsame hlinked
  refine ⟨⟨result, progress.symbols⟩, ?_, hresultCode, ?_, ?_⟩
  · exact assemble_eq_ok.mpr ⟨front ++ rest, _, hrest, hended, rfl, hresult⟩
  · rw [hsymbols]
  · rw [hsymbols]

/-- A source that defines a constant between two lines of code. -/
def lateConstantSource : List Text :=
  [" ORG $0100".toList, "LOOP".toList, " JMP DONE".toList, "MASK EQU $0F".toList,
    " BRSET $20,#MASK LOOP".toList, "DONE".toList, " END".toList]

theorem hoisted_of_lateConstantSource :
    (lateConstantSource.filterMap labelOf?).Disjoint (lateConstantSource.filterMap constantOf?) ∧
    ∃ program hoisted, assemble sampleSetting lateConstantSource = .ok program ∧
      assemble sampleSetting (hoistConstants lateConstantSource) = .ok hoisted ∧
      codeLines hoisted.lines = codeLines program.lines ∧
      hoisted.symbols.labels = program.symbols.labels ∧
      hoisted.symbols.constants = program.symbols.constants := by
  have hassemble : assemble sampleSetting lateConstantSource = .ok ⟨[{}, {},
      ⟨some 0x100, some (.short 0x7E), some .extended, [0x107], [], 3⟩, {},
      ⟨some 0x103, some (.short 0x12), some .direct, [0x20, 0x0F, -7], [], 4⟩, {}, {}],
      ⟨[("LOOP".toList, 0x100), ("DONE".toList, 0x107)], [("MASK".toList, 0x0F)]⟩⟩ := by
    decide +kernel
  have hdistinct : (lateConstantSource.filterMap labelOf?).Disjoint
      (lateConstantSource.filterMap constantOf?) := by
    have hapart : ∀ name ∈ lateConstantSource.filterMap labelOf?,
        name ∉ lateConstantSource.filterMap constantOf? := by decide +kernel
    exact fun name hlabel => hapart name hlabel
  obtain ⟨hoisted, hhoisted⟩ := hoisted_of_assemble hassemble hdistinct
  exact ⟨hdistinct, _, hoisted, hassemble, hhoisted⟩

end Program

end TwoPass
