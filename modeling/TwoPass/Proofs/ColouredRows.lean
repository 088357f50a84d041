import TwoPass.Proofs.Outputs

/-!
# Colours do not change what a listing shows

A plain row writes all bytes of a line at once, a coloured row paints one group of bytes after the
other and puts blanks between them.  The two show the same bytes because no group is empty
(`Line.byteGroups_ne_nil`), so there is one blank between any two bytes either way
(`Text.spacedHex_flatten`), and because nothing but control sequences is painted around them
(`Style.strip_intercalate`).

Whether there is a row at all depends on the line alone (`Listing.shown`), so both listings stop at
the same line, with the same error.
-/

namespace TwoPass

/-! ## Text without its styles -/

namespace Style

variable {text rest : Text}

/-- The character with which control sequences begin. -/
def escape : Char := Char.ofNat 0x1B

theorem strip_append (htext : escape ∉ text) (rest : Text) :
    strip (text ++ rest) = text ++ strip rest := by
  induction text with
  | nil => rfl
  | cons c text ih =>
      have hmore : escape ∉ text := fun hmem => htext (List.mem_cons_of_mem _ hmem)
      have hplain : (c.toNat == 0x1B) = false := by
        refine beq_eq_false_iff_ne.mpr fun hcode => htext ?_
        rw [show escape = c from Char.toNat_inj.mp hcode.symm]
        exact List.mem_cons_self
      have hrest := ih hmore
      rw [strip] at hrest
      rw [strip, List.cons_append, stripFrom, if_neg Bool.false_ne_true, hplain,
        if_neg Bool.false_ne_true, hrest]
      rfl

/-- A control sequence lasts until the letter at its end. -/
theorem stripFrom_append (htext : 'm' ∉ text) (rest : Text) :
    stripFrom true (text ++ 'm' :: rest) = strip rest := by
  induction text with
  | nil => rfl
  | cons c text ih =>
      have hmore : 'm' ∉ text := fun hmem => htext (List.mem_cons_of_mem _ hmem)
      have hother : (c != 'm') = true :=
        bne_iff_ne.mpr fun hsame => htext (hsame ▸ List.mem_cons_self)
      rw [List.cons_append, stripFrom, if_pos rfl, hother]
      exact ih hmore

theorem strip_control_append (number : Nat) (rest : Text) :
    strip (control number ++ rest) = strip rest := by
  have hdigits : 'm' ∉ '[' :: Text.decimal number := by
    refine List.not_mem_cons_of_ne_of_not_mem (by decide) ?_
    exact Text.not_mem_of_numeral? (Text.numeral?_decimal number) (by decide)
  have hsequence := stripFrom_append hdigits rest
  simp only [control, List.cons_append, List.append_assoc, List.nil_append] at hsequence ⊢
  exact hsequence

theorem strip_paint_append (style : Style) (htext : escape ∉ text) (rest : Text) :
    strip (style.paint text ++ rest) = text ++ strip rest := by
  rw [paint, List.append_assoc, List.append_assoc, strip_control_append, strip_append htext,
    strip_control_append]

theorem not_mem_control {c : Char} (hcontrol : c ∉ [escape, '[', 'm'])
    (hdigit : Text.digitOf 10 c = none) (number : Nat) : c ∉ control number := by
  have hnumber := Text.not_mem_of_numeral? (Text.numeral?_decimal number) hdigit
  intro hmem
  simp only [control, List.cons_append, List.mem_cons, List.mem_append, List.not_mem_nil,
    or_false] at hmem
  simp only [escape, List.mem_cons, List.not_mem_nil, or_false] at hcontrol
  tauto

/-- A character that belongs to no control sequence is in a painted text only if it was there
before. -/
theorem not_mem_paint {c : Char} (style : Style) (htext : c ∉ text)
    (hcontrol : c ∉ [escape, '[', 'm']) (hdigit : Text.digitOf 10 c = none) :
    c ∉ style.paint text := by
  have hsequence := not_mem_control hcontrol hdigit
  rw [paint, List.mem_append, List.mem_append]
  rintro ((hmem | hmem) | hmem)
  · exact hsequence _ hmem
  · exact htext hmem
  · exact hsequence _ hmem

/-- A span shows a text in some style. -/
def Paints (span text : Text) : Prop := ∃ style : Style, span = style.paint text

theorem strip_intercalate {spans texts : List Text} (hspans : List.Forall₂ Paints spans texts)
    (htexts : ∀ text ∈ texts, escape ∉ text) :
    strip ([' '].intercalate spans) = [' '].intercalate texts := by
  induction hspans with
  | nil => rfl
  | @cons span text spans texts hspan hspans ih =>
      obtain ⟨style, rfl⟩ := hspan
      obtain ⟨htext, hmore⟩ := List.forall_mem_cons.mp htexts
      have hrest := ih hmore
      cases hspans with
      | nil =>
          rw [List.intercalate_singleton, List.intercalate_singleton, ← List.append_nil (paint _ _),
            strip_paint_append style htext]
          exact List.append_nil text
      | cons hsecond hspans =>
          rw [List.intercalate_cons_cons, List.intercalate_cons_cons, List.append_assoc,
            List.append_assoc, strip_paint_append style htext, strip_append (by decide), hrest]

end Style

/-! ## Groups of bytes -/

namespace Text

theorem intercalate_append {separator : Char} {texts others : List Text} (htexts : texts ≠ [])
    (hothers : others ≠ []) : [separator].intercalate (texts ++ others) =
      [separator].intercalate texts ++ [separator] ++ [separator].intercalate others := by
  induction texts with
  | nil => exact absurd rfl htexts
  | cons first rest ih =>
      cases rest with
      | nil =>
          rw [List.singleton_append, List.intercalate_cons_of_ne_nil hothers,
            List.intercalate_singleton]
      | cons second rest =>
          have hrest := ih (List.cons_ne_nil second rest)
          rw [List.cons_append] at hrest
          rw [List.cons_append, List.cons_append, List.intercalate_cons_cons, hrest,
            List.intercalate_cons_cons]
          simp only [List.append_assoc]

/-- Bytes in groups are spaced like the bytes themselves, as long as no group is empty. -/
theorem spacedHex_flatten {groups : List (List UInt8)} (hgroups : ∀ group ∈ groups, group ≠ []) :
    spacedHex groups.flatten = [' '].intercalate (groups.map spacedHex) := by
  induction groups with
  | nil => rfl
  | cons group rest ih =>
      obtain ⟨hgroup, hrest⟩ := List.forall_mem_cons.mp hgroups
      cases rest with
      | nil => rw [List.flatten_singleton, List.map_singleton, List.intercalate_singleton]
      | cons second rest =>
          have hmore : (second :: rest).flatten ≠ [] :=
            List.flatten_ne_nil_iff.mpr ⟨second, List.mem_cons_self, hrest _ List.mem_cons_self⟩
          rw [List.flatten_cons, spacedHex, List.map_append,
            intercalate_append (mt List.map_eq_nil_iff.mp hgroup) (mt List.map_eq_nil_iff.mp hmore),
            List.map_cons, List.map_cons, List.intercalate_cons_cons, ← List.map_cons,
            ← ih hrest]
          rfl

end Text

namespace Line

variable {line : Line} {groups : List (List UInt8)}

theorem operandBytes_ne_nil {address : UInt32} {width : Nat} {operand : Int} {group : List UInt8}
    (hgroup : operandBytes address width operand = .ok group) : group ≠ [] := by
  obtain ⟨hslot, -⟩ := operandBytes_eq_ok_iff.mp hgroup
  refine List.length_pos_iff.mp ?_
  rw [(shows_of_operandBytes hgroup).length]
  exact hslot.width_pos

theorem byteGroups_ne_nil (hgroups : line.byteGroups = .ok groups) :
    ∀ group ∈ groups, group ≠ [] := by
  obtain ⟨operands, hoperands, rfl⟩ := Outcome.map_eq_ok.mp hgroups
  intro group hgroup
  rcases List.mem_append.mp hgroup with hopcode | hoperand
  · obtain ⟨opcode, -, rfl⟩ := List.mem_map.mp hopcode
    cases opcode <;> exact List.cons_ne_nil _ _
  · obtain ⟨i, hget⟩ := List.getElem?_of_mem hoperand
    obtain ⟨operand, -, hbytes⟩ :=
      Outcome.getElem?_of_forall₂_right (Outcome.mapM_eq_ok.mp hoperands) hget
    exact operandBytes_ne_nil hbytes

end Line

namespace Listing

variable {index : Nat} {line : Line} {lines : List Line} {source row text : Text}
  {sources result : List Text} {error : ObjectError}

/-! ## What a row shows -/

/-- The text of a row between its parentheses. -/
def inParentheses (row : Text) : Text := (row.dropWhile (· != '(')).tail.takeWhile (· != ')')

theorem inParentheses_append {before inside : Text} (hbefore : '(' ∉ before)
    (hinside : ')' ∉ inside) (after : Text) :
    inParentheses (before ++ '(' :: (inside ++ ')' :: after)) = inside := by
  rw [inParentheses, Text.dropWhile_ne_append hbefore, List.tail_cons,
    Text.takeWhile_ne_append hinside]

theorem parenthesis_not_mem_decimal (n : Nat) : '(' ∉ Text.decimal n :=
  Text.not_mem_of_numeral? (Text.numeral?_decimal n) (by decide)

theorem parenthesis_not_mem_addressHex (n : Nat) : '(' ∉ Text.addressHex n :=
  Text.not_mem_of_numeral? (Text.numeral?_addressHex n) (by decide)

/-- The bytes that the rows of a line show, if they show any. -/
def shown (line : Line) : Except ObjectError (Option (List UInt8)) :=
  match line.address with
  | none => .ok none
  | some _ => line.bytes.map some

theorem plainRow_eq_error (index : Nat) (line : Line) (source : Text) (error : ObjectError) :
    plainRow index line source = .error error ↔ shown line = .error error := by
  unfold plainRow body shown
  cases line.address with
  | none => exact ⟨nofun, nofun⟩
  | some address => simp only [Outcome.map_eq_error]

theorem colouredRow_eq_error (index : Nat) (line : Line) (source : Text) (error : ObjectError) :
    colouredRow index line source = .error error ↔ shown line = .error error := by
  unfold colouredRow shown
  cases line.address with
  | none => exact ⟨nofun, nofun⟩
  | some address => simp only [Line.bytes, Outcome.map_eq_error]

theorem inParentheses_plainRow {address : UInt32} (haddress : line.address = some address)
    (hrow : plainRow index line source = .ok row) :
    ∃ bytes, line.bytes = .ok bytes ∧ inParentheses row = Text.spacedHex bytes := by
  unfold plainRow body at hrow
  rw [haddress] at hrow
  obtain ⟨text, hbody, rfl⟩ := Outcome.map_eq_ok.mp hrow
  obtain ⟨bytes, hbytes, rfl⟩ := Outcome.map_eq_ok.mp hbody
  refine ⟨bytes, hbytes, ?_⟩
  have hopen : '(' ∉
      Text.decimal index ++ separator ++ Text.addressHex address.toNat ++ [' '] := by
    simp [parenthesis_not_mem_decimal, parenthesis_not_mem_addressHex, separator]
  have hclose : ')' ∉ Text.spacedHex bytes :=
    Text.not_mem_spacedHex (by decide) (by decide) bytes
  have hshown := inParentheses_append hopen hclose (separator ++ Text.trim source)
  refine Eq.trans (congrArg inParentheses ?_) hshown
  simp [separator]

theorem paints_operandSpans (position : Nat) (operands : List (List UInt8)) :
    List.Forall₂ Style.Paints (operandSpans position operands)
      (operands.map Text.spacedHex) := by
  induction operands generalizing position with
  | nil => exact .nil
  | cons operand rest ih => exact .cons ⟨_, rfl⟩ (ih (position + 1))

/-- The spans of a row are its groups of bytes in colours. -/
theorem paints_spans (groups : List (List UInt8)) :
    List.Forall₂ Style.Paints (spans groups) (groups.map Text.spacedHex) := by
  cases groups with
  | nil => exact .nil
  | cons opcode operands => exact .cons ⟨_, rfl⟩ (paints_operandSpans 0 operands)

theorem parenthesis_not_mem_spans (groups : List (List UInt8)) :
    ')' ∉ [' '].intercalate (spans groups) := by
  refine Text.not_mem_intercalate (by decide) fun span hspan => ?_
  obtain ⟨i, hget⟩ := List.getElem?_of_mem hspan
  obtain ⟨text, htext, style, rfl⟩ := Outcome.getElem?_of_forall₂ (paints_spans groups) hget
  obtain ⟨group, -, rfl⟩ := List.mem_map.mp (List.mem_of_getElem? htext)
  exact Style.not_mem_paint style (Text.not_mem_spacedHex (by decide) (by decide) group)
    (by decide) (by decide)

theorem inParentheses_colouredRow {address : UInt32} (haddress : line.address = some address)
    (hrow : colouredRow index line source = .ok row) :
    ∃ bytes, line.bytes = .ok bytes ∧
      Style.strip (inParentheses row) = Text.spacedHex bytes := by
  unfold colouredRow at hrow
  rw [haddress] at hrow
  obtain ⟨groups, hgroups, rfl⟩ := Outcome.map_eq_ok.mp hrow
  refine ⟨groups.flatten, by rw [Line.bytes, hgroups]; rfl, ?_⟩
  have hopen : '(' ∉ (Text.decimal index).leftpad 4 ' ' ++ separator ++
      Style.yellow.paint (Text.addressHex address.toNat) ++ [' '] := by
    have hpaint := Style.not_mem_paint .yellow (parenthesis_not_mem_addressHex address.toNat)
      (by decide) (by decide)
    simp [List.leftpad, parenthesis_not_mem_decimal, hpaint, separator]
  have hshown :=
    inParentheses_append hopen (parenthesis_not_mem_spans groups) (separator ++ source)
  have hplain : ∀ text ∈ groups.map Text.spacedHex, Style.escape ∉ text := by
    intro text htext
    obtain ⟨group, -, rfl⟩ := List.mem_map.mp htext
    exact Text.not_mem_spacedHex (by decide) (by decide) group
  rw [Text.spacedHex_flatten (Line.byteGroups_ne_nil hgroups),
    ← Style.strip_intercalate (paints_spans groups) hplain]
  refine congrArg Style.strip (Eq.trans (congrArg inParentheses ?_) hshown)
  simp [separator]

/-! ## Whole listings -/

section Rows

variable {row : Nat → Line → Text → Except ObjectError Text}

theorem rows_cons_of_ok (hfirst : row index line source = .ok text) :
    rows row index (line :: lines) (source :: sources) =
      (rows row (index + 1) lines sources).map (text :: ·) := by
  rw [rows, hfirst]
  rfl

theorem rows_cons_of_error (hfirst : row index line source = .error error) :
    rows row index (line :: lines) (source :: sources) = .error error := by
  rw [rows, hfirst]
  rfl

/-- If the rows of a line fail as it does itself, a listing stops at the first line that fails. -/
theorem rows_eq_error (hrow : ∀ index line source error,
      row index line source = .error error ↔ shown line = .error error) :
    rows row index lines sources = .error error ↔
      ∃ n < sources.length, Outcome.FirstFault shown lines n error := by
  induction lines generalizing index sources with
  | nil => simp [rows, Outcome.not_firstFault_nil]
  | cons line lines ih =>
      cases sources with
      | nil => simp [rows]
      | cons source sources =>
          cases hfirst : row index line source with
          | error other =>
              have hshown := (hrow index line source other).mp hfirst
              simp [rows_cons_of_error hfirst, Outcome.firstFault_cons_of_error hshown]
          | ok text =>
              obtain ⟨bytes?, hshown⟩ : ∃ bytes?, shown line = .ok bytes? := by
                cases hshown : shown line with
                | error other => cases hfirst.symm.trans ((hrow index line source other).mpr hshown)
                | ok bytes? => exact ⟨bytes?, rfl⟩
              rw [rows_cons_of_ok hfirst, Outcome.map_eq_error, ih]
              simp only [Outcome.firstFault_cons_of_ok hshown, List.length_cons]
              constructor
              · rintro ⟨n, hn, hfault⟩
                exact ⟨n + 1, Nat.succ_lt_succ hn, n, rfl, hfault⟩
              · rintro ⟨-, hn, n, rfl, hfault⟩
                exact ⟨n, Nat.lt_of_succ_lt_succ hn, hfault⟩

/-- The shorter of the two lists decides where a listing ends. -/
theorem length_rows (hrows : rows row index lines sources = .ok result) :
    result.length = min lines.length sources.length := by
  induction lines generalizing index sources result with
  | nil =>
      cases hrows
      simp
  | cons line lines ih =>
      cases sources with
      | nil =>
          cases hrows
          simp
      | cons source sources =>
          obtain ⟨first, rest, -, hrest, rfl⟩ := rows_cons_eq_ok.mp hrows
          rw [List.length_cons, ih hrest, List.length_cons, List.length_cons,
            Nat.add_min_add_right]

theorem getElem?_rows (hrows : rows row index lines sources = .ok result) {n : Nat}
    (hline : lines[n]? = some line) (hsource : sources[n]? = some source) :
    ∃ text, result[n]? = some text ∧ row (index + n) line source = .ok text := by
  induction lines generalizing index sources result n with
  | nil => cases hline
  | cons head lines ih =>
      cases sources with
      | nil => cases hsource
      | cons title sources =>
          obtain ⟨first, rest, hfirst, hrest, rfl⟩ := rows_cons_eq_ok.mp hrows
          cases n with
          | zero =>
              cases hline
              cases hsource
              exact ⟨first, rfl, hfirst⟩
          | succ n =>
              obtain ⟨text, hget, hrow⟩ := ih hrest hline hsource
              exact ⟨text, hget, by rw [← hrow]; congr 1; omega⟩

end Rows

/-- Coloured and plain listings agree.  Both have a row for each line that has a source line, or
both fail with the error of the first of these lines whose bytes cannot be formed.  In the two rows
of a line with an address, the bytes of the line stand between the parentheses, in the coloured row
once its colours are taken away. -/
theorem plain_coloured_agree (lines : List Line) (sources : List Text) :
    (∃ plainRows colouredRows, plain lines sources = .ok plainRows ∧
      coloured lines sources = .ok colouredRows ∧
      plainRows.length = min lines.length sources.length ∧
      colouredRows.length = min lines.length sources.length ∧
      ∀ (n : Nat) (line : Line) (address : UInt32), n < sources.length →
        lines[n]? = some line → line.address = some address →
        ∃ bytes plainRow colouredRow, line.bytes = .ok bytes ∧
          plainRows[n]? = some plainRow ∧ colouredRows[n]? = some colouredRow ∧
          inParentheses plainRow = Text.spacedHex bytes ∧
          Style.strip (inParentheses colouredRow) = Text.spacedHex bytes) ∨
    ∃ error, plain lines sources = .error error ∧ coloured lines sources = .error error ∧
      ∃ n < sources.length, Outcome.FirstFault shown lines n error := by
  cases hplainRows : plain lines sources with
  | error error =>
      have hfault := (rows_eq_error plainRow_eq_error).mp hplainRows
      exact .inr ⟨error, rfl, (rows_eq_error colouredRow_eq_error).mpr hfault, hfault⟩
  | ok plainRows =>
      cases hcolouredRows : coloured lines sources with
      | error error =>
          have hfault := (rows_eq_error colouredRow_eq_error).mp hcolouredRows
          cases hplainRows.symm.trans ((rows_eq_error plainRow_eq_error).mpr hfault)
      | ok colouredRows =>
          refine .inl ⟨plainRows, colouredRows, rfl, rfl, length_rows hplainRows,
            length_rows hcolouredRows, ?_⟩
          intro n line address hn hline haddress
          have hsource := List.getElem?_eq_getElem hn
          obtain ⟨plainRow, hplainGet, hplainRow⟩ := getElem?_rows hplainRows hline hsource
          obtain ⟨colouredRow, hcolouredGet, hcolouredRow⟩ :=
            getElem?_rows hcolouredRows hline hsource
          obtain ⟨bytes, hbytes, hplainShown⟩ := inParentheses_plainRow haddress hplainRow
          obtain ⟨bytes', hbytes', hcolouredShown⟩ :=
            inParentheses_colouredRow haddress hcolouredRow
          cases hbytes.symm.trans hbytes'
          exact ⟨bytes, plainRow, colouredRow, hbytes, hplainGet, hcolouredGet, hplainShown,
            hcolouredShown⟩

/-- A line with three groups of bytes, and one without code. -/
def groupedLines : List Line :=
  [{ address := some 0x10, opcode := some (.paged 0x18 0x1E), operands := [5, -1], size := 4 },
    .empty]

/-- There are parentheses in the source too, and one line too many. -/
def groupedSource : List Text :=
  [" brclr (5),x #255".toList, "* )".toList, " END".toList]

theorem plain_coloured_agree_grouped :
    ∃ plainRows colouredRows plainRow colouredRow,
      plain groupedLines groupedSource = .ok plainRows ∧
      coloured groupedLines groupedSource = .ok colouredRows ∧
      plainRows.length = 2 ∧ colouredRows.length = 2 ∧
      plainRows[0]? = some plainRow ∧ colouredRows[0]? = some colouredRow ∧
      inParentheses plainRow = "18 1E 05 FF".toList ∧
      Style.strip (inParentheses colouredRow) = "18 1E 05 FF".toList := by
  rcases plain_coloured_agree groupedLines groupedSource with
    ⟨plainRows, colouredRows, hplain, hcoloured, hplainLength, hcolouredLength, hrows⟩ |
    ⟨error, hplain, -⟩
  · obtain ⟨bytes, plainRow, colouredRow, hbytes, hplainGet, hcolouredGet, hplainShown, hshown⟩ :=
      hrows 0 _ 0x10 (by decide) rfl rfl
    cases hbytes.symm.trans (show _ = .ok [0x18, 0x1E, 5, 0xFF] by decide +kernel)
    exact ⟨plainRows, colouredRows, plainRow, colouredRow, hplain, hcoloured, hplainLength,
      hcolouredLength, hplainGet, hcolouredGet, hplainShown, hshown⟩
  · have hlisted : (plain groupedLines groupedSource).isOk = true := by decide +kernel
    rw [hplain] at hlisted
    cases hlisted

end Listing

end TwoPass
