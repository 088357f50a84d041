import TwoPass.Proofs.Addresses

/-!
# The counter does not wrap

The counter of the first pass is a word of 32 bits, and sizes are added to it without a check.  No
source of reasonable length can make it wrap: a line of code takes at least as many characters as it
has bytes (`Obeyed.size_le`), so the counter stands no further behind the last `ORG` than there are
characters before it (`Reached.target_le`).

The bound on a single line counts characters.  The words of an indented line need a blank before
each of them, so a mnemonic takes two characters and leaves room for an opcode of two bytes, and an
operand takes two characters at least and leaves room for an address.  Operands of special mnemonics
are one byte each; two of them in one token have a pair of characters between them.
-/

namespace TwoPass

/-! ## Counting characters -/

namespace Text

variable {text line : Text} {texts : List Text}

/-- The characters of some texts, with one more for each that parts it from the others. -/
def spacedLength (texts : List Text) : Nat := (texts.map (·.length + 1)).sum

@[simp] theorem spacedLength_nil : spacedLength [] = 0 := rfl

@[simp] theorem spacedLength_cons (text : Text) (texts : List Text) :
    spacedLength (text :: texts) = text.length + 1 + spacedLength texts := rfl

theorem length_le_spacedLength (texts : List Text) : texts.length ≤ spacedLength texts := by
  induction texts with
  | nil => exact Nat.le_refl 0
  | cons text rest ih =>
      rw [List.length_cons, spacedLength_cons]
      omega

theorem spacedLength_filter_le (p : Text → Bool) (texts : List Text) :
    spacedLength (texts.filter p) ≤ spacedLength texts := by
  induction texts with
  | nil => exact Nat.le_refl 0
  | cons text rest ih =>
      rw [List.filter_cons, spacedLength_cons]
      split
      · rw [spacedLength_cons]
        omega
      · omega

/-- A text that is split at single characters loses none but these. -/
theorem spacedLength_splitOnP (p : Char → Bool) (text : Text) :
    spacedLength (text.splitOnP p) = text.length + 1 := by
  induction text with
  | nil => rfl
  | cons c rest ih =>
      rw [List.splitOnP_cons_eq_if_modifyHead]
      split
      · rw [spacedLength_cons, ih, List.length_nil, List.length_cons]
        omega
      · obtain ⟨first, others, hpieces⟩ :=
          List.exists_cons_of_ne_nil (List.splitOnP_ne_nil p rest)
        rw [hpieces, spacedLength_cons] at ih
        rw [hpieces, List.modifyHead_cons, spacedLength_cons, List.length_cons, List.length_cons]
        omega

theorem spacedLength_words_le (text : Text) : spacedLength (words text) ≤ text.length + 1 := by
  rw [← spacedLength_splitOnP isBlank text]
  exact spacedLength_filter_le _ _

/-- The words of an indented line, each with a blank before it. -/
theorem spacedLength_codeWords_le (hstart : startsBlank line = true) :
    spacedLength (Statement.codeWords line) ≤ line.length := by
  cases line with
  | nil => cases hstart
  | cons c rest =>
      have hblank : IsGap [c] :=
        ⟨List.cons_ne_nil c [], by simpa [AllBlank, startsBlank] using hstart⟩
      have hshorter : (rest.takeWhile (· != '*')).length ≤ rest.length :=
        (List.takeWhile_prefix _).length_le
      calc spacedLength (Statement.codeWords ([c] ++ rest))
          = spacedLength (words (rest.takeWhile (· != '*'))) := by
            rw [Statement.codeWords_gap_append hblank, Statement.codeWords]
        _ ≤ (rest.takeWhile (· != '*')).length + 1 := spacedLength_words_le _
        _ ≤ ([c] ++ rest).length := by
            rw [List.singleton_append, List.length_cons]
            omega

/-- Each pair at which a text comes apart takes two characters of it. -/
theorem length_splitOnPair_le (first second : Char) (text : Text) :
    2 * (splitOnPair first second text).length ≤ text.length + 2 := by
  fun_induction splitOnPair first second text with
  | case1 => exact Nat.le_refl 2
  | case2 c => exact Nat.le_succ 2
  | case3 c d rest heq ih =>
      simp only [List.length_cons]
      omega
  | case4 c d rest hne ih =>
      rw [List.length_modifyHead]
      simp only [List.length_cons] at ih ⊢
      omega

end Text

open Text

/-! ## The size of a line -/

namespace Instruction

variable {symbols : Symbols} {mnemonic : Text} {entry : Entry} {tokens : List Text}
  {modes : Modes} {instruction : Instruction}

/-- There are no more operands than characters in the tokens that they were taken from. -/
theorem length_specialParts_le (htokens : ∀ token ∈ tokens, token ≠ []) :
    (specialParts tokens).length ≤ spacedLength tokens := by
  induction tokens with
  | nil => exact Nat.le_refl 0
  | cons token rest ih =>
      obtain ⟨htoken, hrest⟩ := List.forall_mem_cons.mp htokens
      have hlength : 0 < token.length := List.length_pos_iff.mpr htoken
      have hparts := length_splitOnPair_le ',' '#' token
      have hlater := ih hrest
      rw [specialParts] at hlater
      rw [specialParts, List.flatMap_cons, List.length_append, spacedLength_cons]
      omega

/-- An instruction with one operand has room for two bytes of opcode and two of operand. -/
theorem sized_size_le {mode : Mode} {opcode : Opcode} {operands : List Operand} {bytes : Nat}
    {token : Text} (hbytes : bytes ≤ 2) (htoken : token ≠ []) :
    (sized mode opcode operands bytes).size ≤ 2 + spacedLength [token] := by
  have hopcode := opcode.size_le
  have hlength : 0 < token.length := List.length_pos_iff.mpr htoken
  simp only [sized, spacedLength_cons, spacedLength_nil]
  omega

theorem Placed.size_le {operand : Operand} {token : Text}
    (hplaced : Placed modes operand instruction) (htoken : token ≠ []) :
    instruction.size ≤ 2 + spacedLength [token] := by
  cases hplaced with
  | direct => exact sized_size_le (by decide) htoken
  | extended => exact sized_size_le (by decide) htoken

/-- Two bytes for the mnemonic, and no more for the operands than their characters. -/
theorem Encoded.size_le_spacedLength
    (hencoded : Encoded symbols mnemonic entry tokens instruction)
    (htokens : ∀ token ∈ tokens, token ≠ []) : instruction.size ≤ 2 + spacedLength tokens := by
  have hsingle : ∀ {token : Text}, tokens = [token] → token ≠ [] := by
    rintro token rfl
    exact htokens token (List.mem_singleton_self token)
  cases hencoded with
  | inherent => exact Opcode.size_le _
  | branch | indexed | jump => exact sized_size_le (by decide) (hsingle rfl)
  | immediate => exact sized_size_le (by split <;> decide) (hsingle rfl)
  | call _ _ _ _ _ hplaced => exact hplaced.size_le (hsingle rfl)
  | address _ _ _ _ _ _ hplaced => exact hplaced.size_le (hsingle rfl)
  | @special special _ _ _ _ _ _ opcode _ _ _ hcount =>
      have hopcode := opcode.size_le
      have hparts := length_specialParts_le htokens
      simp only [sized]
      omega

end Instruction

namespace Progress

variable {setting : Setting} {progress next : Progress} {statement : Statement}
  {source : List Text} {lines : List Line} {text : Text} {line : Line} {address : UInt32}

/-- A line of code has no more bytes than the source line has characters. -/
theorem Obeyed.size_le (hobeyed : Obeyed setting progress statement line next)
    (hparse : Statement.parse text = .ok statement) : line.size ≤ text.length := by
  have hsaid := Statement.said_of_parse hparse
  cases hobeyed with
  | blank | label | constant | origin | finish => exact Nat.zero_le _
  | @formBytes tokens _ bytes _ hbytes =>
      cases hsaid with
      | @formBytes directive operand hstart hwords _ =>
          have hline := spacedLength_codeWords_le hstart
          have htokens := length_le_spacedLength (operand.splitOn ',')
          rw [List.splitOn_eq_splitOnP, spacedLength_splitOnP] at htokens
          rw [hwords, spacedLength_cons, spacedLength_cons] at hline
          have hcount := (Outcome.mapM_eq_ok.mp hbytes).length_eq
          rw [List.splitOn_eq_splitOnP] at hcount
          simp only [Line.data]
          omega
  | instruction _ hencode =>
      have hwell := hsaid.wellFormed
      cases hsaid with
      | instruction hstart hwords _ =>
          obtain ⟨entry, -, hencoded⟩ := Instruction.encode_cases hencode
          obtain ⟨hmnemonic, -, hoperands⟩ := hwell
          have hline := spacedLength_codeWords_le hstart
          have hlength := List.length_pos_iff.mpr hmnemonic.nonempty
          have hsize := hencoded.size_le_spacedLength fun token htoken =>
            (hoperands token htoken).nonempty
          rw [hwords, spacedLength_cons] at hline
          simp only [Instruction.toLine]
          omega

theorem Reached.size_le (hreached : Reached setting source lines progress) {n : Nat}
    (htext : source[n]? = some text) (hget : lines[n]? = some line) :
    line.size ≤ text.length := by
  obtain ⟨statement, before, after, hreads, -, hobeyed⟩ := hreached.obeyed_at hget
  obtain ⟨text', htext', hparse⟩ := reads_iff.mp hreads
  obtain rfl : text = text' := Option.some.inj (htext.symm.trans htext')
  exact hobeyed.size_le hparse

end Progress

/-! ## The range of the counter -/

/-- The number of characters of some lines. -/
def characters (source : List Text) : Nat := (source.map List.length).sum

/-- How far the counter can have come at a line. -/
def reach (source : List Text) (n : Nat) : Nat := 0xFFFF + characters (source.take n)

theorem characters_concat (source : List Text) (text : Text) :
    characters (source ++ [text]) = characters source + text.length := by
  simp [characters]

theorem characters_take_add_le {source : List Text} {text : Text} {n : Nat}
    (htext : source[n]? = some text) :
    characters (source.take n) + text.length ≤ characters source := by
  obtain ⟨hn, rfl⟩ := List.getElem?_eq_some_iff.mp htext
  have hsplit : source = source.take n ++ [source[n]] ++ source.drop (n + 1) := by simp
  have hchars : characters source =
      characters (source.take n ++ [source[n]]) + characters (source.drop (n + 1)) := by
    conv_lhs => rw [hsplit]
    simp only [characters, List.map_append, List.sum_append]
  rw [characters_concat] at hchars
  omega

namespace Progress

variable {setting : Setting} {progress next : Progress} {statement : Statement}
  {source : List Text} {lines : List Line} {text : Text} {line : Line} {address : UInt32}

theorem toNat_add_size (address : UInt32) (size : Nat) :
    (address + size.toUInt32).toNat = (address.toNat + size) % UInt32.size := by
  rw [UInt32.toNat_add, Nat.toUInt32, UInt32.toNat_ofNat']
  exact Nat.add_mod_mod ..

/-- A statement sets the counter to a word of 16 bits, leaves it, or moves it by the size of its
line. -/
theorem Obeyed.target_cases (hobeyed : Obeyed setting progress statement line next)
    (htarget : next.target = some address) :
    address ≤ wordMax ∨ progress.target = some address ∨
      ∃ before, progress.target = some before ∧ address = before + line.size.toUInt32 := by
  cases hobeyed with
  | blank | label | constant | finish => exact .inr (.inl htarget)
  | origin _ _ hlimit =>
      cases htarget
      exact .inl hlimit
  | formBytes hbefore _ =>
      cases htarget
      exact .inr (.inr ⟨_, hbefore, rfl⟩)
  | instruction hbefore _ =>
      cases htarget
      exact .inr (.inr ⟨_, hbefore, rfl⟩)

/-- The counter stays within the characters of the lines that have been taken.  If it wrapped, it
would only be lower. -/
theorem Reached.target_le (hreached : Reached setting source lines progress)
    (htarget : progress.target = some address) : address.toNat ≤ 0xFFFF + characters source := by
  induction hreached generalizing address with
  | start => cases htarget
  | @step source lines progress next text line hreached hstep ih =>
      obtain ⟨statement, hparse, -, hobeyed⟩ := step_cases hstep
      rw [characters_concat]
      rcases hobeyed.target_cases htarget with hlimit | hsame | ⟨before, hbefore, rfl⟩
      · have hword : address.toNat ≤ 0xFFFF := UInt32.le_iff_toNat_le.mp hlimit
        omega
      · have hold := ih hsame
        omega
      · have hold := ih hbefore
        have hsize := hobeyed.size_le hparse
        have hmove : (before + line.size.toUInt32).toNat ≤ before.toNat + line.size := by
          rw [toNat_add_size]
          exact Nat.mod_le _ _
        omega

theorem Reached.target_take_le {n : Nat} (hreached : Reached setting (source.take n) lines progress)
    (htarget : progress.target = some address) : address.toNat ≤ reach source n :=
  hreached.target_le htarget

/-- The first address after a line of code is a word. -/
theorem Reached.next_lt {n : Nat} (hshort : characters source + 0x10000 ≤ UInt32.size)
    (hreached : Reached setting (source.take n) lines progress) (htext : source[n]? = some text)
    (hparse : Statement.parse text = .ok statement)
    (hobeyed : Obeyed setting progress statement line next)
    (htarget : progress.target = some address) : address.toNat + line.size < UInt32.size := by
  have haddress := hreached.target_le htarget
  have hsize := hobeyed.size_le hparse
  have hchars := characters_take_add_le htext
  omega

/-- The label of a line stands where the counter was when the line was taken. -/
theorem Reached.target_of_marks (hreached : Reached setting source lines progress)
    {entry : Nat × Text} {label : Text × UInt32} (hmarks : Marks source lines entry label) :
    ∃ before, Reached setting (source.take entry.1) (lines.take entry.1) before ∧
      before.target = some label.2 := by
  obtain ⟨-, hreads, position, hlocated, hposition⟩ := hmarks
  have hn : entry.1 ≤ source.length := Nat.le_of_lt hreads.lt_length
  obtain ⟨line, before, after, -, hbefore, hobeyed⟩ := hreached.obeyed hreads
  cases hobeyed with
  | @label _ address htarget _ =>
      obtain ⟨position', hlocated', hposition'⟩ := hbefore.located htarget
      rw [List.length_take, Nat.min_eq_left hn] at hlocated'
      have hsame := (hlocated'.of_take hreached.length_eq hn).unique hlocated
      refine ⟨before, hbefore, ?_⟩
      rw [htarget, hposition', hposition, hsame]

end Progress

namespace Program

/-- The counter does not wrap.  A line of code of an accepted source has no more bytes than its
source line has characters.  If all lines together have no more than `2 ^ 32 - 2 ^ 16` characters,
the counter stands no further than the characters before it allow whenever a line is taken, the
size of the line is a word, and adding it to the counter is exact.  So the addresses of lines and
labels stay within the same range. -/
theorem counter_within_reach (setting : Setting) (source : List Text) :
    (∀ (draft : Program) (n : Nat) (text : Text) (line : Line),
      layOut setting source = .ok draft → source[n]? = some text →
      draft.lines[n]? = some line → line.size ≤ text.length) ∧
    (characters source + 0x10000 ≤ UInt32.size →
      (∀ (n : Nat) (lines : List Line) (progress : Progress),
        ({} : Progress).run setting 0 (source.take n) = .ok (lines, progress) →
        (∀ address, progress.target = some address → address.toNat ≤ reach source n) ∧
        ∀ text line next address, source[n]? = some text →
          progress.step setting text = .ok (line, next) → line.address = some address →
          progress.target = some address ∧ line.size.toUInt32.toNat = line.size ∧
            next.target = some (address + line.size.toUInt32) ∧
            (address + line.size.toUInt32).toNat = address.toNat + line.size) ∧
      ∀ draft : Program, layOut setting source = .ok draft →
        (∀ (n : Nat) (line : Line) (address : UInt32), draft.lines[n]? = some line →
          line.address = some address → address.toNat ≤ reach source n) ∧
        List.Forall₂ (fun entry label => label.1 = entry.2 ∧ label.2.toNat ≤ reach source entry.1)
          (labelLines source) draft.symbols.labels) := by
  refine ⟨?_, fun hshort => ⟨?_, ?_⟩⟩
  · intro draft n text line hlayOut htext hget
    obtain ⟨progress, hreached, -, -⟩ := layOut_cases hlayOut
    exact hreached.size_le htext hget
  · intro n lines progress hrun
    have hreached := Progress.reached_of_run hrun
    refine ⟨fun address => hreached.target_take_le, ?_⟩
    intro text line next address htext hstep haddress
    obtain ⟨statement, hparse, -, hobeyed⟩ := Progress.step_cases hstep
    obtain ⟨htarget, hnext⟩ := hobeyed.target_of_address haddress
    have hrange := hreached.next_lt hshort htext hparse hobeyed htarget
    have hsize : line.size.toUInt32.toNat = line.size := toNat_toUInt32 (by omega)
    refine ⟨htarget, hsize, hnext, ?_⟩
    rw [Progress.toNat_add_size, Nat.mod_eq_of_lt hrange]
  · intro draft hlayOut
    obtain ⟨progress, hreached, hsymbols, -⟩ := layOut_cases hlayOut
    refine ⟨?_, ?_⟩
    · intro n line address hget haddress
      obtain ⟨statement, before, after, -, hbefore, hobeyed⟩ := hreached.obeyed_at hget
      exact hbefore.target_take_le (hobeyed.target_of_address haddress).1
    · rw [hsymbols]
      refine hreached.labels.imp fun entry label hmarks => ⟨hmarks.1, ?_⟩
      obtain ⟨before, hbefore, htarget⟩ := hreached.target_of_marks hmarks
      exact hbefore.target_take_le htarget

/-- A mnemonic of one letter with opcodes of two bytes. -/
def pagedSetting : Setting where
  table :=
    { standard := [("i".toList, [(.inherent, .paged 0x18 0x08), (.extended, .paged 0x18 0xFE)])] }

/-- Both lines of code have as many bytes as characters, and the first one crosses `0xFFFF`. -/
def pagedSource : List Text :=
  [" ORG 65535".toList, " i".toList, "L".toList, " i 9".toList, " END".toList]

/-- The first three lines. -/
def pagedLines : List Line :=
  [.empty, { address := some 0xFFFF, opcode := some (.paged 0x18 0x08), mode := some .inherent,
             size := 2 }, .empty]

/-- What is known at the fourth line. -/
def pagedProgress : Progress where
  symbols := { labels := [("L".toList, 0x10001)] }
  target := some 0x10001

/-- The fourth line. -/
def pagedLine : Line where
  address := some 0x10001
  opcode := some (.paged 0x18 0xFE)
  mode := some .extended
  operands := [9]
  size := 4

theorem counter_within_reach_paged :
    characters pagedSource + 0x10000 ≤ UInt32.size ∧
      layOut pagedSetting pagedSource =
        .ok ⟨pagedLines ++ [pagedLine, .empty], pagedProgress.symbols⟩ ∧
      pagedLine.size = " i 9".toList.length ∧ pagedLine.size ≤ " i 9".toList.length ∧
      (0x10001 : UInt32).toNat ≤ reach pagedSource 3 ∧
      (0x10001 + pagedLine.size.toUInt32).toNat = (0x10001 : UInt32).toNat + pagedLine.size := by
  obtain ⟨hsizes, hcounter⟩ := counter_within_reach pagedSetting pagedSource
  have hshort : characters pagedSource + 0x10000 ≤ UInt32.size := by decide +kernel
  obtain ⟨hprefixes, hdraft⟩ := hcounter hshort
  have hlayOut : layOut pagedSetting pagedSource =
      .ok ⟨pagedLines ++ [pagedLine, .empty], pagedProgress.symbols⟩ := by
    decide +kernel
  have hrun : ({} : Progress).run pagedSetting 0 (pagedSource.take 3) =
      .ok (pagedLines, pagedProgress) := by
    decide +kernel
  have hstep : pagedProgress.step pagedSetting " i 9".toList =
      .ok (pagedLine, { pagedProgress with target := some 0x10005 }) := by
    decide +kernel
  obtain ⟨-, hexact⟩ := hprefixes 3 _ _ hrun
  obtain ⟨-, -, -, hsum⟩ := hexact _ _ _ _ rfl hstep rfl
  exact ⟨hshort, hlayOut, rfl, hsizes _ 3 _ _ hlayOut rfl rfl, (hdraft _ hlayOut).1 3 _ _ rfl rfl,
    hsum⟩

end Program

end TwoPass
