import TwoPass.Proofs.Addresses

/-!
# What names stand for

A name in the place of a branch target is decided at two different times.  The first pass takes it
for a constant if one has been defined so far, and else leaves it open; the second pass takes what
was left open for a label, wherever that is defined.

`Deferrable` are the places where a name can be left open.  The encoder leaves a name open there and
nowhere else (`Encoded.operand_of_deferrable`, `Encoded.deferrable_of_label`); `Earlier` says which
constants it knows.  From these the two halves of `names_of_assemble` follow: the number that
every such operand becomes, and the only way in which the second pass can fail.
-/

namespace TwoPass

variable {setting : Setting} {source : List Text} {lines : List Line} {line : Line} {n : Nat}
  {symbols : Symbols} {token : Text} {word : UInt32}

/-! ## Constants -/

/-- A constant of that name and value is defined before line `n`. -/
def Earlier (source : List Text) (n : Nat) (name : Text) (word : UInt32) : Prop :=
  ∃ k < n, ∃ value, Reads source k (.constant name value) ∧ Literal.value? value = some word

namespace Progress

variable {progress next : Progress} {statement : Statement} {name : Text}

theorem Obeyed.constants (hobeyed : Obeyed setting progress statement line next) :
    (∃ name value word, statement = .constant name value ∧ Literal.value? value = some word ∧
      progress.symbols.constant? name = none ∧
      next.symbols.constants = progress.symbols.constants ++ [(name, word)]) ∨
    ((∀ name value, statement ≠ .constant name value) ∧
      next.symbols.constants = progress.symbols.constants) := by
  cases hobeyed with
  | constant hvalue hfresh => exact .inl ⟨_, _, _, rfl, hvalue, hfresh, rfl⟩
  | blank | label | origin | finish | formBytes | instruction =>
      exact .inr ⟨fun _ _ => Statement.noConfusion, rfl⟩

/-- The constants that are known are those that the lines taken so far define. -/
theorem Reached.constant?_eq_some (hreached : Reached setting source lines progress) :
    progress.symbols.constant? name = some word ↔ Earlier source source.length name word := by
  induction hreached generalizing name word with
  | start =>
      constructor
      · intro hconstant
        cases hconstant
      · intro hearlier
        obtain ⟨k, hk, -⟩ := hearlier
        exact absurd hk (Nat.not_lt_zero k)
  | @step source lines progress next text line hreached hstep ih =>
      obtain ⟨statement, hparse, -, hobeyed⟩ := step_cases hstep
      have hreads : Reads (source ++ [text]) source.length statement :=
        reads_append_length.mpr hparse
      have hlength : (source ++ [text]).length = source.length + 1 := by simp
      -- The new line is the one that defines the constant, or it was defined before.
      have hsplit : Earlier (source ++ [text]) (source ++ [text]).length name word ↔
          Earlier source source.length name word ∨
            ∃ value, statement = .constant name value ∧ Literal.value? value = some word := by
        constructor
        · intro hearlier
          obtain ⟨k, hk, value, hconstant, hvalue⟩ := hearlier
          rw [hlength] at hk
          rcases Nat.lt_succ_iff_lt_or_eq.mp hk with hbefore | rfl
          · exact .inl ⟨k, hbefore, value, (reads_append_left hbefore).mp hconstant, hvalue⟩
          · exact .inr ⟨value, hreads.unique hconstant, hvalue⟩
        · intro hcases
          rcases hcases with ⟨k, hk, value, hconstant, hvalue⟩ | ⟨value, rfl, hvalue⟩
          · exact ⟨k, by omega, value, (reads_append_left hk).mpr hconstant, hvalue⟩
          · exact ⟨source.length, by omega, value, hreads, hvalue⟩
      rw [hsplit, ← ih, Symbols.constant?, Symbols.constant?]
      rcases hobeyed.constants with ⟨name', value, word', rfl, hvalue, hfresh, hnext⟩ |
          ⟨hother, hnext⟩
      · rw [Symbols.constant?] at hfresh
        rw [hnext, List.lookup_append]
        by_cases hname : name = name'
        · subst hname
          simp [hfresh, hvalue]
        · have hlast : List.lookup name [(name', word')] = none := by
            rw [List.lookup_cons, beq_false_of_ne hname]
            rfl
          rw [hlast, Option.or_none]
          constructor
          · exact .inl
          · intro hcases
            rcases hcases with hold | ⟨_, heq, -⟩
            · exact hold
            · exact absurd (Statement.constant.inj heq).1.symm hname
      · rw [hnext]
        constructor
        · exact .inl
        · intro hcases
          rcases hcases with hold | ⟨value, heq, -⟩
          · exact hold
          · exact absurd heq (hother name value)

/-- What a token denotes at line `n`: a literal, or a constant that was defined before. -/
theorem Reached.value?_eq_some (hreached : Reached setting (source.take n) lines progress)
    (hn : n ≤ source.length) :
    progress.symbols.value? token = some word ↔
      Literal.value? token = some word ∨
        Literal.value? token = none ∧ Earlier source n token word := by
  have hearlier : progress.symbols.constant? token = some word ↔ Earlier source n token word := by
    rw [hreached.constant?_eq_some, List.length_take, Nat.min_eq_left hn]
    unfold Earlier
    refine exists_congr fun k => and_congr_right fun hk => exists_congr fun value => ?_
    rw [reads_take hk]
  rw [Symbols.value?]
  cases hliteral : Literal.value? token with
  | none => simp [hearlier]
  | some found => simp

end Progress

/-! ## Places where a name can be left open -/

namespace Instruction

variable {table : Table} {mnemonic : Text} {entry : Entry} {tokens : List Text} {position : Nat}
  {instruction : Instruction} {operand : Operand} {modes : Modes}

/-- The operands of an instruction that may be labels: the position among the operands, and the
token that stands there. -/
inductive Deferrable (table : Table) (mnemonic : Text) : List Text → Nat → Text → Prop
  /-- The operand of a mnemonic with a relative mode. -/
  | branch {modes : Modes} {opcode : Opcode} {token : Text}
      (hentry : table.lookup mnemonic = some (.standard modes))
      (hopcode : modes.opcode? .relative = some opcode) :
      Deferrable table mnemonic [token] 0 token
  /-- The operand of a jump that is neither immediate nor indexed. -/
  | jump {modes : Modes} {token : Text}
      (hentry : table.lookup mnemonic = some (.standard modes))
      (hjump : Text.sameWord mnemonic "jmp".toList = true ∨
        Text.sameWord mnemonic "jsr".toList = true)
      (hplain : token.head? ≠ some '#') (hindex : indexSuffix token = .ok none) :
      Deferrable table mnemonic [token] 0 token
  /-- The last operand of a special mnemonic that takes three. -/
  | bits {special : Special} {tokens : List Text} {address mask token : Text}
      (hentry : table.lookup mnemonic = some (.special special)) (hthree : special.operands = 3)
      (hparts : specialParts tokens = [address, mask, token]) :
      Deferrable table mnemonic tokens 2 token

theorem Placed.operands_eq (hplaced : Placed modes operand instruction) :
    instruction.operands = [operand] := by
  cases hplaced <;> rfl

/-- A token in such a place becomes the operand at its position: a word of two bytes at most, or
the label of that name. -/
theorem Encoded.operand_of_deferrable
    (hencoded : Encoded symbols mnemonic entry tokens instruction)
    (hlookup : table.lookup mnemonic = some entry)
    (hdeferrable : Deferrable table mnemonic tokens position token) :
    ∃ limit operand, limit ≤ wordMax ∧ symbols.resolveOrDefer limit token = .ok operand ∧
      instruction.operands[position]? = some operand := by
  have hbyte : byteMax ≤ wordMax := by decide
  have hword : wordMax ≤ wordMax := UInt32.le_refl wordMax
  cases hdeferrable with
  | branch hentry hopcode =>
      cases hlookup.symm.trans hentry
      cases hencoded with
      | branch _ htarget => exact ⟨byteMax, _, hbyte, htarget, rfl⟩
      | immediate hbranch | indexed hbranch | jump hbranch | call hbranch | address hbranch =>
          cases hbranch.symm.trans hopcode
  | jump hentry hjump hplain hindex =>
      cases hlookup.symm.trans hentry
      cases hencoded with
      | branch _ htarget => exact ⟨byteMax, _, hbyte, htarget, rfl⟩
      | immediate => exact absurd rfl hplain
      | indexed _ _ hindexed => cases hindexed.symm.trans hindex
      | jump _ _ _ _ _ htarget => exact ⟨wordMax, _, hword, htarget, rfl⟩
      | call _ _ _ _ htarget hplaced =>
          exact ⟨wordMax, _, hword, htarget, by rw [hplaced.operands_eq]; rfl⟩
      | address _ _ _ hnotJump hnotCall =>
          rcases hjump with hjump | hcall
          · exact absurd hjump hnotJump
          · exact absurd hcall hnotCall
  | bits hentry _ hparts =>
      cases hlookup.symm.trans hentry
      cases hencoded with
      | special _ hparts' _ _ _ _ htargets =>
          cases hparts'.symm.trans hparts
          obtain ⟨operand, rest, htarget, hrest, rfl⟩ :=
            List.forall₂_cons_left_iff.mp (Outcome.mapM_eq_ok.mp htargets)
          exact ⟨byteMax, operand, hbyte, htarget, rfl⟩

theorem eq_label_of_resolveOrDefer {limit : UInt32} {name : Text}
    (h : symbols.resolveOrDefer limit token = .ok (.label name)) :
    name = token ∧ symbols.value? token = none := by
  rcases Symbols.resolveOrDefer_eq_ok.mp h with ⟨_, -, -, hvalue⟩ | ⟨hnone, hname⟩
  · cases hvalue
  · cases hname
    exact ⟨rfl, hnone⟩

/-- Conversely, a label stands in such a place only, and its name denotes nothing else. -/
theorem Encoded.deferrable_of_label {name : Text}
    (hencoded : Encoded symbols mnemonic entry tokens instruction)
    (hlookup : table.lookup mnemonic = some entry)
    (hentry : ∀ special, entry = .special special → 2 ≤ special.operands ∧ special.operands ≤ 3)
    (hget : instruction.operands[position]? = some (.label name)) :
    Deferrable table mnemonic tokens position name ∧ symbols.value? name = none := by
  -- Apart from the special mnemonics there is a single operand, at position zero.
  have hsingle : ∀ {operand : Operand}, instruction.operands = [operand] →
      position = 0 ∧ operand = .label name := by
    intro operand hoperands
    rw [hoperands] at hget
    cases position with
    | zero => exact ⟨rfl, by simpa using hget⟩
    | succ position => simp at hget
  cases hencoded with
  | inherent => simp [sized] at hget
  | branch hopcode htarget =>
      obtain ⟨rfl, rfl⟩ := hsingle rfl
      obtain ⟨rfl, hnone⟩ := eq_label_of_resolveOrDefer htarget
      exact ⟨.branch hlookup hopcode, hnone⟩
  | immediate => cases (hsingle rfl).2
  | indexed => cases (hsingle rfl).2
  | jump _ hplain hindex hjump _ htarget =>
      obtain ⟨rfl, rfl⟩ := hsingle rfl
      obtain ⟨rfl, hnone⟩ := eq_label_of_resolveOrDefer htarget
      exact ⟨.jump hlookup (.inl hjump) hplain hindex, hnone⟩
  | call _ hplain hindex hcall htarget hplaced =>
      obtain ⟨rfl, rfl⟩ := hsingle hplaced.operands_eq
      obtain ⟨rfl, hnone⟩ := eq_label_of_resolveOrDefer htarget
      exact ⟨.jump hlookup (.inr hcall) hplain hindex, hnone⟩
  | address _ _ _ _ _ _ hplaced => cases (hsingle hplaced.operands_eq).2
  | @special special _ targets _ _ _ _ _ _ _ branch hcount hparts _ _ _ _ htargets =>
      -- Address and mask are values, and the count of operands leaves room for one target.
      have hall := Outcome.mapM_eq_ok.mp htargets
      have hthree := (hentry special rfl).2
      rw [hparts, List.length_cons, List.length_cons] at hcount
      obtain ⟨i, rfl⟩ : ∃ i, position = i + 2 := by
        rcases position with _ | _ | i
        · cases hget
        · cases hget
        · exact ⟨i, rfl⟩
      simp only [sized, List.getElem?_cons_succ] at hget
      obtain ⟨target, htarget, hlabel⟩ := Outcome.getElem?_of_forall₂_right hall hget
      obtain ⟨rfl, hnone⟩ := eq_label_of_resolveOrDefer hlabel
      obtain ⟨hi, hfirst⟩ := List.getElem?_eq_some_iff.mp htarget
      rw [List.length_take] at hi
      obtain rfl : i = 0 := by omega
      obtain ⟨only, rfl⟩ := List.length_eq_one_iff.mp (show targets.length = 1 by omega)
      cases hfirst
      exact ⟨.bits hlookup hcount.symm hparts, hnone⟩

/-- At most the last operand of an instruction is a label. -/
theorem Encoded.value_of_lt (hencoded : Encoded symbols mnemonic entry tokens instruction)
    {i j : Nat} (hlt : j < i) (hi : i < instruction.operands.length) :
    ∃ word, instruction.operands[j]? = some (.value word) := by
  cases hencoded with
  | inherent => exact absurd hi (Nat.not_lt_zero i)
  | branch | immediate | indexed | jump =>
      simp only [sized, List.length_singleton] at hi
      omega
  | call _ _ _ _ _ hplaced | address _ _ _ _ _ _ hplaced =>
      rw [hplaced.operands_eq, List.length_singleton] at hi
      omega
  | @special _ _ targets _ _ _ _ _ addressWord maskWord branch _ _ _ _ _ _ htargets =>
      have hlength : (targets.take 1).length = branch.length :=
        (Outcome.mapM_eq_ok.mp htargets).length_eq
      rw [List.length_take] at hlength
      simp only [sized, List.length_cons] at hi
      rcases j with _ | _ | j
      · exact ⟨addressWord, rfl⟩
      · exact ⟨maskWord, rfl⟩
      · omega

theorem Encoded.size_le (hencoded : Encoded symbols mnemonic entry tokens instruction)
    (hentry : ∀ special, entry = .special special → 2 ≤ special.operands ∧ special.operands ≤ 3) :
    instruction.size ≤ 0xFFFF := by
  have hsized : ∀ mode opcode operands bytes, bytes ≤ 3 →
      (sized mode opcode operands bytes).size ≤ 0xFFFF := by
    intro mode opcode operands bytes hbytes
    have := opcode.size_le
    simp only [sized]
    omega
  cases hencoded with
  | inherent | branch | indexed | jump => exact hsized _ _ _ _ (by decide)
  | immediate => exact hsized _ _ _ _ (by split <;> decide)
  | call _ _ _ _ _ hplaced | address _ _ _ _ _ _ hplaced =>
      cases hplaced <;> exact hsized _ _ _ _ (by decide)
  | special => exact hsized _ _ _ _ (hentry _ rfl).2

end Instruction

/-! ## What the second pass makes of a name -/

/-- A token that is neither a literal nor a constant defined before line `n`. -/
def Open (source : List Text) (n : Nat) (token : Text) : Prop :=
  Literal.value? token = none ∧ ∀ word, ¬Earlier source n token word

/-- The number that a token at line `n` stands for, where a label may stand: a literal stands for
itself, then come the constants that are defined before, then the labels of the whole source. -/
inductive Denotes (source : List Text) (symbols : Symbols) (n : Nat) (line : Line) (token : Text) :
    Int → Prop
  | literal {word : UInt32} (hliteral : Literal.value? token = some word) :
      Denotes source symbols n line token word.toNat
  | constant {word : UInt32} (hliteral : Literal.value? token = none)
      (hearlier : Earlier source n token word) : Denotes source symbols n line token word.toNat
  | absolute {k : Nat} {target : UInt32} (hopen : Open source n token)
      (hlabel : Reads source k (.label token)) (htarget : symbols.label? token = some target)
      (hmode : line.mode = some .extended) (hlimit : target.toNat ≤ 0xFFFF) :
      Denotes source symbols n line token target.toNat
  | relative {k : Nat} {target address : UInt32} {distance : Int} (hopen : Open source n token)
      (hlabel : Reads source k (.label token)) (htarget : symbols.label? token = some target)
      (hmode : line.mode ≠ some .extended) (haddress : line.address = some address)
      (hdistance : distance = target.toNat - (address.toNat + line.size : Int))
      (hlimit : distance.natAbs ≤ 0xFF) :
      Denotes source symbols n line token distance

/-- Why a token at line `n` stands for nothing although a label may stand there. -/
inductive Dangling (source : List Text) (symbols : Symbols) (n : Nat) (line : Line)
    (token : Text) : Fault → Prop
  | nowhere (hopen : Open source n token) (hlabel : ∀ k, ¬Reads source k (.label token)) :
      Dangling source symbols n line token .unknownLabel
  | absolute {target : UInt32} (hopen : Open source n token)
      (htarget : symbols.label? token = some target) (hmode : line.mode = some .extended)
      (hlimit : 0xFFFF < target.toNat) : Dangling source symbols n line token .jumpTooFar
  | relative {target address : UInt32} (hopen : Open source n token)
      (htarget : symbols.label? token = some target) (hmode : line.mode ≠ some .extended)
      (haddress : line.address = some address)
      (hlimit : 0xFF < (target.toNat - (address.toNat + line.size : Int)).natAbs) :
      Dangling source symbols n line token .branchTooFar

/-- Line `n` has an operand that stands for nothing. -/
def Misses (table : Table) (source : List Text) (draft : Program) (n : Nat) (fault : Fault) :
    Prop :=
  ∃ mnemonic tokens position token line, Reads source n (.instruction mnemonic tokens) ∧
    Instruction.Deferrable table mnemonic tokens position token ∧ draft.lines[n]? = some line ∧
    Dangling source draft.symbols n line token fault

theorem Progress.Reached.open_iff {before : Progress}
    (hreached : Reached setting (source.take n) lines before) (hn : n ≤ source.length) :
    before.symbols.value? token = none ↔ Open source n token := by
  rw [Option.eq_none_iff_forall_ne_some]
  simp only [ne_eq, hreached.value?_eq_some hn, not_or, not_and]
  constructor
  · intro hnone
    have hliteral : Literal.value? token = none :=
      Option.eq_none_iff_forall_ne_some.mpr fun word => (hnone word).1
    exact ⟨hliteral, fun word => (hnone word).2 hliteral⟩
  · intro hopen word
    obtain ⟨hliteral, hearlier⟩ := hopen
    exact ⟨by rw [hliteral]; simp, fun _ => hearlier word⟩

section Labels

variable {progress : Progress} {address : UInt32}

/-- A name that was left open and could be filled in. -/
theorem denotes_of_labelNumber {number : Int}
    (hreached : Progress.Reached setting source lines progress) (hopen : Open source n token)
    (haddress : line.address = some address) (hsize : line.size ≤ 0xFFFF)
    (hnumber : line.labelNumber progress.symbols token = .ok number) :
    Denotes source progress.symbols n line token number := by
  have hword : line.size < UInt32.size := Nat.lt_of_le_of_lt hsize (by decide)
  obtain ⟨target, htarget, hcases⟩ :=
    (Line.labelNumber_eq_ok_of_size haddress hword).mp hnumber
  have hdefined : ∃ k, Reads source k (.label token) := by
    by_contra hnowhere
    push Not at hnowhere
    rw [hreached.label?_eq_none.mpr hnowhere] at htarget
    cases htarget
  obtain ⟨k, hlabel⟩ := hdefined
  rcases hcases with ⟨hmode, hlimit, rfl⟩ | ⟨hmode, hdistance, hlimit⟩
  · exact .absolute hopen hlabel htarget hmode (UInt32.le_iff_toNat_le.mp hlimit)
  · exact .relative hopen hlabel htarget hmode haddress hdistance hlimit

/-- A name that was left open and cannot be filled in. -/
theorem dangling_iff_labelNumber {fault : Fault}
    (hreached : Progress.Reached setting source lines progress) (hopen : Open source n token)
    (haddress : line.address = some address) (hsize : line.size ≤ 0xFFFF) :
    line.labelNumber progress.symbols token = .error fault ↔
      Dangling source progress.symbols n line token fault := by
  have hword : line.size < UInt32.size := Nat.lt_of_le_of_lt hsize (by decide)
  simp only [Line.labelNumber_eq_error, Line.reaches_iff haddress hword, Nat.not_le]
  constructor
  · intro hcases
    rcases hcases with ⟨hnone, rfl⟩ | ⟨target, htarget, ⟨hmode, hlimit, rfl⟩ | ⟨hmode, hlimit, rfl⟩⟩
    · exact .nowhere hopen (hreached.label?_eq_none.mp hnone)
    · exact .absolute hopen htarget hmode (UInt32.lt_iff_toNat_lt.mp hlimit)
    · exact .relative hopen htarget hmode haddress hlimit
  · intro hdangling
    cases hdangling with
    | nowhere _ hlabel => exact .inl ⟨hreached.label?_eq_none.mpr hlabel, rfl⟩
    | @absolute target _ htarget hmode hlimit =>
        exact .inr ⟨target, htarget, .inl ⟨hmode, UInt32.lt_iff_toNat_lt.mpr hlimit, rfl⟩⟩
    | @relative target address' _ htarget hmode haddress' hlimit =>
        cases haddress.symm.trans haddress'
        exact .inr ⟨target, htarget, .inr ⟨hmode, hlimit, rfl⟩⟩

end Labels

/-! ## Whole programs -/

namespace Program

variable {draft program : Program} {progress : Progress} {mnemonic : Text} {tokens : List Text}
  {position : Nat} {fault : Fault}

/-- How the first pass has assembled an instruction. -/
theorem encoded_of_reached (hbuilt : setting.table.Built)
    (hreached : Progress.Reached setting source lines progress)
    (hreads : Reads source n (.instruction mnemonic tokens)) :
    ∃ before address entry instruction,
      Progress.Reached setting (source.take n) (lines.take n) before ∧
      lines[n]? = some (instruction.toLine address) ∧
      setting.table.lookup mnemonic = some entry ∧
      (∀ special, entry = .special special → 2 ≤ special.operands ∧ special.operands ≤ 3) ∧
      Instruction.Encoded before.symbols mnemonic entry tokens instruction := by
  obtain ⟨line, before, next, hget, hbefore, hobeyed⟩ := hreached.obeyed hreads
  cases hobeyed with
  | @instruction _ _ address instruction _ hencode =>
      obtain ⟨entry, hlookup, hencoded⟩ := Instruction.encode_cases hencode
      exact ⟨before, address, entry, instruction, hbefore, hget, hlookup,
        fun special hspecial => hbuilt.lookup_special (hspecial ▸ hlookup), hencoded⟩

theorem denotes_of_assemble (hbuilt : setting.table.Built)
    (hassemble : assemble setting source = .ok program)
    (hreads : Reads source n (.instruction mnemonic tokens))
    (hdeferrable : Instruction.Deferrable setting.table mnemonic tokens position token) :
    ∃ line number, program.lines[n]? = some line ∧ line.operands[position]? = some number ∧
      Denotes source program.symbols n line token number := by
  obtain ⟨draft, progress, -, hreached, -, hsymbols, hlinked⟩ := assemble_cases hassemble
  obtain ⟨before, address, entry, instruction, hbefore, hget, hlookup, hentry, hencoded⟩ :=
    encoded_of_reached hbuilt hreached hreads
  obtain ⟨limit, operand, hlimit, hoperand, hposition⟩ :=
    hencoded.operand_of_deferrable hlookup hdeferrable
  obtain ⟨line, hline, hlink⟩ := Outcome.getElem?_of_forall₂ hlinked hget
  rw [Line.link_toLine] at hlink
  obtain ⟨numbers, hnumbers, rfl⟩ := Outcome.map_eq_ok.mp hlink
  obtain ⟨number, hnumber, hvalue⟩ :=
    Outcome.getElem?_of_forall₂ (Outcome.mapM_eq_ok.mp hnumbers) hposition
  have hn : n ≤ source.length := Nat.le_of_lt hreads.lt_length
  refine ⟨_, number, hline, hnumber, ?_⟩
  rw [hsymbols]
  rcases Symbols.resolveOrDefer_eq_ok.mp hoperand with ⟨word, hword, hle, rfl⟩ | ⟨hnone, rfl⟩
  · rw [Operand.number_value (UInt32.le_trans hle hlimit)] at hvalue
    cases hvalue
    rcases (hbefore.value?_eq_some hn).mp hword with hliteral | ⟨hliteral, hearlier⟩
    · exact .literal hliteral
    · exact .constant hliteral hearlier
  · have hopen : Open source n token := (hbefore.open_iff hn).mp hnone
    -- The number was computed on the line before it was filled in, which has the same mode, address
    -- and size.
    exact denotes_of_labelNumber hreached hopen rfl (hencoded.size_le hentry) hvalue

/-- A line of the first pass cannot be filled in exactly if it has an operand that stands for
nothing. -/
theorem link_eq_error_iff_misses (hbuilt : setting.table.Built)
    (hreached : Progress.Reached setting source draft.lines progress)
    (hknown : draft.symbols = progress.symbols) :
    (∃ line, draft.lines[n]? = some line ∧ line.link draft.symbols = .error fault) ↔
      Misses setting.table source draft n fault := by
  constructor
  · intro hfails
    obtain ⟨line, hget, hlink⟩ := hfails
    obtain ⟨statement, known, next, hreads, -, hobeyed⟩ := hreached.obeyed_at hget
    cases hobeyed with
    | blank | label | constant | origin | finish | formBytes =>
        rw [Line.link_of_settled _ _ rfl] at hlink
        cases hlink
    | instruction =>
        obtain ⟨before, address, entry, instruction, hbefore, hplaced, hlookup, hentry, hencoded⟩ :=
          encoded_of_reached hbuilt hreached hreads
        rw [Option.some.inj (hget.symm.trans hplaced), Line.link_toLine,
          Outcome.map_eq_error] at hlink
        obtain ⟨position, ⟨operand, hoperand, hnumber⟩, -⟩ := Outcome.mapM_eq_error.mp hlink
        cases operand with
        | value word => cases hnumber
        | label name =>
            have hn : n ≤ source.length := Nat.le_of_lt hreads.lt_length
            obtain ⟨hdeferrable, hnone⟩ := hencoded.deferrable_of_label hlookup hentry hoperand
            have hopen : Open source n name := (hbefore.open_iff hn).mp hnone
            rw [hknown] at hnumber
            rw [Misses, hknown]
            exact ⟨_, _, position, name, _, hreads, hdeferrable, hplaced,
              (dangling_iff_labelNumber hreached hopen rfl (hencoded.size_le hentry)).mp hnumber⟩
  · intro hmisses
    obtain ⟨mnemonic, tokens, position, token, line, hreads, hdeferrable, hget, hdangling⟩ := hmisses
    obtain ⟨before, address, entry, instruction, hbefore, hplaced, hlookup, hentry, hencoded⟩ :=
      encoded_of_reached hbuilt hreached hreads
    cases hget.symm.trans hplaced
    refine ⟨_, hplaced, ?_⟩
    have hn : n ≤ source.length := Nat.le_of_lt hreads.lt_length
    have hopen : Open source n token := by
      cases hdangling <;> assumption
    obtain ⟨limit, operand, -, hoperand, hposition⟩ :=
      hencoded.operand_of_deferrable hlookup hdeferrable
    obtain rfl : operand = .label token := by
      rcases Symbols.resolveOrDefer_eq_ok.mp hoperand with ⟨word, hword, -, -⟩ | ⟨-, hlabel⟩
      · rw [(hbefore.open_iff hn).mpr hopen] at hword
        cases hword
      · exact hlabel
    rw [hknown] at hdangling
    rw [hknown, Line.link_toLine, Outcome.map_eq_error, Outcome.mapM_eq_error]
    refine ⟨position, ⟨_, hposition, ?_⟩, ?_⟩
    · exact (dangling_iff_labelNumber hreached hopen rfl (hencoded.size_le hentry)).mpr hdangling
    · -- The operands before it are values.
      intro j hj operand hget'
      obtain ⟨word, hword⟩ :=
        hencoded.value_of_lt hj (List.getElem?_eq_some_iff.mp hposition).1
      cases hword.symm.trans hget'
      exact ⟨_, rfl⟩

/-- What names stand for.  In an assembled program, every token in a place where a label may stand
has become the number that it denotes.  Once the first pass has succeeded, assembly fails exactly at
the first line with such a token that denotes nothing. -/
theorem names_of_assemble (hbuilt : setting.table.Built) :
    (∀ program n mnemonic tokens position token, assemble setting source = .ok program →
      Reads source n (.instruction mnemonic tokens) →
      Instruction.Deferrable setting.table mnemonic tokens position token →
      ∃ line number, program.lines[n]? = some line ∧ line.operands[position]? = some number ∧
        Denotes source program.symbols n line token number) ∧
    ∀ draft n fault, layOut setting source = .ok draft →
      (assemble setting source = .error ⟨n, fault⟩ ↔
        Misses setting.table source draft n fault ∧
          ∀ k < n, ∀ other, ¬Misses setting.table source draft k other) := by
  constructor
  · intro program n mnemonic tokens position token hassemble hreads hdeferrable
    exact denotes_of_assemble hbuilt hassemble hreads hdeferrable
  · intro draft n fault hlayOut
    obtain ⟨progress, hreached, hknown, -⟩ := layOut_cases hlayOut
    have hmisses : ∀ k other,
        (∃ line, draft.lines[k]? = some line ∧ line.link draft.symbols = .error other) ↔
          Misses setting.table source draft k other :=
      fun k other => link_eq_error_iff_misses hbuilt hreached hknown
    have hpass : assemble setting source = draft.link := by rw [assemble, hlayOut, Except.bind]
    rw [hpass, link_eq_error, Outcome.FirstFault, hmisses]
    refine and_congr_right fun _ => forall_congr' fun k => forall_congr' fun _ => ?_
    constructor
    · intro hfilled other hother
      obtain ⟨line, hget, herror⟩ := (hmisses k other).mpr hother
      obtain ⟨after, hok⟩ := hfilled line hget
      rw [herror] at hok
      cases hok
    · intro hnone line hget
      cases hlink : line.link draft.symbols with
      | error other => exact absurd ((hmisses k other).mp ⟨line, hget, hlink⟩) (hnone other)
      | ok after => exact ⟨after, rfl⟩

theorem names_of_sampleProgram :
    sampleSetting.table.Built ∧ assemble sampleSetting sampleSource = .ok sampleProgram ∧
      (∃ line number, sampleProgram.lines[3]? = some line ∧ line.operands[2]? = some number ∧
        Denotes sampleSource sampleProgram.symbols 3 line "DONE".toList number) ∧
      ∃ draft, layOut sampleSetting [" ORG 0".toList, " BRA L".toList, " END".toList] = .ok draft ∧
        Misses sampleSetting.table [" ORG 0".toList, " BRA L".toList, " END".toList] draft 1
          .unknownLabel := by
  have hreads : Reads sampleSource 3
      (.instruction "BRSET".toList ["$20,#MASK".toList, "DONE".toList]) := by
    unfold Reads
    decide +kernel
  have hentry : sampleSetting.table.lookup "BRSET".toList =
      some (.special ⟨3, [(.direct, .short 0x12)]⟩) := by decide +kernel
  have hparts : Instruction.specialParts ["$20,#MASK".toList, "DONE".toList] =
      ["$20".toList, "MASK".toList, "DONE".toList] := by decide +kernel
  have hlayOut : layOut sampleSetting [" ORG 0".toList, " BRA L".toList, " END".toList] =
      .ok ⟨[{}, ⟨some 0, some (.short 0x20), some .relative, [], [(0, ['L'])], 2⟩, {}], {}⟩ := by
    decide +kernel
  have hfails : assemble sampleSetting [" ORG 0".toList, " BRA L".toList, " END".toList] =
      .error ⟨1, .unknownLabel⟩ := by decide +kernel
  exact ⟨built_sampleSetting, assemble_sampleSource,
    (names_of_assemble built_sampleSetting).1 sampleProgram 3 _ _ 2 _ assemble_sampleSource hreads
      (.bits hentry rfl hparts),
    _, hlayOut, (((names_of_assemble built_sampleSetting).2 _ _ _ hlayOut).mp hfails).1⟩

end Program

end TwoPass
