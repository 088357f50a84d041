import TwoPass.Code.Encode
import TwoPass.Proofs.Outcome

/-!
# What the encoder can produce

`Instruction.encode` chooses among a dozen ways to read a mnemonic and its tokens.  This file says
once what each of them produces: `encode_cases` takes a successful encoding apart into the cases of
`Encoded`, with everything the encoder has checked on the way.  What later files need to know about
encoded instructions (how long they are, where a label can stand) is derived from these cases, never
from the encoder itself.
-/

namespace TwoPass

/-! ## Operand tokens -/

namespace Symbols

variable {symbols : Symbols} {limit word : UInt32} {missing : Fault} {token : Text}

theorem checkLimit_eq_ok {word' : UInt32} :
    checkLimit limit word = .ok word' ↔ word' = word ∧ word ≤ limit := by
  unfold checkLimit
  split
  next hle => simp [hle, eq_comm]
  next hgt => simp [hgt]

theorem resolve_eq_ok :
    symbols.resolve limit missing token = .ok word ↔
      symbols.value? token = some word ∧ word ≤ limit := by
  unfold resolve
  cases hvalue : symbols.value? token with
  | none => simp
  | some found =>
      simp only [checkLimit_eq_ok, Option.some.injEq]
      constructor
      · rintro ⟨rfl, hle⟩
        exact ⟨rfl, hle⟩
      · rintro ⟨rfl, hle⟩
        exact ⟨rfl, hle⟩

/-- A token in a place where a label may stand is a word within the limit, or else the label of that
name. -/
theorem resolveOrDefer_eq_ok {operand : Operand} :
    symbols.resolveOrDefer limit token = .ok operand ↔
      (∃ word, symbols.value? token = some word ∧ word ≤ limit ∧ operand = .value word) ∨
        (symbols.value? token = none ∧ operand = .label token) := by
  unfold resolveOrDefer
  cases hvalue : symbols.value? token with
  | none => simp [eq_comm]
  | some found =>
      simp only [Outcome.map_eq_ok, checkLimit_eq_ok, Option.some.injEq, reduceCtorEq, false_and,
        or_false]
      constructor
      · rintro ⟨_, ⟨rfl, hle⟩, rfl⟩
        exact ⟨_, rfl, hle, rfl⟩
      · rintro ⟨_, rfl, hle, rfl⟩
        exact ⟨_, ⟨rfl, hle⟩, rfl⟩

end Symbols

/-! ### Index registers -/

section Index

variable {token base : Text} {mode : Mode} {register : Char}

theorem Mode.ofRegister?_cases (h : Mode.ofRegister? register = some mode) :
    mode = .indexedX ∨ mode = .indexedY := by
  unfold Mode.ofRegister? at h
  split at h
  next => exact .inl (Option.some.inj h).symm
  next =>
    split at h
    next => exact .inr (Option.some.inj h).symm
    next => cases h

/-- Whatever stands before the last comma of `base,X` is the base. -/
theorem indexSuffix_append (base : Text) (register : Char) :
    indexSuffix (base ++ [',', register]) =
      (Mode.ofRegister? register).elim (.error .badOperand) fun mode => .ok (some (base, mode)) := by
  have hreverse : (base ++ [',', register]).reverse = register :: ',' :: base.reverse := by simp
  unfold indexSuffix
  rw [hreverse]
  cases hregister : Mode.ofRegister? register with
  | none => simp [hregister]
  | some mode => simp [hregister]

/-- Conversely, an index register is found behind a comma only. -/
theorem indexSuffix_eq_some (h : indexSuffix token = .ok (some (base, mode))) :
    ∃ register, token = base ++ [',', register] ∧ Mode.ofRegister? register = some mode := by
  unfold indexSuffix at h
  split at h
  next register comma rest hreverse =>
    split at h
    next hcomma =>
      split at h
      next mode' hregister =>
        cases h
        refine ⟨register, ?_, hregister⟩
        rw [← List.reverse_reverse token, hreverse, eq_of_beq hcomma]
        simp
      next => cases h
    next => cases h
  next => cases h

theorem indexSuffix_of_not_mem (hcomma : ',' ∉ token) : indexSuffix token = .ok none := by
  unfold indexSuffix
  split
  next register comma rest hreverse =>
    have hmem : comma ∈ token := by
      rw [← List.mem_reverse, hreverse]
      simp
    rw [if_neg]
    simpa using ne_of_mem_of_not_mem hmem hcomma
  next => rfl

end Index

namespace Instruction

variable {table : Table} {symbols : Symbols} {mnemonic : Text} {entry : Entry}
  {tokens : List Text} {modes : Modes} {instruction : Instruction}

theorem requireMode_eq_ok {mode : Mode} {opcode : Opcode} :
    requireMode modes mode = .ok opcode ↔ modes.opcode? mode = some opcode :=
  Outcome.elim_eq_ok

/-- The first operand of a special mnemonic is direct or indexed. -/
theorem specialBase_cases {token base : Text} {mode : Mode}
    (h : specialBase token = .ok (mode, base)) :
    mode = .direct ∨ mode = .indexedX ∨ mode = .indexedY := by
  obtain ⟨suffix, hsuffix, hbase⟩ := Outcome.map_eq_ok.mp h
  cases suffix with
  | none => exact .inl (Prod.mk.inj hbase).1.symm
  | some suffix =>
      obtain ⟨register, -, hregister⟩ := indexSuffix_eq_some hsuffix
      rw [← (Prod.mk.inj hbase).1]
      exact .inr (Mode.ofRegister?_cases hregister)

/-! ## The cases -/

/-- An address operand in the shortest mode that the mnemonic supports for it. -/
inductive Placed (modes : Modes) : Operand → Instruction → Prop
  | direct {word : UInt32} {opcode : Opcode} (hbyte : word ≤ byteMax)
      (hopcode : modes.opcode? .direct = some opcode) :
      Placed modes (.value word) (sized .direct opcode [.value word] 1)
  | extended {operand : Operand} {opcode : Opcode}
      (hlong : ∀ word ≤ byteMax, operand = .value word → modes.opcode? .direct = none)
      (hopcode : modes.opcode? .extended = some opcode) :
      Placed modes operand (sized .extended opcode [operand] 2)

/-- A successful encoding: one case for each way in which a mnemonic with a given entry and its
operand tokens become an instruction. -/
inductive Encoded (symbols : Symbols) (mnemonic : Text) : Entry → List Text → Instruction → Prop
  | inherent {modes : Modes} {opcode : Opcode}
      (hopcode : modes.opcode? .inherent = some opcode) :
      Encoded symbols mnemonic (.standard modes) [] (sized .inherent opcode [] 0)
  | branch {modes : Modes} {opcode : Opcode} {token : Text} {target : Operand}
      (hopcode : modes.opcode? .relative = some opcode)
      (htarget : symbols.resolveOrDefer byteMax token = .ok target) :
      Encoded symbols mnemonic (.standard modes) [token] (sized .relative opcode [target] 1)
  | immediate {modes : Modes} {opcode : Opcode} {token : Text} {word : UInt32}
      (hbranch : modes.opcode? .relative = none)
      (hopcode : modes.opcode? .immediate = some opcode)
      (hword : symbols.resolve wordMax .unknownConstant token = .ok word) :
      Encoded symbols mnemonic (.standard modes) ['#' :: token]
        (sized .immediate opcode [.value word] (if word ≤ byteMax then 1 else 2))
  | indexed {modes : Modes} {opcode : Opcode} {token base : Text} {mode : Mode} {offset : UInt32}
      (hbranch : modes.opcode? .relative = none) (hplain : token.head? ≠ some '#')
      (hindex : indexSuffix token = .ok (some (base, mode)))
      (hopcode : modes.opcode? mode = some opcode)
      (hoffset : symbols.resolve byteMax .unknownVariable base = .ok offset) :
      Encoded symbols mnemonic (.standard modes) [token] (sized mode opcode [.value offset] 1)
  | jump {modes : Modes} {opcode : Opcode} {token : Text} {target : Operand}
      (hbranch : modes.opcode? .relative = none) (hplain : token.head? ≠ some '#')
      (hindex : indexSuffix token = .ok none)
      (hjump : Text.sameWord mnemonic "jmp".toList = true)
      (hopcode : modes.opcode? .extended = some opcode)
      (htarget : symbols.resolveOrDefer wordMax token = .ok target) :
      Encoded symbols mnemonic (.standard modes) [token] (sized .extended opcode [target] 2)
  | call {modes : Modes} {token : Text} {target : Operand} {instruction : Instruction}
      (hbranch : modes.opcode? .relative = none) (hplain : token.head? ≠ some '#')
      (hindex : indexSuffix token = .ok none)
      (hcall : Text.sameWord mnemonic "jsr".toList = true)
      (htarget : symbols.resolveOrDefer wordMax token = .ok target)
      (hplaced : Placed modes target instruction) :
      Encoded symbols mnemonic (.standard modes) [token] instruction
  | address {modes : Modes} {token : Text} {word : UInt32} {instruction : Instruction}
      (hbranch : modes.opcode? .relative = none) (hplain : token.head? ≠ some '#')
      (hindex : indexSuffix token = .ok none)
      (hjump : ¬Text.sameWord mnemonic "jmp".toList = true)
      (hcall : ¬Text.sameWord mnemonic "jsr".toList = true)
      (hword : symbols.resolve wordMax .unknownVariable token = .ok word)
      (hplaced : Placed modes (.value word) instruction) :
      Encoded symbols mnemonic (.standard modes) [token] instruction
  | special {special : Special} {tokens targets : List Text} {address mask base : Text}
      {mode : Mode} {opcode : Opcode} {addressWord maskWord : UInt32} {branch : List Operand}
      (hcount : (specialParts tokens).length = special.operands)
      (hparts : specialParts tokens = address :: mask :: targets)
      (hbase : specialBase address = .ok (mode, base))
      (hopcode : special.modes.opcode? mode = some opcode)
      (haddress : symbols.resolve byteMax .unknownVariable base = .ok addressWord)
      (hmask : symbols.resolve byteMax .unknownVariable (Text.dropFirst '#' mask) = .ok maskWord)
      (htargets : (targets.take 1).mapM (symbols.resolveOrDefer byteMax) = .ok branch) :
      Encoded symbols mnemonic (.special special) tokens
        (sized mode opcode (.value addressWord :: .value maskWord :: branch) special.operands)

/-! ## Taking an encoding apart -/

theorem directOrExtended_cases {operand : Operand}
    (h : directOrExtended modes operand = .ok instruction) : Placed modes operand instruction := by
  unfold directOrExtended at h
  cases operand with
  | label name =>
      simp only [Outcome.map_eq_ok, requireMode_eq_ok] at h
      obtain ⟨opcode, hopcode, rfl⟩ := h
      exact .extended (fun word _ heq => by cases heq) hopcode
  | value word =>
      by_cases hbyte : word ≤ byteMax
      · cases hdirect : modes.opcode? .direct with
        | none =>
            simp only [if_pos hbyte, hdirect, Outcome.map_eq_ok, requireMode_eq_ok] at h
            obtain ⟨opcode, hopcode, rfl⟩ := h
            exact .extended (fun _ _ _ => hdirect) hopcode
        | some opcode =>
            simp only [if_pos hbyte, hdirect, Except.ok.injEq] at h
            subst h
            exact .direct hbyte hdirect
      · simp only [if_neg hbyte, Outcome.map_eq_ok, requireMode_eq_ok] at h
        obtain ⟨opcode, hopcode, rfl⟩ := h
        refine .extended (fun word' hbyte' heq => ?_) hopcode
        cases heq
        exact absurd hbyte' hbyte

theorem encodeAddress_cases {token : Text} (hbranch : modes.opcode? .relative = none)
    (hplain : token.head? ≠ some '#') (hindex : indexSuffix token = .ok none)
    (h : encodeAddress symbols mnemonic modes token = .ok instruction) :
    Encoded symbols mnemonic (.standard modes) [token] instruction := by
  unfold encodeAddress at h
  split at h
  next hjump =>
    simp only [Outcome.bind_eq_ok, requireMode_eq_ok, Outcome.pure_eq_ok] at h
    obtain ⟨opcode, hopcode, target, htarget, rfl⟩ := h
    exact .jump hbranch hplain hindex hjump hopcode htarget
  next hjump =>
    split at h
    next hcall =>
      simp only [Outcome.bind_eq_ok] at h
      obtain ⟨target, htarget, hplaced⟩ := h
      exact .call hbranch hplain hindex hcall htarget (directOrExtended_cases hplaced)
    next hcall =>
      simp only [Outcome.bind_eq_ok] at h
      obtain ⟨word, hword, hplaced⟩ := h
      exact .address hbranch hplain hindex hjump hcall hword (directOrExtended_cases hplaced)

theorem encodeOperand_cases {token : Text}
    (h : encodeOperand symbols mnemonic modes token = .ok instruction) :
    Encoded symbols mnemonic (.standard modes) [token] instruction := by
  unfold encodeOperand at h
  cases hbranch : modes.opcode? .relative with
  | some opcode =>
      simp only [hbranch, Outcome.map_eq_ok] at h
      obtain ⟨target, htarget, rfl⟩ := h
      exact .branch hbranch htarget
  | none =>
      simp only [hbranch] at h
      by_cases hplain : token.head? = some '#'
      · -- A number sign in front: the operand is the value itself.
        obtain ⟨rest, rfl⟩ : ∃ rest, token = '#' :: rest := by
          cases token with
          | nil => simp at hplain
          | cons c rest =>
              simp only [List.head?_cons, Option.some.injEq] at hplain
              exact ⟨rest, by rw [hplain]⟩
        simp only [List.head?_cons, beq_self_eq_true, if_true, List.tail_cons, encodeImmediate,
          Outcome.bind_eq_ok, requireMode_eq_ok, Outcome.pure_eq_ok] at h
        obtain ⟨opcode, hopcode, word, hword, rfl⟩ := h
        exact .immediate hbranch hopcode hword
      · rw [if_neg (by simpa using hplain)] at h
        simp only [Outcome.bind_eq_ok] at h
        obtain ⟨suffix, hindex, h⟩ := h
        cases suffix with
        | none => exact encodeAddress_cases hbranch hplain hindex h
        | some suffix =>
            simp only [encodeIndexed, Outcome.bind_eq_ok, requireMode_eq_ok,
              Outcome.pure_eq_ok] at h
            obtain ⟨opcode, hopcode, offset, hoffset, rfl⟩ := h
            exact .indexed hbranch hplain hindex hopcode hoffset

theorem encodeSpecial_cases {special : Special}
    (h : encodeSpecial symbols special tokens = .ok instruction) :
    Encoded symbols mnemonic (.special special) tokens instruction := by
  unfold encodeSpecial at h
  simp only at h
  split at h
  next => cases h
  next hmany =>
    split at h
    next => cases h
    next hfew =>
      split at h
      next address mask targets hparts =>
        simp only [encodeParts, Outcome.bind_eq_ok, requireMode_eq_ok, Outcome.pure_eq_ok] at h
        obtain ⟨⟨mode, base⟩, hbase, opcode, hopcode, addressWord, haddress, maskWord, hmask,
          branch, htargets, rfl⟩ := h
        exact .special (by omega) hparts hbase hopcode haddress hmask htargets
      next => cases h

/-- Every successful encoding is one of the cases of `Encoded`. -/
theorem encode_cases (h : encode table symbols mnemonic tokens = .ok instruction) :
    ∃ entry, table.lookup mnemonic = some entry ∧
      Encoded symbols mnemonic entry tokens instruction := by
  unfold encode at h
  split at h
  next => cases h
  next special hentry => exact ⟨_, hentry, encodeSpecial_cases h⟩
  next modes hentry =>
    refine ⟨_, hentry, ?_⟩
    unfold encodeStandard at h
    split at h
    next =>
      split at h
      next opcode hopcode =>
        cases h
        exact .inherent hopcode
      next => cases h
    next token => exact encodeOperand_cases h
    next => cases h

/-! ## Putting an encoding together -/

theorem directOrExtended_of_placed {operand : Operand}
    (hplaced : Placed modes operand instruction) :
    directOrExtended modes operand = .ok instruction := by
  cases hplaced with
  | direct hbyte hopcode => simp [directOrExtended, hbyte, hopcode]
  | @extended operand opcode hlong hopcode =>
      have hrequire : requireMode modes .extended = .ok opcode := requireMode_eq_ok.mpr hopcode
      cases operand with
      | label name => simp [directOrExtended, hrequire, Except.map]
      | value word =>
          by_cases hbyte : word ≤ byteMax
          · simp [directOrExtended, hbyte, hlong word hbyte rfl, hrequire, Except.map]
          · simp [directOrExtended, hbyte, hrequire, Except.map]

/-- No mnemonic is a jump and a call at once. -/
theorem not_jump_of_call (hcall : Text.sameWord mnemonic "jsr".toList = true) :
    ¬Text.sameWord mnemonic "jmp".toList = true := by
  unfold Text.sameWord at hcall ⊢
  rw [eq_of_beq hcall]
  decide

theorem encodeOperand_of_plain {token : Text} (hbranch : modes.opcode? .relative = none)
    (hplain : token.head? ≠ some '#') (hindex : indexSuffix token = .ok none) :
    encodeOperand symbols mnemonic modes token = encodeAddress symbols mnemonic modes token := by
  have hsign : (token.head? == some '#') = false := beq_false_of_ne hplain
  simp [encodeOperand, hbranch, hsign, hindex, bind, Except.bind]

/-- Conversely, each of the cases is an encoding: together they are all there are. -/
theorem encode_eq_ok : encode table symbols mnemonic tokens = .ok instruction ↔
    ∃ entry, table.lookup mnemonic = some entry ∧
      Encoded symbols mnemonic entry tokens instruction := by
  refine ⟨encode_cases, ?_⟩
  rintro ⟨entry, hlookup, hencoded⟩
  unfold encode
  rw [hlookup]
  cases hencoded with
  | inherent hopcode => simp [encodeStandard, hopcode]
  | branch hopcode htarget =>
      simp [encodeStandard, encodeOperand, hopcode, htarget, Except.map]
  | immediate hbranch hopcode hword =>
      have hrequire := requireMode_eq_ok.mpr hopcode
      simp [encodeStandard, encodeOperand, encodeImmediate, hbranch, hrequire, hword, bind,
        Except.bind, pure, Except.pure]
  | indexed hbranch hplain hindex hopcode hoffset =>
      have hrequire := requireMode_eq_ok.mpr hopcode
      have hsign := beq_false_of_ne hplain
      simp [encodeStandard, encodeOperand, encodeIndexed, hbranch, hsign, hindex, hrequire,
        hoffset, bind, Except.bind, pure, Except.pure]
  | jump hbranch hplain hindex hjump hopcode htarget =>
      have hrequire := requireMode_eq_ok.mpr hopcode
      simp only [encodeStandard, encodeOperand_of_plain hbranch hplain hindex, encodeAddress,
        hjump, if_true, hrequire, htarget]
      rfl
  | call hbranch hplain hindex hcall htarget hplaced =>
      simp only [encodeStandard, encodeOperand_of_plain hbranch hplain hindex, encodeAddress,
        not_jump_of_call hcall, hcall, if_true, Bool.false_eq_true, if_false, htarget]
      exact directOrExtended_of_placed hplaced
  | address hbranch hplain hindex hjump hcall hword hplaced =>
      simp only [encodeStandard, encodeOperand_of_plain hbranch hplain hindex, encodeAddress,
        hjump, hcall, Bool.false_eq_true, if_false, hword]
      exact directOrExtended_of_placed hplaced
  | @special special _ targets address mask base mode opcode addressWord maskWord branch hcount
      hparts hbase hopcode haddress hmask htargets =>
      have hrequire := requireMode_eq_ok.mpr hopcode
      have hencode : encodeParts symbols special address mask targets =
          .ok (sized mode opcode (.value addressWord :: .value maskWord :: branch)
            special.operands) := by
        simp only [encodeParts, hbase, hmask, htargets, bind, Except.bind]
        rw [hrequire, haddress]
        rfl
      rw [hparts] at hcount
      simp only [encodeSpecial, hparts, hcount, Nat.lt_irrefl, if_false, hencode]

end Instruction

end TwoPass
