import TwoPass.Proofs.Expressible

/-!
# A constant is as good as its value

Wherever an instruction or `FCB` takes a value, the name of a constant can be replaced by a
hexadecimal literal of its value.  The result is the same, be it a line or a fault.

Tokens are taken apart in different ways before a value is looked up: a number sign is dropped, an
index register is cut off, and the operands of special mnemonics may be joined by `,#`.  None of
this looks into a name or a literal, because neither holds a comma or a number sign.  What is left
is that both denote the same word (`Agree`), which is all that the encoder asks for.

* `splitOnPair_append`: joined operands come apart at every `,#`, whatever they are.
* `Slot`: a place for one operand among the tokens of a special mnemonic, however these are joined.
* `Interchange`: the places where a constant can stand, in an instruction.
-/

namespace TwoPass

/-! ## Joined operands -/

namespace Text

variable {first second : Char} {text : Text}

theorem splitOnPair_ne_nil (first second : Char) (text : Text) :
    splitOnPair first second text ≠ [] := by
  fun_induction splitOnPair first second text with
  | case1 => exact List.cons_ne_nil _ _
  | case2 c => exact List.cons_ne_nil _ _
  | case3 c d rest hpair ih => exact List.cons_ne_nil _ _
  | case4 c d rest hpair ih => simpa [List.modifyHead_eq_nil_iff] using ih

/-- A text comes apart at every pair.  No two pairs share a character, so what stands before one
does not matter. -/
theorem splitOnPair_append (hpair : first ≠ second) (front back : Text) :
    splitOnPair first second (front ++ first :: second :: back) =
      splitOnPair first second front ++ splitOnPair first second back := by
  fun_induction splitOnPair first second front with
  | case1 => simp [splitOnPair]
  | case2 c => simp [splitOnPair, hpair]
  | case3 c d rest heq ih => simp [splitOnPair, heq, ih]
  | case4 c d rest hne ih =>
      rw [List.cons_append, List.cons_append, splitOnPair, if_neg hne, ← List.cons_append, ih]
      obtain ⟨piece, pieces, hsplit⟩ :=
        List.exists_cons_of_ne_nil (splitOnPair_ne_nil first second (d :: rest))
      rw [hsplit]
      rfl

/-- A text without the pair is a single piece. -/
theorem splitOnPair_of_not_infix (habsent : ¬[first, second] <:+: text) :
    splitOnPair first second text = [text] := by
  fun_induction splitOnPair first second text with
  | case1 => rfl
  | case2 c => rfl
  | case3 c d rest heq ih =>
      simp only [Bool.and_eq_true, beq_iff_eq] at heq
      exact absurd ⟨[], rest, by simp [heq.1, heq.2]⟩ habsent
  | case4 c d rest hne ih =>
      have hrest : ¬[first, second] <:+: d :: rest := fun hpair => habsent (List.infix_cons hpair)
      rw [ih hrest]
      rfl

theorem splitOnPair_of_not_mem (hmem : first ∉ text ∨ second ∉ text) :
    splitOnPair first second text = [text] := by
  apply splitOnPair_of_not_infix
  intro hpair
  rcases hmem with hfirst | hsecond
  · exact hfirst (hpair.subset (by simp))
  · exact hsecond (hpair.subset (by simp))

end Text

namespace Instruction

/-- A place for an operand among the tokens of a special mnemonic.  It may be joined to what stands
before it and to what follows it. -/
structure Slot where
  /-- The tokens before the one with the operand. -/
  front : List Text
  /-- What the operand is joined to. -/
  before : Option Text
  /-- What is joined to the operand. -/
  after : Option Text
  /-- The tokens after the one with the operand. -/
  back : List Text

namespace Slot

/-- The tokens with an operand in its place. -/
def fill (slot : Slot) (operand : Text) : List Text :=
  slot.front ++ (slot.before.elim [] (· ++ ",#".toList) ++ operand ++
    slot.after.elim [] (",#".toList ++ ·)) :: slot.back

/-- The operands before the place. -/
def earlier (slot : Slot) : List Text := specialParts (slot.front ++ slot.before.toList)

/-- The operands after the place. -/
def later (slot : Slot) : List Text := specialParts (slot.after.toList ++ slot.back)

/-- An operand in its place is found there, however the tokens are joined. -/
theorem specialParts_fill (slot : Slot) {operand : Text} (hpart : ',' ∉ operand ∨ '#' ∉ operand) :
    specialParts (slot.fill operand) = slot.earlier ++ operand :: slot.later := by
  have hafter : ∀ front, Text.splitOnPair ',' '#'
      (front ++ slot.after.elim [] (",#".toList ++ ·)) =
        Text.splitOnPair ',' '#' front ++ slot.after.toList.flatMap (Text.splitOnPair ',' '#') := by
    intro front
    cases slot.after with
    | none => simp
    | some text => simpa using Text.splitOnPair_append (by decide) front text
  have hbefore : Text.splitOnPair ',' '#' (slot.before.elim [] (· ++ ",#".toList) ++ operand) =
      slot.before.toList.flatMap (Text.splitOnPair ',' '#') ++ [operand] := by
    have hoperand := Text.splitOnPair_of_not_mem hpart
    cases slot.before with
    | none => simpa using hoperand
    | some text =>
        have happend := Text.splitOnPair_append (by decide : ',' ≠ '#') text operand
        rw [hoperand] at happend
        simpa using happend
  rw [fill, earlier, later, specialParts, specialParts, specialParts, List.flatMap_append,
    List.flatMap_cons, hafter, hbefore, List.flatMap_append, List.flatMap_append]
  simp

end Slot

end Instruction

/-! ## Tokens that denote the same word -/

/-- A token without the characters that part operands from each other or mark them. -/
structure IsAtom (token : Text) : Prop where
  nonempty : token ≠ []
  comma : ',' ∉ token
  sign : '#' ∉ token

/-- Two such tokens that denote the same word. -/
structure Agree (symbols : Symbols) (a b : Text) : Prop where
  left : IsAtom a
  right : IsAtom b
  value? : ∃ word, symbols.value? a = some word ∧ symbols.value? b = some word

namespace IsAtom

variable {token : Text}

theorem head?_ne (hatom : IsAtom token) : token.head? ≠ some '#' := by
  intro hhead
  exact hatom.sign (List.mem_of_mem_head? hhead)

theorem head?_append_ne (hatom : IsAtom token) (rest : Text) :
    (token ++ rest).head? ≠ some '#' := by
  rw [List.head?_append_of_ne_nil _ hatom.nonempty]
  exact hatom.head?_ne

theorem dropFirst (hatom : IsAtom token) : Text.dropFirst '#' token = token := by
  obtain ⟨c, rest, rfl⟩ := List.exists_cons_of_ne_nil hatom.nonempty
  have hc : c ≠ '#' := fun heq => hatom.head?_ne (by rw [heq]; rfl)
  simp [Text.dropFirst, hc]

end IsAtom

namespace Agree

variable {symbols : Symbols} {a b : Text} {mnemonic : Text} {modes : Modes} {special : Special}

/-- A literal and the name of a constant of the same value. -/
theorem of_constant {name literal : Text} {word : UInt32} (hname : IsAtom name)
    (hnot : Literal.value? name = none) (hconstant : symbols.constant? name = some word)
    (hliteral : HexLiteral word.toNat literal) : Agree symbols name literal where
  left := hname
  right := ⟨hliteral.isWord.nonempty, hliteral.not_mem (by decide) (by decide),
    hliteral.not_mem (by decide) (by decide)⟩
  value? := by
    refine ⟨word, ?_, ?_⟩
    · rw [Symbols.value?, hnot, hconstant]
      rfl
    · rw [Symbols.value?, hliteral.value?]
      rfl

theorem value?_eq (hagree : Agree symbols a b) : symbols.value? a = symbols.value? b := by
  obtain ⟨word, ha, hb⟩ := hagree.value?
  rw [ha, hb]

theorem resolve_eq (hagree : Agree symbols a b) (limit : UInt32) (missing : Fault) :
    symbols.resolve limit missing a = symbols.resolve limit missing b := by
  rw [Symbols.resolve, Symbols.resolve, hagree.value?_eq]

/-- Neither is left open as a label. -/
theorem resolveOrDefer_eq (hagree : Agree symbols a b) (limit : UInt32) :
    symbols.resolveOrDefer limit a = symbols.resolveOrDefer limit b := by
  obtain ⟨word, ha, hb⟩ := hagree.value?
  rw [Symbols.resolveOrDefer, Symbols.resolveOrDefer, ha, hb]

theorem formByte_eq (hagree : Agree symbols a b) :
    Progress.formByte symbols a = Progress.formByte symbols b := by
  obtain ⟨word, ha, hb⟩ := hagree.value?
  -- A token that is not empty becomes a byte by its value alone.
  have hform : ∀ token : Text, token ≠ [] → symbols.value? token = some word →
      Progress.formByte symbols token = Progress.formByte.toByte word := by
    intro token hsome hvalue
    unfold Symbols.value? at hvalue
    unfold Progress.formByte
    cases hliteral : Literal.value? token with
    | some found =>
        rw [hliteral, Option.some_or, Option.some.injEq] at hvalue
        rw [hvalue]
    | none =>
        rw [hliteral, Option.none_or] at hvalue
        simp [hsome, hvalue]
  rw [hform a hagree.left.nonempty ha, hform b hagree.right.nonempty hb]

/-! ### Standard mnemonics -/

open Instruction

theorem encodeAddress_eq (hagree : Agree symbols a b) :
    encodeAddress symbols mnemonic modes a = encodeAddress symbols mnemonic modes b := by
  simp only [encodeAddress, hagree.resolve_eq, hagree.resolveOrDefer_eq]

theorem encodeOperand_eq (hagree : Agree symbols a b) :
    encodeOperand symbols mnemonic modes a = encodeOperand symbols mnemonic modes b := by
  cases hbranch : modes.opcode? .relative with
  | some opcode => simp only [encodeOperand, hbranch, hagree.resolveOrDefer_eq]
  | none =>
      rw [encodeOperand_of_plain hbranch hagree.left.head?_ne
          (indexSuffix_of_not_mem hagree.left.comma),
        encodeOperand_of_plain hbranch hagree.right.head?_ne
          (indexSuffix_of_not_mem hagree.right.comma), hagree.encodeAddress_eq]

theorem encodeOperand_immediate_eq (hagree : Agree symbols a b)
    (hbranch : modes.opcode? .relative = none) :
    encodeOperand symbols mnemonic modes ('#' :: a) =
      encodeOperand symbols mnemonic modes ('#' :: b) := by
  simp [encodeOperand, hbranch, encodeImmediate, hagree.resolve_eq]

theorem encodeOperand_indexed_eq (hagree : Agree symbols a b)
    (hbranch : modes.opcode? .relative = none) (register : Char) :
    encodeOperand symbols mnemonic modes (a ++ [',', register]) =
      encodeOperand symbols mnemonic modes (b ++ [',', register]) := by
  have hleft := beq_false_of_ne (hagree.left.head?_append_ne [',', register])
  have hright := beq_false_of_ne (hagree.right.head?_append_ne [',', register])
  simp only [encodeOperand, hbranch, hleft, hright, indexSuffix_append]
  cases Mode.ofRegister? register with
  | none => rfl
  | some mode => simp [encodeIndexed, hagree.resolve_eq, bind, Except.bind]

/-! ### Special mnemonics -/

/-- The first operand counts by its mode and by what it denotes. -/
theorem encodeParts_address_eq (hagree : Agree symbols a b) {x y : Text}
    {mode? : Except Fault Mode} (hx : specialBase x = mode?.map (·, a))
    (hy : specialBase y = mode?.map (·, b)) (mask : Text) (targets : List Text) :
    encodeParts symbols special x mask targets = encodeParts symbols special y mask targets := by
  rw [encodeParts, encodeParts, hx, hy]
  cases mode? with
  | error fault => rfl
  | ok mode => simp [Except.map, bind, Except.bind, hagree.resolve_eq]

theorem specialBase_plain {token : Text} (hatom : IsAtom token) :
    specialBase token = (Except.ok Mode.direct : Except Fault Mode).map (·, token) := by
  rw [specialBase, indexSuffix_of_not_mem hatom.comma]
  rfl

theorem specialBase_indexed (base : Text) (register : Char) :
    specialBase (base ++ [',', register]) =
      ((Mode.ofRegister? register).elim (.error .badOperand) .ok : Except Fault Mode).map
        (·, base) := by
  rw [specialBase, indexSuffix_append]
  cases Mode.ofRegister? register <;> rfl

/-- The mask may carry a number sign of its own. -/
theorem encodeParts_mask_eq (hagree : Agree symbols a b) {x y : Text}
    (hx : Text.dropFirst '#' x = a) (hy : Text.dropFirst '#' y = b) (address : Text)
    (targets : List Text) :
    encodeParts symbols special address x targets =
      encodeParts symbols special address y targets := by
  simp only [encodeParts, hx, hy, hagree.resolve_eq]

theorem encodeParts_target_eq (hagree : Agree symbols a b) (address mask : Text)
    (targets : List Text) :
    encodeParts symbols special address mask (a :: targets) =
      encodeParts symbols special address mask (b :: targets) := by
  simp [encodeParts, hagree.resolveOrDefer_eq]

/-- Two operands in the same place give the same result if they do so with the operands before and
after it. -/
theorem encodeSpecial_fill_congr {slot : Slot} {x y : Text} (hx : ',' ∉ x ∨ '#' ∉ x)
    (hy : ',' ∉ y ∨ '#' ∉ y)
    (hparts : ∀ address mask targets address' mask' targets',
      slot.earlier ++ x :: slot.later = address :: mask :: targets →
      slot.earlier ++ y :: slot.later = address' :: mask' :: targets' →
      encodeParts symbols special address mask targets =
        encodeParts symbols special address' mask' targets') :
    encodeSpecial symbols special (slot.fill x) = encodeSpecial symbols special (slot.fill y) := by
  have hlength : (slot.earlier ++ x :: slot.later).length =
      (slot.earlier ++ y :: slot.later).length := by simp
  simp only [encodeSpecial, slot.specialParts_fill hx, slot.specialParts_fill hy, hlength]
  split
  next => rfl
  next =>
    split
    next => rfl
    next =>
      -- The number of operands is the same, so either both have an address and a mask or neither.
      rcases hleft : slot.earlier ++ x :: slot.later with _ | ⟨address, _ | ⟨mask, targets⟩⟩ <;>
        rcases hright : slot.earlier ++ y :: slot.later with
          _ | ⟨address', _ | ⟨mask', targets'⟩⟩ <;>
        simp only [hleft, hright, List.length_cons, List.length_nil] at hlength ⊢ <;>
        try omega
      exact hparts _ _ _ _ _ _ hleft hright

theorem encodeSpecial_address_eq (hagree : Agree symbols a b) {slot : Slot} {x y : Text}
    {mode? : Except Fault Mode} (hfirst : slot.earlier = [])
    (hx : '#' ∉ x) (hy : '#' ∉ y) (hbase : specialBase x = mode?.map (·, a))
    (hbase' : specialBase y = mode?.map (·, b)) :
    encodeSpecial symbols special (slot.fill x) = encodeSpecial symbols special (slot.fill y) := by
  apply encodeSpecial_fill_congr (.inr hx) (.inr hy)
  rw [hfirst]
  intro address mask targets address' mask' targets' hleft hright
  obtain ⟨rfl, hlater⟩ := List.cons.inj hleft
  obtain ⟨rfl, hlater'⟩ := List.cons.inj hright
  obtain ⟨rfl, rfl⟩ := List.cons.inj (hlater.symm.trans hlater')
  exact hagree.encodeParts_address_eq hbase hbase' mask targets

theorem encodeSpecial_mask_eq (hagree : Agree symbols a b) {slot : Slot} {x y : Text}
    (hsecond : slot.earlier.length = 1) (hx : ',' ∉ x) (hy : ',' ∉ y)
    (hmask : Text.dropFirst '#' x = a) (hmask' : Text.dropFirst '#' y = b) :
    encodeSpecial symbols special (slot.fill x) = encodeSpecial symbols special (slot.fill y) := by
  apply encodeSpecial_fill_congr (.inl hx) (.inl hy)
  obtain ⟨first, hfirst⟩ := List.length_eq_one_iff.mp hsecond
  rw [hfirst]
  intro address mask targets address' mask' targets' hleft hright
  cases hleft
  cases hright
  exact hagree.encodeParts_mask_eq hmask hmask' first slot.later

theorem encodeSpecial_target_eq (hagree : Agree symbols a b) {slot : Slot}
    (hthird : slot.earlier.length = 2) :
    encodeSpecial symbols special (slot.fill a) = encodeSpecial symbols special (slot.fill b) := by
  apply encodeSpecial_fill_congr (.inl hagree.left.comma) (.inl hagree.right.comma)
  obtain ⟨first, second, hboth⟩ := List.length_eq_two.mp hthird
  rw [hboth]
  intro address mask targets address' mask' targets' hleft hright
  cases hleft
  cases hright
  exact hagree.encodeParts_target_eq first second slot.later

end Agree

/-! ## Places where a constant can stand -/

namespace Instruction

/-- Tokens of a mnemonic with a given entry that differ in a single place only, where one has `a`
and the other has `b`. -/
inductive Interchange (a b : Text) : Entry → List Text → List Text → Prop
  | whole {modes : Modes} : Interchange a b (.standard modes) [a] [b]
  /-- A value, where the number sign is not part of the name of a label. -/
  | immediate {modes : Modes} (hbranch : modes.opcode? .relative = none) :
      Interchange a b (.standard modes) ['#' :: a] ['#' :: b]
  | indexed {modes : Modes} {register : Char} (hbranch : modes.opcode? .relative = none)
      (hregister : (Mode.ofRegister? register).isSome = true) :
      Interchange a b (.standard modes) [a ++ [',', register]] [b ++ [',', register]]
  | address {special : Special} {slot : Slot} (hfirst : slot.earlier = []) :
      Interchange a b (.special special) (slot.fill a) (slot.fill b)
  | indexedAddress {special : Special} {slot : Slot} {register : Char}
      (hfirst : slot.earlier = []) (hregister : (Mode.ofRegister? register).isSome = true) :
      Interchange a b (.special special) (slot.fill (a ++ [',', register]))
        (slot.fill (b ++ [',', register]))
  | mask {special : Special} {slot : Slot} (hsecond : slot.earlier.length = 1) :
      Interchange a b (.special special) (slot.fill a) (slot.fill b)
  /-- A mask with a number sign, which is not the one that joins it to the address. -/
  | markedMask {special : Special} {slot : Slot} (hsecond : slot.earlier.length = 1) :
      Interchange a b (.special special) (slot.fill ('#' :: a)) (slot.fill ('#' :: b))
  | target {special : Special} {slot : Slot} (hthird : slot.earlier.length = 2) :
      Interchange a b (.special special) (slot.fill a) (slot.fill b)

/-- Tokens that denote the same word can be interchanged. -/
theorem Interchange.encode_eq {table : Table} {symbols : Symbols} {mnemonic a b : Text}
    {entry : Entry} {tokens others : List Text} (hagree : Agree symbols a b)
    (hlookup : table.lookup mnemonic = some entry)
    (hinterchange : Interchange a b entry tokens others) :
    encode table symbols mnemonic tokens = encode table symbols mnemonic others := by
  rw [encode, encode, hlookup]
  cases hinterchange with
  | whole => exact hagree.encodeOperand_eq
  | immediate hbranch => exact hagree.encodeOperand_immediate_eq hbranch
  | indexed hbranch => exact hagree.encodeOperand_indexed_eq hbranch _
  | address hfirst =>
      exact hagree.encodeSpecial_address_eq hfirst hagree.left.sign hagree.right.sign
        (Agree.specialBase_plain hagree.left) (Agree.specialBase_plain hagree.right)
  | @indexedAddress _ _ register hfirst hregister =>
      have hsign : '#' ∉ [',', register] := by
        have hother : register ≠ '#' := by
          rintro rfl
          exact absurd hregister (by decide)
        simpa using hother.symm
      exact hagree.encodeSpecial_address_eq hfirst (List.not_mem_append hagree.left.sign hsign)
        (List.not_mem_append hagree.right.sign hsign) (Agree.specialBase_indexed a register)
        (Agree.specialBase_indexed b register)
  | mask hsecond =>
      exact hagree.encodeSpecial_mask_eq hsecond hagree.left.comma hagree.right.comma
        hagree.left.dropFirst hagree.right.dropFirst
  | markedMask hsecond =>
      have hsign : ∀ token : Text, ',' ∉ token → ',' ∉ '#' :: token := by
        intro token hcomma
        simpa using hcomma
      exact hagree.encodeSpecial_mask_eq hsecond (hsign a hagree.left.comma)
        (hsign b hagree.right.comma) rfl rfl
  | target hthird => exact hagree.encodeSpecial_target_eq hthird

end Instruction

/-- The bytes of a line may be spelled one way or the other, each by itself. -/
theorem Progress.obey_formBytes_eq {setting : Setting} {progress : Progress} {a b : Text}
    {tokens others : List Text} (hagree : Agree progress.symbols a b)
    (htokens : List.Forall₂ (fun token other => other = token ∨ token = a ∧ other = b)
      tokens others) :
    progress.obey setting (.formBytes tokens) = progress.obey setting (.formBytes others) := by
  have hbytes : tokens.mapM (formByte progress.symbols) =
      others.mapM (formByte progress.symbols) := by
    apply Outcome.mapM_congr_forall₂
    apply htokens.imp
    rintro token other (rfl | ⟨rfl, rfl⟩)
    · rfl
    · exact hagree.formByte_eq
  simp only [obey, hbytes]

/-- A constant can be replaced by its value.  Let `name` be a constant, which is neither a literal
nor holds any of the characters that part operands, and `literal` its value in hexadecimal.
Exchanging one for the other changes no encoding and no line of bytes, nor the fault that either
meets: for a standard mnemonic as its whole operand, after a number sign or before an index
register, unless it is a branch; for a special mnemonic in every operand; and in any of the tokens
of `FCB`. -/
theorem Symbols.constant_transparent {symbols : Symbols} {name literal : Text} {word : UInt32}
    (hsome : name ≠ []) (hcomma : ',' ∉ name) (hsign : '#' ∉ name)
    (hnot : Literal.value? name = none) (hconstant : symbols.constant? name = some word)
    (hliteral : HexLiteral word.toNat literal) :
    (∀ (table : Table) (mnemonic : Text) (entry : Entry) (tokens others : List Text),
      table.lookup mnemonic = some entry →
      Instruction.Interchange name literal entry tokens others →
      Instruction.encode table symbols mnemonic tokens =
        Instruction.encode table symbols mnemonic others) ∧
    ∀ (setting : Setting) (progress : Progress) (tokens others : List Text),
      progress.symbols = symbols →
      List.Forall₂ (fun token other => other = token ∨ token = name ∧ other = literal)
        tokens others →
      progress.obey setting (.formBytes tokens) = progress.obey setting (.formBytes others) := by
  have hagree : Agree symbols name literal :=
    .of_constant ⟨hsome, hcomma, hsign⟩ hnot hconstant hliteral
  refine ⟨fun table mnemonic entry tokens others hlookup hinterchange =>
    hinterchange.encode_eq hagree hlookup, ?_⟩
  rintro setting progress tokens others rfl htokens
  exact progress.obey_formBytes_eq hagree htokens

/-- A constant that is used as the mask of a branch on bits. -/
def maskSymbols : Symbols := { constants := [("MASK".toList, 0x0F)] }

/-- The place of that mask, joined to the address. -/
def maskSlot : Instruction.Slot := ⟨[], some "$20".toList, none, ["DONE".toList]⟩

theorem Symbols.constant_transparent_mask :
    Instruction.encode sampleSetting.table maskSymbols "BRSET".toList
        ["$20,#MASK".toList, "DONE".toList] =
      Instruction.encode sampleSetting.table maskSymbols "BRSET".toList
        ["$20,#$0f".toList, "DONE".toList] ∧
    Progress.obey sampleSetting ⟨maskSymbols, some 0x100, false⟩
        (.formBytes ["1".toList, "MASK".toList]) =
      Progress.obey sampleSetting ⟨maskSymbols, some 0x100, false⟩
        (.formBytes ["1".toList, "$0f".toList]) := by
  have hconstant : maskSymbols.constant? "MASK".toList = some 0x0F := by decide
  have hliteral : HexLiteral (0x0F : UInt32).toNat "$0f".toList :=
    ⟨"0f".toList, by decide, by decide⟩
  obtain ⟨hencode, hbytes⟩ := constant_transparent (by decide) (by decide) (by decide)
    (by decide) hconstant hliteral
  have hname : maskSlot.fill "MASK".toList = ["$20,#MASK".toList, "DONE".toList] := by decide
  have hvalue : maskSlot.fill "$0f".toList = ["$20,#$0f".toList, "DONE".toList] := by decide
  constructor
  · rw [← hname, ← hvalue]
    exact hencode _ _ (.special ⟨3, [(.direct, .short 0x12)]⟩) _ _ (by decide) (.mask (by decide))
  · exact hbytes _ _ _ _ rfl (.cons (.inl rfl) (.cons (.inr ⟨rfl, rfl⟩) .nil))

end TwoPass
