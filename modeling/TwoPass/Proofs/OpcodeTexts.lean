import Mathlib.Algebra.GroupWithZero.Nat
import Mathlib.Data.List.Induction
import TwoPass.Code.Line
import TwoPass.Proofs.Words

/-!
# How opcodes are spelled

An instruction table spells an opcode with two hexadecimal digits for each byte, and blanks anywhere
between them.  Two facts make such a text and its opcode determine each other: the number of digits
tells how many bytes there are, and a code of two bytes does not start with a zero byte.

* `parse?_eq_some` says which texts spell a given opcode, in terms of its value and its size.
* `isCode_of_parse?` and `exists_parse?_of_isCode` are the language of opcodes; `numeral?_four`
  finds in the digits whether the first of two bytes is zero.
* `parse?_render` is the round trip.

The reader of numbers lets a plus sign stand in front.  As the characters have been counted by then,
the sign takes the place of a digit, and it counts as the digit zero (`parse?_of_plus`).
-/

namespace TwoPass

/-! ## Hexadecimal digits -/

namespace Text

variable {radix n d : Nat} {text : Text} {c : Char}

/-- The hexadecimal digits, with letters of either case. -/
def hexDigits : Text := "0123456789ABCDEFabcdef".toList

theorem toNat_lt_of_digitOf (hdigit : digitOf radix c = some d) : c.toNat < 128 := by
  obtain ⟨hvalue, -⟩ := Option.filter_eq_some_iff.mp hdigit
  simp only [digitValue, Bool.and_eq_true, decide_eq_true_eq] at hvalue
  by_contra hhigh
  rw [if_neg (by omega), if_neg (by omega), if_neg (by omega)] at hvalue
  cases hvalue

theorem digitOf_lt (hdigit : digitOf radix c = some d) : d < radix := by
  simpa using (Option.filter_eq_some_iff.mp hdigit).2

/-- A property of digits has to be checked for the ASCII characters only. -/
theorem of_digitOf {p : Char → Prop} (hall : ∀ n < 128, p (Char.ofNat n))
    (hdigit : digitOf radix c = some d) : p c := by
  have hchar := hall c.toNat (toNat_lt_of_digitOf hdigit)
  rwa [Char.ofNat_toNat] at hchar

theorem mem_hexDigits : c ∈ hexDigits ↔ ∃ d, digitOf 16 c = some d := by
  rw [← Option.isSome_iff_exists]
  constructor
  · have hall : (hexDigits.all fun c => (digitOf 16 c).isSome) = true := by decide
    exact List.all_eq_true.mp hall c
  · intro hsome
    obtain ⟨d, hdigit⟩ := Option.isSome_iff_exists.mp hsome
    have hall : ∀ n < 128, (digitOf 16 (Char.ofNat n)).isSome = true →
        Char.ofNat n ∈ hexDigits := by decide
    exact of_digitOf (p := fun c => (digitOf 16 c).isSome = true → c ∈ hexDigits) hall hdigit hsome

theorem digitOf_eq_zero : digitOf 16 c = some 0 ↔ c = '0' := by
  constructor
  · intro hdigit
    have hall : ∀ n < 128, digitOf 16 (Char.ofNat n) = some 0 → Char.ofNat n = '0' := by decide
    exact of_digitOf (p := fun c => digitOf 16 c = some 0 → c = '0') hall hdigit hdigit
  · rintro rfl
    decide

/-! ## Numbers of a given length -/

theorem ofDigits_concat (digits : List Nat) (d : Nat) :
    ofDigits radix (digits ++ [d]) = ofDigits radix digits * radix + d := by
  simp [ofDigits]

theorem ofDigits_append (high low : List Nat) : ofDigits radix (high ++ low) =
    ofDigits radix high * radix ^ low.length + ofDigits radix low := by
  induction low using List.reverseRecOn with
  | nil => simp [ofDigits]
  | append_singleton low d ih =>
      rw [← List.append_assoc, ofDigits_concat, ih, ofDigits_concat, List.length_append,
        List.length_singleton, Nat.pow_succ, Nat.add_mul, Nat.mul_assoc, Nat.add_assoc]

theorem ofDigits_lt {digits : List Nat} (hdigits : ∀ d ∈ digits, d < radix) :
    ofDigits radix digits < radix ^ digits.length := by
  induction digits using List.reverseRecOn with
  | nil => simp [ofDigits]
  | append_singleton digits d ih =>
      obtain ⟨hfront, hlast⟩ := List.forall_mem_append.mp hdigits
      have hd : d < radix := hlast d (List.mem_singleton_self d)
      have hstep : ofDigits radix digits + 1 ≤ radix ^ digits.length := ih hfront
      calc ofDigits radix (digits ++ [d])
          = ofDigits radix digits * radix + d := ofDigits_concat digits d
        _ < ofDigits radix digits * radix + radix := Nat.add_lt_add_left hd _
        _ = (ofDigits radix digits + 1) * radix := by rw [Nat.add_mul, Nat.one_mul]
        _ ≤ radix ^ digits.length * radix := Nat.mul_le_mul_right radix hstep
        _ = radix ^ (digits ++ [d]).length := by rw [List.length_append, List.length_singleton,
          Nat.pow_succ]

theorem numeral?_lt (htext : numeral? radix text = some n) : n < radix ^ text.length := by
  obtain ⟨-, digits, hdigits, rfl⟩ := numeral?_eq_some.mp htext
  have hall := Outcome.mapM_eq_some.mp hdigits
  rw [hall.length_eq]
  apply ofDigits_lt
  intro d hd
  obtain ⟨k, hget⟩ := List.getElem?_of_mem hd
  obtain ⟨c, -, hdigit⟩ := Outcome.getElem?_of_forall₂_right hall hget
  exact digitOf_lt hdigit

/-- Two numerals side by side. -/
theorem numeral?_append {high low : Text} {m : Nat} (hhigh : numeral? radix high = some m)
    (hlow : numeral? radix low = some n) :
    numeral? radix (high ++ low) = some (m * radix ^ low.length + n) := by
  obtain ⟨hsome, highs, hhighs, rfl⟩ := numeral?_eq_some.mp hhigh
  obtain ⟨-, lows, hlows, rfl⟩ := numeral?_eq_some.mp hlow
  refine numeral?_eq_some.mpr ⟨by simp [hsome], highs ++ lows, ?_, ?_⟩
  · simp [List.mapM_append, hhighs, hlows]
  · rw [ofDigits_append, (Outcome.mapM_eq_some.mp hlows).length_eq]

/-- Numerals are the texts of digits that are not empty. -/
theorem exists_numeral?_iff :
    (∃ n, numeral? 16 text = some n) ↔ text ≠ [] ∧ ∀ c ∈ text, c ∈ hexDigits := by
  constructor
  · rintro ⟨n, htext⟩
    refine ⟨(numeral?_eq_some.mp htext).1, fun c hmem => ?_⟩
    by_contra hother
    refine not_mem_of_numeral? htext ?_ hmem
    rw [mem_hexDigits, not_exists] at hother
    exact Option.eq_none_iff_forall_ne_some.mpr hother
  · rintro ⟨hsome, hall⟩
    induction text using List.reverseRecOn with
    | nil => exact absurd rfl hsome
    | append_singleton front c ih =>
        obtain ⟨hfront, hlast⟩ := List.forall_mem_append.mp hall
        obtain ⟨d, hdigit⟩ := mem_hexDigits.mp (hlast c (List.mem_singleton_self c))
        by_cases hnone : front = []
        · subst hnone
          exact ⟨d, numeral?_singleton hdigit⟩
        · obtain ⟨m, hm⟩ := ih hnone hfront
          exact ⟨m * 16 + d, numeral?_concat hm hdigit⟩

/-- The first byte of a number of four digits is zero if the first two digits are. -/
theorem numeral?_four (htext : numeral? 16 text = some n) (hlength : text.length = 4) :
    n < 256 ↔ text.take 2 = ['0', '0'] := by
  obtain ⟨-, digits, hdigits, rfl⟩ := numeral?_eq_some.mp htext
  have hall := Outcome.mapM_eq_some.mp hdigits
  match text, digits, hall with
  | [a, b, _, _], [x, y, z, w], .cons ha (.cons hb (.cons hc (.cons hd .nil))) =>
      have hz := digitOf_lt hc
      have hw := digitOf_lt hd
      have hvalue : ofDigits 16 [x, y, z, w] = ((x * 16 + y) * 16 + z) * 16 + w := by
        simp [ofDigits]
      have hzero : ∀ {c : Char} {v : Nat}, digitOf 16 c = some v → (v = 0 ↔ c = '0') := by
        intro c v hv
        rw [← digitOf_eq_zero, hv, Option.some.injEq]
      have hpair : [a, b] = ['0', '0'] ↔ x = 0 ∧ y = 0 := by
        rw [hzero ha, hzero hb]
        simp
      show ofDigits 16 [x, y, z, w] < 256 ↔ [a, b] = ['0', '0']
      rw [hvalue, hpair]
      omega

theorem numeral?_zero_cons_eq (hsome : text ≠ []) :
    numeral? 16 ('0' :: text) = numeral? 16 text := by
  have hzero : digitOf 16 '0' = some 0 := digitOf_eq_zero.mpr rfl
  have hleading : ∀ digits, ofDigits 16 (0 :: digits) = ofDigits 16 digits := fun _ => rfl
  simp only [numeral?, List.isEmpty_cons, Bool.false_eq_true, if_false,
    List.isEmpty_eq_false_iff.mpr hsome, List.mapM_cons, hzero]
  cases text.mapM (digitOf 16) with
  | none => rfl
  | some digits => exact congrArg some (hleading digits)

end Text

namespace Opcode

variable {text rest : Text} {opcode : Opcode} {n : Nat}

/-! ## The opcode of a text -/

/-- A second byte is there because the first one is not zero. -/
def Paged : Opcode → Prop
  | short _ => True
  | paged page _ => page ≠ 0

theorem toUInt8_value_div (page code : UInt8) :
    ((paged page code).value / 256).toUInt8 = page := by
  have hcode : code.toNat < 256 := code.toNat_lt
  have hpage : page.toNat < 256 := page.toNat_lt
  have hhigh : (paged page code).value / 256 % 256 = page.toNat := by
    simp only [value]
    omega
  exact UInt8.toNat_inj.mp hhigh

theorem toUInt8_value (page code : UInt8) : (paged page code).value.toUInt8 = code := by
  have hcode : code.toNat < 256 := code.toNat_lt
  have hlow : (paged page code).value % 256 = code.toNat := by
    simp only [value]
    omega
  exact UInt8.toNat_inj.mp hlow

/-- Two bytes are more than a number of one byte. -/
theorem lt_value_of_paged {page code : UInt8} (hpaged : (paged page code).Paged) :
    0xFF < (paged page code).value := by
  have hpage : page.toNat ≠ 0 := fun hzero => hpaged (UInt8.toNat_inj.mp hzero)
  simp only [value]
  omega

theorem bytes_eq_bigEndian (opcode : Opcode) :
    opcode.bytes = bigEndian opcode.size opcode.value := by
  cases opcode with
  | short code =>
      have hcode : code.toNat.toUInt8 = code := UInt8.ofNat_toNat
      simp only [bytes, size, value, bigEndian, hcode, List.nil_append]
  | paged page code =>
      simp only [bytes, size, bigEndian, toUInt8_value_div, toUInt8_value, List.nil_append,
        List.cons_append]

theorem hexNumber?_lt (hnumber : hexNumber? text = some n) : n < 16 ^ text.length := by
  have hdropped : (Text.dropFirst '+' text).length ≤ text.length := by
    cases text with
    | nil => exact Nat.le_refl 0
    | cons c rest =>
        rw [Text.dropFirst]
        split
        · exact Nat.le_succ rest.length
        · exact Nat.le_refl _
  calc n < 16 ^ (Text.dropFirst '+' text).length := Text.numeral?_lt hnumber
    _ ≤ 16 ^ text.length := Nat.pow_le_pow_right (by decide) hdropped

/-- The texts that spell an opcode: they have its value as a number, and two characters for each of
its bytes. -/
theorem parse?_eq_some : parse? text = some opcode ↔
    hexNumber? (squeeze text) = some opcode.value ∧
      (squeeze text).length = 2 * opcode.size ∧ opcode.Paged := by
  constructor
  · intro hparse
    unfold parse? at hparse
    simp only [beq_iff_eq] at hparse
    split at hparse
    next htwo =>
      obtain ⟨n, hnumber, rfl⟩ := Option.map_eq_some_iff.mp hparse
      have hn : n < 16 ^ 2 := htwo ▸ hexNumber?_lt hnumber
      have hvalue : (short n.toUInt8).value = n := Nat.mod_eq_of_lt hn
      exact ⟨by rw [hnumber, hvalue], htwo, trivial⟩
    next =>
      split at hparse
      next hfour =>
        obtain ⟨n, hnumber, hbytes⟩ := Option.bind_eq_some_iff.mp hparse
        split at hbytes
        next => cases hbytes
        next hlarge =>
          cases hbytes
          have hn : n < 16 ^ 4 := hfour ▸ hexNumber?_lt hnumber
          have hpage : (n / 256).toUInt8.toNat = n / 256 := Nat.mod_eq_of_lt (by omega)
          have hvalue : (paged (n / 256).toUInt8 n.toUInt8).value = n := by
            rw [value, hpage]
            exact Nat.div_add_mod' n 256
          refine ⟨by rw [hnumber, hvalue], hfour, fun hzero => ?_⟩
          rw [hzero, UInt8.toNat_zero] at hpage
          omega
      next => cases hparse
  · rintro ⟨hnumber, hlength, hpaged⟩
    unfold parse?
    cases opcode with
    | short code => simp [hlength, size, hnumber, value]
    | paged page code =>
        have hlarge : ¬ (paged page code).value ≤ 0xFF := Nat.not_le.mpr (lt_value_of_paged hpaged)
        simp [hlength, size, hnumber, hlarge, toUInt8_value_div, toUInt8_value]

/-! ## The language of opcodes -/

/-- Two digits, or four digits the first two of which are not zeros. -/
def IsCode (digits : Text) : Prop :=
  (∀ c ∈ digits, c ∈ Text.hexDigits) ∧
    (digits.length = 2 ∨ digits.length = 4 ∧ digits.take 2 ≠ ['0', '0'])

instance (digits : Text) : Decidable (IsCode digits) :=
  decidable_of_iff (digits.all (Text.hexDigits.contains ·) = true ∧
    (digits.length = 2 ∨ digits.length = 4 ∧ digits.take 2 ≠ ['0', '0'])) (by simp [IsCode])

theorem squeeze_of_solid (hsolid : ∀ c ∈ text, Text.isBlank c = false) : squeeze text = text := by
  apply List.filter_eq_self.mpr
  intro c hmem
  rw [hsolid c hmem, Bool.not_false]

theorem solid_squeeze (text : Text) : ∀ c ∈ squeeze text, Text.isBlank c = false := by
  intro c hmem
  simpa using (List.mem_filter.mp hmem).2

theorem hexNumber?_of_unsigned (hunsigned : text.head? ≠ some '+') :
    hexNumber? text = Text.numeral? 16 text := by
  cases text with
  | nil => rfl
  | cons c rest =>
      have hc : c ≠ '+' := fun heq => hunsigned (congrArg some heq)
      simp [hexNumber?, Text.dropFirst, hc]

/-- Digits are read for what they are, as they are not blank and not a sign. -/
theorem hexNumber?_squeeze_of_numeral? (htext : Text.numeral? 16 text = some n) :
    hexNumber? (squeeze text) = some n ∧ squeeze text = text := by
  have hsolid : squeeze text = text := squeeze_of_solid (Text.solid_of_numeral? htext)
  refine ⟨?_, hsolid⟩
  rw [hsolid, hexNumber?_of_unsigned, htext]
  intro hsign
  exact Text.not_mem_of_numeral? htext (by decide) (List.mem_of_mem_head? hsign)

theorem numeral?_render (opcode : Opcode) :
    Text.numeral? 16 opcode.render = some opcode.value := by
  cases opcode with
  | short code => exact Text.numeral?_byteHex code
  | paged page code =>
      exact Text.numeral?_append (Text.numeral?_byteHex page) (Text.numeral?_byteHex code)

/-- What an opcode is rendered as spells it. -/
theorem parse?_render (hpaged : opcode.Paged) : parse? opcode.render = some opcode := by
  obtain ⟨hnumber, hsolid⟩ := hexNumber?_squeeze_of_numeral? (numeral?_render opcode)
  refine parse?_eq_some.mpr ⟨hnumber, ?_, hpaged⟩
  rw [hsolid]
  cases opcode <;> rfl

theorem isCode_of_parse? (hunsigned : (squeeze text).head? ≠ some '+')
    (hparse : parse? text = some opcode) : IsCode (squeeze text) := by
  obtain ⟨hnumber, hlength, hpaged⟩ := parse?_eq_some.mp hparse
  rw [hexNumber?_of_unsigned hunsigned] at hnumber
  refine ⟨(Text.exists_numeral?_iff.mp ⟨_, hnumber⟩).2, ?_⟩
  cases opcode with
  | short code => exact .inl hlength
  | paged page code =>
      refine .inr ⟨hlength, fun hzeros => ?_⟩
      have hsmall := (Text.numeral?_four hnumber hlength).mpr hzeros
      exact Nat.not_le.mpr (lt_value_of_paged hpaged) (Nat.le_of_lt_succ hsmall)

theorem exists_parse?_of_isCode (hcode : IsCode (squeeze text)) :
    ∃ opcode, parse? text = some opcode := by
  obtain ⟨hdigits, hlength⟩ := hcode
  have hsome : squeeze text ≠ [] := by
    intro hnone
    simp [hnone] at hlength
  obtain ⟨n, hnumber⟩ := Text.exists_numeral?_iff.mpr ⟨hsome, hdigits⟩
  have hread : hexNumber? (squeeze text) = some n := by
    rw [← squeeze_of_solid (solid_squeeze text)]
    exact (hexNumber?_squeeze_of_numeral? hnumber).1
  unfold parse?
  rcases hlength with htwo | ⟨hfour, hpage⟩
  · simp [htwo, hread]
  · have hlarge : ¬ n ≤ 0xFF := fun hsmall =>
      hpage ((Text.numeral?_four hnumber hfour).mp (Nat.lt_succ_of_le hsmall))
    simp [hfour, hread, hlarge]

/-- A plus sign in front is read as the digit zero. -/
theorem parse?_of_plus (hplus : squeeze text = '+' :: rest) :
    parse? text = parse? ('0' :: rest) := by
  have hsolid : squeeze ('0' :: rest) = '0' :: rest := by
    apply squeeze_of_solid
    intro c hmem
    rcases List.mem_cons.mp hmem with rfl | hrest
    · decide
    · exact solid_squeeze text c (hplus ▸ List.mem_cons_of_mem '+' hrest)
  cases rest with
  | nil => simp [parse?, hplus, hsolid]
  | cons c rest =>
      have hnumber : hexNumber? ('0' :: c :: rest) = hexNumber? ('+' :: c :: rest) :=
        Text.numeral?_zero_cons_eq (List.cons_ne_nil c rest)
      simp only [parse?, hplus, hsolid, hnumber, List.length_cons]

/-- A text whose first character, blanks aside, is not a plus sign spells an opcode if it is a code
of hexadecimal digits.  The opcode has one byte for each two digits, the bytes are the number that
the digits write, most significant first, and the opcode is read back from what it is rendered as.
A plus sign counts as the digit zero. -/
theorem parse?_digits (text : Text) :
    ((squeeze text).head? ≠ some '+' →
      ((∃ opcode, parse? text = some opcode) ↔ IsCode (squeeze text)) ∧
      ∀ opcode, parse? text = some opcode →
        2 * opcode.size = (squeeze text).length ∧ opcode.bytes.length = opcode.size ∧
        (∃ n, Text.numeral? 16 (squeeze text) = some n ∧
          opcode.bytes = bigEndian opcode.size n) ∧
        parse? opcode.render = some opcode) ∧
    ∀ rest, squeeze text = '+' :: rest → parse? text = parse? ('0' :: rest) := by
  refine ⟨fun hunsigned => ⟨⟨?_, exists_parse?_of_isCode⟩, ?_⟩, fun rest => parse?_of_plus⟩
  · rintro ⟨opcode, hparse⟩
    exact isCode_of_parse? hunsigned hparse
  · intro opcode hparse
    obtain ⟨hnumber, hlength, hpaged⟩ := parse?_eq_some.mp hparse
    rw [hexNumber?_of_unsigned hunsigned] at hnumber
    exact ⟨hlength.symm, length_bytes opcode, ⟨opcode.value, hnumber, bytes_eq_bigEndian opcode⟩,
      parse?_render hpaged⟩

theorem parse?_digits_pageCode :
    IsCode (squeeze " 18 a6 ".toList) ∧
      (∃ opcode, parse? " 18 a6 ".toList = some opcode) ∧
      parse? "18A6".toList = some (.paged 0x18 0xA6) ∧
      parse? " +F".toList = parse? "0F".toList := by
  have hcode : IsCode (squeeze " 18 a6 ".toList) := by decide
  have hspelled := (parse?_digits " 18 a6 ".toList).1 (by decide)
  have hrendered := (hspelled.2 (.paged 0x18 0xA6) (by decide)).2.2.2
  exact ⟨hcode, hspelled.1.mpr hcode, hrendered, (parse?_digits " +F".toList).2 ['F'] (by decide)⟩

/-- A sign and a digit are not a code, and yet they spell an opcode. -/
theorem parse?_accepts_sign :
    parse? "+F".toList = some (.short 0x0F) ∧
      ¬ ((∃ opcode, parse? "+F".toList = some opcode) ↔ IsCode (squeeze "+F".toList)) := by
  have hparse : parse? "+F".toList = some (.short 0x0F) := by decide
  have hsigned : ¬ IsCode (squeeze "+F".toList) := by decide
  exact ⟨hparse, fun hcode => hsigned (hcode.mp ⟨_, hparse⟩)⟩

end Opcode

end TwoPass
