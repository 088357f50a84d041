import Mathlib.Data.Nat.Digits.Defs
import TwoPass.Proofs.OpcodeTexts
import TwoPass.Source.Literal

/-!
# The language of literals

A literal writes a number of 32 bits: in hexadecimal, binary or decimal digits, or as the code of a
character.  This file says which texts do so without reference to the reader, and compares the two.

* `trimsTo_iff`: the blanks around a token are all blanks at its ends.
* `numeral?_eq_some_iff`: what the reader of digits accepts are the texts of digits in their
  positional value (`IsNumeral`), in letters of either case and with any number of leading zeros.
* `value?_eq_some_iff`: the first character tells which of the four forms a literal has, so that no
  text is read in two of them.

`means_of_parse` is the language, for texts of any length.
-/

namespace TwoPass

namespace Text

variable {radix n d : Nat} {token text before after blanks : Text} {c : Char}

/-! ## The blanks around a text -/

/-- A token is a text with blanks around it, where the text itself neither starts nor ends with a
blank. -/
structure TrimsTo (token text : Text) : Prop where
  around : ∃ before after, AllBlank before ∧ AllBlank after ∧ token = before ++ (text ++ after)
  head : ∀ c ∈ text.head?, isBlank c = false
  last : ∀ c ∈ text.getLast?, isBlank c = false

theorem trimStart_of_head (hhead : ∀ c ∈ text.head?, isBlank c = false) :
    trimStart text = text := by
  cases text with
  | nil => rfl
  | cons c rest => exact List.dropWhile_cons_of_neg (by simp [hhead c rfl])

theorem trimStart_blanks_append (hblank : AllBlank blanks) (text : Text) :
    trimStart (blanks ++ text) = trimStart text :=
  List.dropWhile_append_of_pos hblank

theorem trimEnd_eq (text : Text) : trimEnd text = (trimStart text.reverse).reverse := rfl

theorem TrimsTo.trim_eq (htrims : TrimsTo token text) : trim token = text := by
  obtain ⟨⟨before, after, hbefore, hafter, rfl⟩, hhead, hlast⟩ := htrims
  have hstart : trimStart (before ++ (text ++ after)) = trimStart (text ++ after) :=
    trimStart_blanks_append hbefore _
  cases text with
  | nil =>
      -- Nothing but blanks.
      have hnone : trimStart ([] ++ after) = [] := by
        rw [List.nil_append, ← List.append_nil after, trimStart_blanks_append hafter]
        rfl
      rw [trim, hstart, hnone]
      rfl
  | cons c rest =>
      have hsolid : trimStart (c :: rest ++ after) = c :: rest ++ after :=
        trimStart_of_head hhead
      have hreversed : AllBlank after.reverse := fun d hd => hafter d (List.mem_reverse.mp hd)
      have hback : trimStart (c :: rest).reverse = (c :: rest).reverse :=
        trimStart_of_head (by rwa [List.head?_reverse])
      rw [trim, hstart, hsolid, trimEnd_eq, List.reverse_append, trimStart_blanks_append hreversed,
        hback, List.reverse_reverse]

theorem allBlank_takeWhile (text : Text) : AllBlank (text.takeWhile isBlank) :=
  fun _ hmem => List.all_eq_true.mp List.all_takeWhile _ hmem

/-- What is left at the start does not begin with a blank. -/
theorem head?_trimStart (text : Text) : ∀ c ∈ (trimStart text).head?, isBlank c = false := by
  intro c hc
  have hfirst := List.head?_dropWhile_not isBlank text
  rw [trimStart] at hc
  rw [Option.mem_def.mp hc] at hfirst
  exact hfirst

theorem trimsTo_trim (token : Text) : TrimsTo token (trim token) := by
  let kept := trimStart token
  let tail := (kept.reverse.takeWhile isBlank).reverse
  have hfront : token = token.takeWhile isBlank ++ kept := List.takeWhile_append_dropWhile.symm
  have hback : kept = trim token ++ tail := by
    have hreverse : kept.reverse.takeWhile isBlank ++ trimStart kept.reverse = kept.reverse :=
      List.takeWhile_append_dropWhile
    rw [← List.reverse_reverse kept, ← hreverse, List.reverse_append]
    rfl
  refine ⟨⟨token.takeWhile isBlank, tail, allBlank_takeWhile token, ?_, ?_⟩, ?_, ?_⟩
  · exact fun c hc => allBlank_takeWhile _ c (List.mem_reverse.mp hc)
  · rw [← hback]
    exact hfront
  · intro c hc
    refine head?_trimStart token c ?_
    show c ∈ kept.head?
    rw [hback, List.head?_append, Option.mem_def.mp hc]
    rfl
  · intro c hc
    refine head?_trimStart kept.reverse c ?_
    rwa [trim, trimEnd_eq, List.getLast?_reverse] at hc

theorem trimsTo_iff : TrimsTo token text ↔ trim token = text := by
  constructor
  · exact TrimsTo.trim_eq
  · rintro rfl
    exact trimsTo_trim token

/-! ## Digits -/

/-- The digits in ascending order, with small letters. -/
def smallDigits : Text := "0123456789abcdef".toList

/-- The digits in ascending order, with capital letters. -/
def capitalDigits : Text := "0123456789ABCDEF".toList

/-- A character is the digit `d` of a radix. -/
def IsDigit (radix : Nat) (c : Char) (d : Nat) : Prop :=
  d < radix ∧ (smallDigits[d]? = some c ∨ capitalDigits[d]? = some c)

instance (radix : Nat) (c : Char) (d : Nat) : Decidable (IsDigit radix c d) :=
  inferInstanceAs (Decidable (_ ∧ _))

theorem digitOf_eq_some_iff (hradix : radix ≤ 16) :
    digitOf radix c = some d ↔ IsDigit radix c d := by
  rw [digitOf, Option.filter_eq_some_iff, decide_eq_true_eq, IsDigit, and_comm]
  refine and_congr_right fun hd => ?_
  have hsmall : d < 16 := Nat.lt_of_lt_of_le hd hradix
  constructor
  · intro hvalue
    have hdigit : digitOf 16 c = some d := Option.filter_eq_some_iff.mpr ⟨hvalue, by simpa⟩
    have hall : ∀ n < 128, ∀ d ∈ digitOf 16 (Char.ofNat n),
        smallDigits[d]? = some (Char.ofNat n) ∨ capitalDigits[d]? = some (Char.ofNat n) := by decide
    exact of_digitOf (p := fun c => ∀ d ∈ digitOf 16 c,
      smallDigits[d]? = some c ∨ capitalDigits[d]? = some c) hall hdigit d hdigit
  · have hall : ∀ d < 16, smallDigits[d]?.bind digitValue = some d ∧
        capitalDigits[d]?.bind digitValue = some d := by decide
    rintro (hc | hc)
    · simpa only [hc, Option.bind_some] using (hall d hsmall).1
    · simpa only [hc, Option.bind_some] using (hall d hsmall).2

/-- A text of one or more digits, the most significant first, and the number that they denote. -/
def IsNumeral (radix : Nat) (text : Text) (n : Nat) : Prop :=
  text ≠ [] ∧ ∃ digits, List.Forall₂ (IsDigit radix) text digits ∧
    Nat.ofDigits radix digits.reverse = n

theorem ofDigits_eq (digits : List Nat) :
    ofDigits radix digits = Nat.ofDigits radix digits.reverse := by
  induction digits using List.reverseRecOn with
  | nil => rfl
  | append_singleton digits d ih =>
      rw [ofDigits_concat, ih, List.reverse_append, List.reverse_singleton, List.singleton_append,
        Nat.ofDigits_cons, Nat.mul_comm, Nat.add_comm]

theorem numeral?_eq_some_iff (hradix : radix ≤ 16) :
    numeral? radix text = some n ↔ IsNumeral radix text n := by
  simp only [numeral?_eq_some, Outcome.mapM_eq_some, digitOf_eq_some_iff hradix, ofDigits_eq,
    IsNumeral]

end Text

namespace Literal

variable {token text digits : Text} {word : UInt32} {n : Nat} {c : Char} {fault : Fault}

open Text (IsNumeral TrimsTo)

/-! ## The forms of a literal -/

/-- A text, without blanks around it, writes a number. -/
inductive Writes : Text → Nat → Prop
  | hexadecimal {digits : Text} {n : Nat} (hdigits : IsNumeral 16 digits n) :
      Writes ('$' :: digits) n
  | binary {digits : Text} {n : Nat} (hdigits : IsNumeral 2 digits n) : Writes ('%' :: digits) n
  | decimal {digits : Text} {n : Nat} (hdigits : IsNumeral 10 digits n) : Writes digits n
  | character {c : Char} (hascii : c.toNat < 128) : Writes ['\'', c] c.toNat

/-- A token means a number if that is written in it, with any blanks around it. -/
def Means (token : Text) (n : Nat) : Prop := ∃ text, TrimsTo token text ∧ Writes text n

theorem means_iff : Means token n ↔ Writes (Text.trim token) n := by
  simp only [Means, Text.trimsTo_iff, exists_eq_left']

/-- What does not start with a decimal digit is no decimal number. -/
theorem not_isNumeral_cons (hother : Text.digitOf 10 c = none) (text : Text) :
    ¬ IsNumeral 10 (c :: text) n := by
  rw [← Text.numeral?_eq_some_iff (by decide)]
  intro htext
  exact Text.not_mem_of_numeral? htext hother List.mem_cons_self

theorem writes_dollar_iff : Writes ('$' :: digits) n ↔ IsNumeral 16 digits n := by
  constructor
  · intro hwrites
    cases hwrites with
    | hexadecimal hdigits => exact hdigits
    | decimal hdigits => exact absurd hdigits (not_isNumeral_cons (by decide) digits)
  · exact .hexadecimal

theorem writes_percent_iff : Writes ('%' :: digits) n ↔ IsNumeral 2 digits n := by
  constructor
  · intro hwrites
    cases hwrites with
    | binary hdigits => exact hdigits
    | decimal hdigits => exact absurd hdigits (not_isNumeral_cons (by decide) digits)
  · exact .binary

theorem writes_quote_iff :
    Writes ('\'' :: text) n ↔ ∃ c, text = [c] ∧ c.toNat < 128 ∧ n = c.toNat := by
  constructor
  · intro hwrites
    cases hwrites with
    | decimal hdigits => exact absurd hdigits (not_isNumeral_cons (by decide) text)
    | @character c hascii => exact ⟨c, rfl, hascii, rfl⟩
  · rintro ⟨c, rfl, hascii, rfl⟩
    exact .character hascii

theorem writes_plain_iff (hdollar : ∀ digits, text ≠ '$' :: digits)
    (hpercent : ∀ digits, text ≠ '%' :: digits) (hquote : ∀ rest, text ≠ '\'' :: rest) :
    Writes text n ↔ IsNumeral 10 text n := by
  constructor
  · intro hwrites
    cases hwrites with
    | hexadecimal _ => exact absurd rfl (hdollar _)
    | binary _ => exact absurd rfl (hpercent _)
    | decimal hdigits => exact hdigits
    | character _ => exact absurd rfl (hquote _)
  · exact .decimal

/-! ## Reading -/

theorem word?_eq_some : word? n = some word ↔ n = word.toNat := by
  unfold word?
  split
  next hfits =>
    have hword : n.toUInt32.toNat = n := Nat.mod_eq_of_lt hfits
    rw [Option.some.injEq]
    constructor
    · rintro rfl
      exact hword.symm
    · rintro rfl
      exact UInt32.toNat_inj.mp hword
  next hlarge =>
    refine iff_of_false nofun ?_
    rintro rfl
    exact hlarge word.toNat_lt_size

theorem numeral?_bind_word? {radix : Nat} (hradix : radix ≤ 16) :
    (Text.numeral? radix digits).bind word? = some word ↔ IsNumeral radix digits word.toNat := by
  simp only [Option.bind_eq_some_iff, word?_eq_some, Text.numeral?_eq_some_iff hradix,
    exists_eq_right]

theorem character?_eq_some :
    character? text = some word ↔ ∃ c, text = [c] ∧ c.toNat < 128 ∧ word.toNat = c.toNat := by
  unfold character?
  split
  next c =>
    have hinj : ∀ d, [c] = [d] ↔ d = c := by simp [eq_comm]
    simp only [hinj, exists_eq_left]
    split
    next hascii =>
      have hcode : c.toNat.toUInt32.toNat = c.toNat :=
        Nat.mod_eq_of_lt (Nat.lt_trans hascii (by decide))
      rw [Option.some.injEq, ← UInt32.toNat_inj, hcode]
      simp [hascii, eq_comm]
    next hother => simp [hother]
  next hmany =>
    refine iff_of_false nofun ?_
    rintro ⟨c, rfl, -⟩
    exact hmany c rfl

/-- The reader tells the forms apart by the first character. -/
theorem value?_eq_some_iff : value? token = some word ↔ Writes (Text.trim token) word.toNat := by
  unfold value?
  split
  next digits htext => rw [htext, writes_dollar_iff, numeral?_bind_word? (by decide)]
  next digits htext => rw [htext, writes_percent_iff, numeral?_bind_word? (by decide)]
  next rest htext => rw [htext, writes_quote_iff, character?_eq_some]
  next hdollar hpercent hquote =>
    rw [writes_plain_iff hdollar hpercent hquote, numeral?_bind_word? (by decide)]

theorem parse_eq_ok_iff_means : parse token = .ok word ↔ Means token word.toNat := by
  rw [parse, Outcome.elim_eq_ok, value?_eq_some_iff, means_iff]

/-- A token is refused if it means no number, or only one that is too large. -/
theorem parse_eq_error_iff_means : parse token = .error fault ↔
    fault = .badLiteral ∧ ¬ ∃ n < UInt32.size, Means token n := by
  rw [parse, Outcome.elim_eq_error, and_comm, eq_comm]
  refine and_congr_right fun _ => ?_
  rw [Option.eq_none_iff_forall_ne_some, not_exists]
  simp only [ne_eq, value?_eq_some_iff, ← means_iff]
  constructor
  · rintro hnone n ⟨hfits, hmeans⟩
    have hword : n.toUInt32.toNat = n := Nat.mod_eq_of_lt hfits
    exact hnone n.toUInt32 (by rwa [hword])
  · intro hnone word hmeans
    exact hnone word.toNat ⟨word.toNat_lt_size, hmeans⟩

/-! ## Writing -/

/-- A text without blanks is read for what it writes. -/
theorem Writes.value? (hwrites : Writes text word.toNat)
    (hsolid : ∀ c ∈ text, Text.isBlank c = false) : value? text = some word := by
  rw [value?_eq_some_iff, Text.trim_of_solid hsolid]
  exact hwrites

theorem value?_hexadecimal (hdigits : Text.numeral? 16 digits = some word.toNat) :
    value? ('$' :: digits) = some word :=
  (Writes.hexadecimal ((Text.numeral?_eq_some_iff (by decide)).mp hdigits)).value?
    (List.forall_mem_cons.mpr ⟨by decide, Text.solid_of_numeral? hdigits⟩)

theorem value?_binary (hdigits : Text.numeral? 2 digits = some word.toNat) :
    value? ('%' :: digits) = some word :=
  (Writes.binary ((Text.numeral?_eq_some_iff (by decide)).mp hdigits)).value?
    (List.forall_mem_cons.mpr ⟨by decide, Text.solid_of_numeral? hdigits⟩)

theorem value?_decimal (hdigits : Text.numeral? 10 digits = some word.toNat) :
    value? digits = some word :=
  (Writes.decimal ((Text.numeral?_eq_some_iff (by decide)).mp hdigits)).value?
    (Text.solid_of_numeral? hdigits)

theorem parse_of_value? (hvalue : value? token = some word) : parse token = .ok word :=
  Outcome.elim_eq_ok.mpr hvalue

/-- A token is taken as a literal if it means a number of 32 bits, and that number is its value; any
other token is refused.  So every such number is read back from its hexadecimal digits, with letters
of either case, from its binary and from its decimal ones, with any number of zeros in front. -/
theorem means_of_parse :
    (∀ token word, parse token = .ok word ↔ Means token word.toNat) ∧
    (∀ token fault, parse token = .error fault ↔
      fault = .badLiteral ∧ ¬ ∃ n < UInt32.size, Means token n) ∧
    ∀ (word : UInt32) (zeros : Nat),
      parse ('$' :: (List.replicate zeros '0' ++ Nat.toDigits 16 word.toNat)) = .ok word ∧
      parse ('$' :: (List.replicate zeros '0' ++ Text.hex word.toNat)) = .ok word ∧
      parse ('%' :: (List.replicate zeros '0' ++ Nat.toDigits 2 word.toNat)) = .ok word ∧
      parse (List.replicate zeros '0' ++ Nat.toDigits 10 word.toNat) = .ok word := by
  refine ⟨fun _ _ => parse_eq_ok_iff_means, fun _ _ => parse_eq_error_iff_means, ?_⟩
  intro word zeros
  have hdigits : ∀ radix, 1 < radix → radix ≤ 16 →
      Text.numeral? radix (List.replicate zeros '0' ++ Nat.toDigits radix word.toNat) =
        some word.toNat := by
    intro radix hlow hhigh
    exact Text.numeral?_zeros_append zeros (by omega) (Text.numeral?_toDigits hlow hhigh word.toNat)
  have hcapital : Text.numeral? 16 (List.replicate zeros '0' ++ Text.hex word.toNat) =
      some word.toNat :=
    Text.numeral?_zeros_append zeros (by decide) (Text.numeral?_hex word.toNat)
  exact ⟨parse_of_value? (value?_hexadecimal (hdigits 16 (by decide) (by decide))),
    parse_of_value? (value?_hexadecimal hcapital),
    parse_of_value? (value?_binary (hdigits 2 (by decide) (by decide))),
    parse_of_value? (value?_decimal (hdigits 10 (by decide) (by decide)))⟩

example : parse "\t$00FfFfFfFf ".toList = .ok 0xFFFFFFFF := by decide

example : parse "4294967296".toList = .error .badLiteral := by decide

end Literal

end TwoPass
