import TwoPass.Object.Reader
import TwoPass.Proofs.Outcome

/-!
# Numbers that have been written can be read

Addresses and bytes are written in hexadecimal, row numbers in decimal.  `numeral?_map_toDigits`
covers all of them: a number written in some radix, in whatever form of the letters, reads as that
number.  Numerals hold digits only (`not_mem_of_numeral?`), which is how a reader finds their ends.
From this follow the round trips for bytes in pairs of digits, with and without spaces between them.
-/

namespace TwoPass

namespace Text

variable {radix n d : Nat} {text : Text} {c : Char}

/-! ## Numerals -/

theorem numeral?_eq_some : numeral? radix text = some n ↔
    text ≠ [] ∧ ∃ digits, text.mapM (digitOf radix) = some digits ∧ ofDigits radix digits = n := by
  unfold numeral?
  split
  next hempty => simp [List.isEmpty_iff.mp hempty]
  next hempty =>
    have hsome : text ≠ [] := by simpa using hempty
    simp [hsome, Option.map_eq_some_iff]

theorem numeral?_singleton (hdigit : digitOf radix c = some d) : numeral? radix [c] = some d := by
  refine numeral?_eq_some.mpr ⟨List.cons_ne_nil c [], [d], ?_, ?_⟩
  · simp [hdigit]
  · simp [ofDigits]

/-- A further digit at the end. -/
theorem numeral?_concat (htext : numeral? radix text = some n)
    (hdigit : digitOf radix c = some d) :
    numeral? radix (text ++ [c]) = some (n * radix + d) := by
  obtain ⟨-, digits, hdigits, rfl⟩ := numeral?_eq_some.mp htext
  refine numeral?_eq_some.mpr ⟨by simp, digits ++ [d], ?_, ?_⟩
  · simp [List.mapM_append, hdigits, hdigit]
  · simp [ofDigits]

theorem numeral?_zero_cons (hradix : 0 < radix) (htext : numeral? radix text = some n) :
    numeral? radix ('0' :: text) = some n := by
  obtain ⟨-, digits, hdigits, rfl⟩ := numeral?_eq_some.mp htext
  have hzero : digitOf radix '0' = some 0 := by
    have hvalue : digitValue '0' = some 0 := by decide
    simp [digitOf, hvalue, hradix]
  refine numeral?_eq_some.mpr ⟨List.cons_ne_nil _ _, 0 :: digits, ?_, ?_⟩
  · simp [hzero, hdigits]
  · simp [ofDigits]

/-- Zeros in front do not count. -/
theorem numeral?_zeros_append (zeros : Nat) (hradix : 0 < radix)
    (htext : numeral? radix text = some n) :
    numeral? radix (List.replicate zeros '0' ++ text) = some n := by
  induction zeros with
  | zero => simpa using htext
  | succ zeros ih =>
      rw [List.replicate_succ, List.cons_append]
      exact numeral?_zero_cons hradix ih

theorem numeral?_leftpad (width : Nat) (hradix : 0 < radix) (htext : numeral? radix text = some n) :
    numeral? radix (text.leftpad width '0') = some n :=
  numeral?_zeros_append (width - text.length) hradix htext

/-- A character that is no digit does not occur in a numeral. -/
theorem not_mem_of_numeral? (htext : numeral? radix text = some n)
    (hother : digitOf radix c = none) : c ∉ text := by
  obtain ⟨-, digits, hdigits, -⟩ := numeral?_eq_some.mp htext
  intro hmem
  obtain ⟨i, hget⟩ := List.getElem?_of_mem hmem
  obtain ⟨value, -, hvalue⟩ :=
    Outcome.getElem?_of_forall₂ (Outcome.mapM_eq_some.mp hdigits) hget
  rw [hother] at hvalue
  cases hvalue

theorem bne_of_not_mem (hmem : c ∉ text) : ∀ d ∈ text, (d != c) = true :=
  fun _ hd => bne_iff_ne.mpr (ne_of_mem_of_not_mem hd hmem)

theorem takeWhile_ne_append (hmem : c ∉ text) (rest : Text) :
    (text ++ c :: rest).takeWhile (· != c) = text := by
  rw [List.takeWhile_append_of_pos (bne_of_not_mem hmem)]
  simp

theorem dropWhile_ne_append (hmem : c ∉ text) (rest : Text) :
    (text ++ c :: rest).dropWhile (· != c) = c :: rest := by
  rw [List.dropWhile_append_of_pos (bne_of_not_mem hmem)]
  simp

/-- What occurs neither in some texts nor between them does not occur in the whole. -/
theorem not_mem_intercalate {separator : Char} {texts : List Text} (hseparator : c ≠ separator)
    (htexts : ∀ text ∈ texts, c ∉ text) : c ∉ [separator].intercalate texts := by
  induction texts with
  | nil => exact List.not_mem_nil
  | cons first rest ih =>
      obtain ⟨hfirst, hrest⟩ := List.forall_mem_cons.mp htexts
      cases rest with
      | nil => rwa [List.intercalate_singleton]
      | cons second rest =>
          rw [List.intercalate_cons_cons, List.mem_append, List.mem_append, List.mem_singleton]
          rintro ((hmem | hmem) | hmem)
          · exact hfirst hmem
          · exact hseparator hmem
          · exact ih hrest hmem

/-! ## Numbers in digits -/

/-- Whatever letters are written for the digits of a number, it is read as that number if every
digit is. -/
theorem numeral?_map_toDigits {write : Char → Char} (hlow : 1 < radix) (hhigh : radix ≤ 16)
    (hwrite : ∀ d < 16, digitValue (write (Nat.digitChar d)) = some d) (n : Nat) :
    numeral? radix ((Nat.toDigits radix n).map write) = some n := by
  have hdigit : ∀ d < radix, digitOf radix (write (Nat.digitChar d)) = some d := by
    intro d hd
    simp [digitOf, hwrite d (by omega), hd]
  -- Digit by digit from the end, as they are computed.
  induction n using Nat.strongRecOn with
  | ind n ih =>
      rcases Nat.lt_or_ge n radix with hlast | hmore
      · rw [Nat.toDigits_of_lt_base hlast]
        exact numeral?_singleton (hdigit n hlast)
      · have hsmaller : n / radix < n := Nat.div_lt_self (by omega) hlow
        have hmod : n % radix < radix := Nat.mod_lt n (by omega)
        rw [Nat.toDigits_of_base_le hlow hmore, List.map_append,
          List.map_singleton, numeral?_concat (ih _ hsmaller) (hdigit _ hmod),
          Nat.div_add_mod' n radix]

theorem digitValue_digitChar : ∀ d < 16, digitValue (id (Nat.digitChar d)) = some d := by
  decide

theorem digitValue_toUpper_digitChar :
    ∀ d < 16, digitValue (Nat.digitChar d).toUpper = some d := by
  decide

theorem numeral?_toDigits (hlow : 1 < radix) (hhigh : radix ≤ 16) (n : Nat) :
    numeral? radix (Nat.toDigits radix n) = some n := by
  have hnumeral : numeral? radix ((Nat.toDigits radix n).map id) = some n :=
    numeral?_map_toDigits hlow hhigh digitValue_digitChar n
  rwa [List.map_id] at hnumeral

theorem numeral?_decimal (n : Nat) : numeral? 10 (decimal n) = some n :=
  numeral?_toDigits (by decide) (by decide) n

theorem numeral?_hex (n : Nat) : numeral? 16 (hex n) = some n :=
  numeral?_map_toDigits (by decide) (by decide) digitValue_toUpper_digitChar n

theorem numeral?_addressHex (n : Nat) : numeral? 16 (addressHex n) = some n :=
  numeral?_leftpad 4 (by decide) (numeral?_hex n)

/-! ## Bytes in pairs of digits -/

theorem numeral?_byteHex (byte : UInt8) : numeral? 16 (byteHex byte) = some byte.toNat := by
  have hbyte : byte.toNat < 256 := byte.toNat_lt
  have hdigit : ∀ d < 16, digitOf 16 (Nat.digitChar d).toUpper = some d := by decide
  have hhigh := numeral?_singleton (hdigit (byte.toNat / 16) (by omega))
  have hpair := numeral?_concat hhigh (hdigit (byte.toNat % 16) (by omega))
  rwa [Nat.div_add_mod'] at hpair

theorem not_mem_spacedHex (hother : digitOf 16 c = none) (hspace : c ≠ ' ') (bytes : List UInt8) :
    c ∉ spacedHex bytes := by
  apply not_mem_intercalate hspace
  intro pair hpair
  obtain ⟨byte, -, rfl⟩ := List.mem_map.mp hpair
  exact not_mem_of_numeral? (numeral?_byteHex byte) hother

end Text

namespace Run

theorem readByte?_byteHex (byte : UInt8) : readByte? (Text.byteHex byte) = some byte := by
  have hlength : (Text.byteHex byte).length = 2 := rfl
  simp [readByte?, hlength, Text.numeral?_byteHex]

theorem readBytes?_flatMap_byteHex (bytes : List UInt8) :
    readBytes? (bytes.flatMap Text.byteHex) = some bytes := by
  induction bytes with
  | nil => rfl
  | cons byte rest ih =>
      have hbyte := readByte?_byteHex byte
      rw [Text.byteHex] at hbyte
      rw [List.flatMap_cons, Text.byteHex]
      simp [readBytes?, hbyte, ih]

theorem readSpaced?_spacedHex (bytes : List UInt8) :
    readSpaced? (Text.spacedHex bytes) = some bytes := by
  cases bytes with
  | nil => rfl
  | cons first rest =>
      have hpairs : ∀ pair ∈ (first :: rest).map Text.byteHex, ' ' ∉ pair := by
        intro pair hpair
        obtain ⟨byte, -, rfl⟩ := List.mem_map.mp hpair
        exact Text.not_mem_of_numeral? (Text.numeral?_byteHex byte) (by decide)
      have hsplit : (Text.spacedHex (first :: rest)).splitOn ' ' =
          (first :: rest).map Text.byteHex :=
        List.splitOn_intercalate ' ' hpairs (by simp)
      have hsome : (Text.spacedHex (first :: rest)).isEmpty = false := by
        cases rest <;> rfl
      rw [readSpaced?, hsome, if_neg Bool.false_ne_true, hsplit]
      exact Outcome.mapM_map_eq_some fun byte _ => readByte?_byteHex byte

end Run

end TwoPass
