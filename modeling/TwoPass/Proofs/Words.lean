import TwoPass.Proofs.Numerals
import TwoPass.Source.Statement

/-!
# The words of a line

A line is read word by word, up to its comment.  The lemmas of this file put a line together from
words, gaps and a comment, and say which words it has then: a gap parts what is before it from what
is after it, whatever blanks it is made of (`codeWords_append_gap`), a word is itself
(`codeWords_word_append`), and a comment ends the line (`codeWords_append_comment`).  Together with
where it starts, its words are all that counts of a line (`parse_of_indented`, `parse_of_margin`).
-/

namespace TwoPass

namespace Text

variable {text front back blanks gap word rest : Text} {c : Char}

/-! ## Gaps and words -/

/-- Some blanks, or nothing. -/
def AllBlank (text : Text) : Prop := ∀ c ∈ text, isBlank c = true

/-- One or more blanks. -/
structure IsGap (gap : Text) : Prop where
  nonempty : gap ≠ []
  blank : AllBlank gap

/-- One or more characters that are neither blank nor start a comment. -/
structure IsWord (word : Text) : Prop where
  nonempty : word ≠ []
  solid : ∀ c ∈ word, isBlank c = false
  code : '*' ∉ word

/-- A comment, or nothing. -/
def IsComment (text : Text) : Prop := ∀ c ∈ text.head?, c = '*'

/-- What can follow a word: the end of the line, a blank or a comment. -/
def EndsWord (rest : Text) : Prop := ∀ c ∈ rest.head?, isBlank c = true ∨ c = '*'

-- These go over the characters of the text; a plain `∀ c` could also be decided over all of `Char`.
instance (text : Text) : Decidable (AllBlank text) :=
  decidable_of_iff (text.all isBlank = true) List.all_eq_true

instance (text : Text) : Decidable (IsGap text) :=
  decidable_of_iff (text ≠ [] ∧ AllBlank text)
    ⟨fun h => ⟨h.1, h.2⟩, fun h => ⟨h.nonempty, h.blank⟩⟩

instance (text : Text) : Decidable (IsWord text) :=
  decidable_of_iff (text ≠ [] ∧ text.all (!isBlank ·) = true ∧ '*' ∉ text)
    ⟨fun h => ⟨h.1, by simpa using h.2.1, h.2.2⟩,
      fun h => ⟨h.nonempty, by simpa using h.solid, h.code⟩⟩

instance (text : Text) : Decidable (IsComment text) :=
  decidable_of_iff (text.head?.all (· == '*') = true) (by cases text <;> simp [IsComment])

instance (text : Text) : Decidable (EndsWord text) :=
  decidable_of_iff (text.head?.all (fun c => isBlank c || c == '*') = true)
    (by cases text <;> simp [EndsWord])

theorem AllBlank.not_mem (hblank : AllBlank blanks) (hsolid : isBlank c = false) : c ∉ blanks := by
  intro hmem
  rw [hblank c hmem] at hsolid
  cases hsolid

theorem IsGap.endsWord (hgap : IsGap gap) (rest : Text) : EndsWord (gap ++ rest) := by
  obtain ⟨c, more, rfl⟩ := List.exists_cons_of_ne_nil hgap.nonempty
  simpa [EndsWord] using Or.inl (hgap.blank c List.mem_cons_self)

/-- Texts with a separator between them are one word if no blank and no comment is in them, unless
there is nothing to separate and nothing else. -/
theorem isWord_intercalate_of_solid {separator : Char} {texts : List Text}
    (hseparator : IsWord [separator]) (hsome : texts ≠ []) (hmore : texts ≠ [[]])
    (hsolid : ∀ text ∈ texts, ∀ c ∈ text, isBlank c = false) (hcode : ∀ text ∈ texts, '*' ∉ text) :
    IsWord ([separator].intercalate texts) where
  nonempty := by
    obtain ⟨first, rest, rfl⟩ := List.exists_cons_of_ne_nil hsome
    cases rest with
    | nil => simpa [List.intercalate_singleton] using hmore
    | cons second rest => simp [List.intercalate_cons_cons]
  solid := by
    intro c hmem
    by_contra hblank
    refine not_mem_intercalate ?_ ?_ hmem
    · rintro rfl
      exact hblank (hseparator.solid c (List.mem_singleton_self c))
    · intro text htext hc
      exact hblank (hsolid text htext c hc)
  code := by
    apply not_mem_intercalate _ hcode
    rintro rfl
    exact hseparator.code (List.mem_singleton_self _)

/-- Words with a separator between them are one word. -/
theorem isWord_intercalate {separator : Char} {texts : List Text}
    (hseparator : IsWord [separator]) (hsome : texts ≠ []) (hwords : ∀ text ∈ texts, IsWord text) :
    IsWord ([separator].intercalate texts) := by
  apply isWord_intercalate_of_solid hseparator hsome
  · rintro rfl
    exact (hwords [] (List.mem_singleton_self [])).nonempty rfl
  · exact fun text htext => (hwords text htext).solid
  · exact fun text htext => (hwords text htext).code

/-- A text without blanks has none to trim. -/
theorem trim_of_solid (hsolid : ∀ c ∈ text, isBlank c = false) : trim text = text := by
  have hstart : ∀ {text : Text}, (∀ c ∈ text, isBlank c = false) →
      text.dropWhile isBlank = text := by
    intro text hsolid
    cases text with
    | nil => rfl
    | cons c rest => exact List.dropWhile_cons_of_neg (by simp [hsolid c List.mem_cons_self])
  rw [trim, trimStart, hstart hsolid, trimEnd, hstart (by simpa using hsolid), List.reverse_reverse]

/-- Digits are not blank. -/
theorem digitOf_eq_none_of_isBlank (radix : Nat) (hblank : isBlank c = true) :
    digitOf radix c = none := by
  simp only [isBlank, blankRanges, List.any_cons, List.any_nil, Bool.or_false, Bool.or_eq_true,
    Bool.and_eq_true, decide_eq_true_eq] at hblank
  have hvalue : digitValue c = none := by
    simp only [digitValue, Bool.and_eq_true, decide_eq_true_eq]
    rw [if_neg (by omega), if_neg (by omega), if_neg (by omega)]
  rw [digitOf, hvalue]
  rfl

theorem solid_of_numeral? {radix n : Nat} (htext : numeral? radix text = some n) :
    ∀ c ∈ text, isBlank c = false := by
  intro c hmem
  by_contra hblank
  rw [Bool.not_eq_false] at hblank
  exact not_mem_of_numeral? htext (digitOf_eq_none_of_isBlank radix hblank) hmem

/-! ### Letter case -/

theorem sameWord_iff {a b : Text} : sameWord a b = true ↔ fold a = fold b := beq_iff_eq

theorem sameWord_congr {a b : Text} (hsame : sameWord a b = true) (word : Text) :
    sameWord a word = sameWord b word := by
  rw [sameWord, sameWord, sameWord_iff.mp hsame]

/-! ### Where a line starts -/

theorem startsBlank_append (hsome : text ≠ []) (rest : Text) :
    startsBlank (text ++ rest) = startsBlank text := by
  obtain ⟨c, more, rfl⟩ := List.exists_cons_of_ne_nil hsome
  rfl

theorem IsGap.startsBlank (hgap : IsGap gap) (rest : Text) : startsBlank (gap ++ rest) = true := by
  rw [startsBlank_append hgap.nonempty]
  obtain ⟨c, more, rfl⟩ := List.exists_cons_of_ne_nil hgap.nonempty
  simpa [Text.startsBlank] using hgap.blank c List.mem_cons_self

theorem IsWord.startsBlank (hword : IsWord word) (rest : Text) :
    startsBlank (word ++ rest) = false := by
  rw [startsBlank_append hword.nonempty]
  obtain ⟨c, more, rfl⟩ := List.exists_cons_of_ne_nil hword.nonempty
  simpa [Text.startsBlank] using hword.solid c List.mem_cons_self

/-! ## Words of a text -/

theorem words_append_cons (hblank : isBlank c = true) (front back : Text) :
    words (front ++ c :: back) = words front ++ words back := by
  rw [words, List.splitOnP_append_cons front back hblank, List.filter_append]
  rfl

theorem words_blanks_append (hblank : AllBlank blanks) (back : Text) :
    words (blanks ++ back) = words back := by
  induction blanks with
  | nil => rfl
  | cons c blanks ih =>
      obtain ⟨hfirst, hrest⟩ := List.forall_mem_cons.mp hblank
      calc words (c :: blanks ++ back)
          = words [] ++ words (blanks ++ back) := words_append_cons hfirst [] _
        _ = words back := ih hrest

theorem words_append_gap (hgap : IsGap gap) (front back : Text) :
    words (front ++ (gap ++ back)) = words front ++ words back := by
  obtain ⟨c, blanks, rfl⟩ := List.exists_cons_of_ne_nil hgap.nonempty
  obtain ⟨hfirst, hrest⟩ := List.forall_mem_cons.mp hgap.blank
  rw [List.cons_append, words_append_cons hfirst, words_blanks_append hrest]

theorem words_append_blanks (hblank : AllBlank blanks) (front : Text) :
    words (front ++ blanks) = words front := by
  by_cases hsome : blanks = []
  · rw [hsome, List.append_nil]
  · have hgap := words_append_gap ⟨hsome, hblank⟩ front []
    rwa [List.append_nil, show words [] = [] from rfl, List.append_nil] at hgap

/-- The pieces of a text hold characters of the text, but none at which it is split. -/
theorem mem_of_mem_splitOnP {p : Char → Bool} {piece : Text} (hpiece : piece ∈ text.splitOnP p)
    (hc : c ∈ piece) : c ∈ text ∧ p c = false := by
  induction text generalizing piece with
  | nil =>
      rw [List.splitOnP_nil, List.mem_singleton] at hpiece
      rw [hpiece] at hc
      cases hc
  | cons d rest ih =>
      have hlater : ∀ {other : Text}, other ∈ rest.splitOnP p → c ∈ other →
          c ∈ d :: rest ∧ p c = false :=
        fun hother hmem => (ih hother hmem).imp_left (List.mem_cons_of_mem d)
      rw [List.splitOnP_cons_eq_if_modifyHead] at hpiece
      split at hpiece
      next hsplit =>
        rcases List.mem_cons.mp hpiece with rfl | hrest
        · cases hc
        · exact hlater hrest hc
      next hkeep =>
        -- The character goes to the first piece of the rest.
        obtain ⟨first, others, hpieces⟩ :=
          List.exists_cons_of_ne_nil (List.splitOnP_ne_nil p rest)
        rw [hpieces, List.modifyHead_cons] at hpiece
        rw [hpieces] at hlater
        rcases List.mem_cons.mp hpiece with rfl | hrest
        · rcases List.mem_cons.mp hc with rfl | hfirst
          · exact ⟨List.mem_cons_self, by simpa using hkeep⟩
          · exact hlater List.mem_cons_self hfirst
        · exact hlater (List.mem_cons_of_mem first hrest) hc

theorem words_of_isWord (hword : IsWord word) : words word = [word] := by
  rw [words, List.splitOnP_eq_singleton hword.solid]
  simp [hword.nonempty]

end Text

namespace Statement

open Text

variable {line front back blanks gap code comment word rest : Text}

/-! ## Words of a line -/

/-- What comes after the start of a comment does not count. -/
theorem codeWords_append_of_mem (hmem : '*' ∈ front) (back : Text) :
    codeWords (front ++ back) = codeWords front := by
  obtain ⟨before, after, rfl, hbefore⟩ := List.eq_append_cons_of_mem hmem
  rw [List.append_assoc, List.cons_append, codeWords, codeWords, takeWhile_ne_append hbefore,
    takeWhile_ne_append hbefore]

theorem codeWords_append_of_not_mem (hcode : '*' ∉ front) (back : Text) :
    codeWords (front ++ back) = words (front ++ back.takeWhile (· != '*')) := by
  rw [codeWords, List.takeWhile_append_of_pos (bne_of_not_mem hcode)]

theorem codeWords_append_comment (hcode : '*' ∉ code) (hcomment : IsComment comment) :
    codeWords (code ++ comment) = words code := by
  have hnone : comment.takeWhile (· != '*') = [] := by
    cases comment with
    | nil => rfl
    | cons c more => simp [hcomment c rfl]
  rw [codeWords_append_of_not_mem hcode, hnone, List.append_nil]

theorem codeWords_of_not_mem (hcode : '*' ∉ code) : codeWords code = words code := by
  have hnothing : IsComment [] := by simp [IsComment]
  rw [← codeWords_append_comment hcode hnothing, List.append_nil]

theorem codeWords_append_gap (hcode : '*' ∉ front) (hgap : IsGap gap) (back : Text) :
    codeWords (front ++ (gap ++ back)) = words front ++ codeWords back := by
  have hstar : '*' ∉ gap := hgap.blank.not_mem (by decide)
  rw [codeWords_append_of_not_mem hcode,
    List.takeWhile_append_of_pos (bne_of_not_mem hstar), words_append_gap hgap, codeWords]

/-- Which blanks a gap is made of does not matter. -/
theorem codeWords_gap_congr {gap' : Text} (hgap : IsGap gap) (hgap' : IsGap gap')
    (front back : Text) :
    codeWords (front ++ (gap ++ back)) = codeWords (front ++ (gap' ++ back)) := by
  by_cases hmem : '*' ∈ front
  · rw [codeWords_append_of_mem hmem, codeWords_append_of_mem hmem]
  · rw [codeWords_append_gap hmem hgap, codeWords_append_gap hmem hgap']

theorem codeWords_gap_append (hgap : IsGap gap) (back : Text) :
    codeWords (gap ++ back) = codeWords back :=
  codeWords_append_gap List.not_mem_nil hgap back

theorem codeWords_append_blanks (hblank : AllBlank blanks) (line : Text) :
    codeWords (line ++ blanks) = codeWords line := by
  by_cases hmem : '*' ∈ line
  · exact codeWords_append_of_mem hmem blanks
  · have hstar : '*' ∉ line ++ blanks :=
      List.not_mem_append hmem (hblank.not_mem (by decide))
    rw [codeWords_of_not_mem hstar, codeWords_of_not_mem hmem, words_append_blanks hblank]

theorem codeWords_of_isWord (hword : IsWord word) : codeWords word = [word] := by
  rw [codeWords_of_not_mem hword.code, words_of_isWord hword]

/-- What is read from a line is words. -/
theorem isWord_of_mem_codeWords (hmem : word ∈ codeWords line) : IsWord word := by
  obtain ⟨hpiece, hsome⟩ := List.mem_filter.mp hmem
  have hchars := fun c (hc : c ∈ word) => mem_of_mem_splitOnP hpiece hc
  refine ⟨by simpa using hsome, fun c hc => (hchars c hc).2, ?_⟩
  intro hstar
  have hcode := List.all_eq_true.mp List.all_takeWhile '*' (hchars '*' hstar).1
  simp at hcode

/-- A word is read as it is if it ends there. -/
theorem codeWords_word_append (hword : IsWord word) (hrest : EndsWord rest) :
    codeWords (word ++ rest) = word :: codeWords rest := by
  cases rest with
  | nil =>
      rw [List.append_nil, codeWords_of_isWord hword]
      rfl
  | cons c more =>
      rcases hrest c rfl with hblank | rfl
      · have hgap : IsGap [c] := ⟨List.cons_ne_nil c [], by simpa [AllBlank] using hblank⟩
        calc codeWords (word ++ ([c] ++ more))
            = words word ++ codeWords more := codeWords_append_gap hword.code hgap more
          _ = word :: codeWords ([c] ++ more) := by
              rw [words_of_isWord hword, codeWords_gap_append hgap, List.singleton_append]
      · have hcomment : IsComment ('*' :: more) := by simp [IsComment]
        have hnone : codeWords ('*' :: more) = words [] :=
          codeWords_append_comment List.not_mem_nil hcomment
        rw [codeWords_append_comment hword.code hcomment, words_of_isWord hword, hnone]
        rfl

/-! ## Statements of a line -/

theorem parse_of_indented {head : Text} {operands : List Text}
    (hwords : codeWords line = head :: operands) (hstart : startsBlank line = true) :
    parse line = parseIndented head operands := by
  rw [parse, hwords]
  exact if_pos hstart

theorem parse_of_margin {head : Text} {operands : List Text}
    (hwords : codeWords line = head :: operands) (hstart : startsBlank line = false) :
    parse line = parseMargin head operands := by
  rw [parse, hwords]
  exact if_neg (Bool.eq_false_iff.mp hstart)

end Statement

end TwoPass
