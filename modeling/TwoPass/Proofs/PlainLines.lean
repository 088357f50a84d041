import TwoPass.Proofs.Words

/-!
# Statements and the plainest lines for them

What a line says is decided by its words and by where it starts.  `Said` are the rules, one for each
kind of statement, and reading a line follows them (`said_of_parse`, `Said.parse`).

A statement keeps the tokens of its line as they were written, so it can be said again: `render`
gives the plainest line for it.  Which statements can be said at all is a matter of their tokens
only.  These are words, and the mnemonic is none of the directives; the tokens of `FCB` come from a
single word that was cut at its commas, so they may be empty, but not if there is only one of them.
This is `WellFormed`.  A plain line has nothing but words with single spaces between them
(`codeWords_intercalate`), so the rules apply to it whenever the statement is well formed.
-/

namespace TwoPass.Statement

open Text

variable {line : Text} {statement : Statement} {tokens : List Text}

/-! ## What a line says -/

/-- The words that are not mnemonics, in small letters. -/
def directives : List Text := ["org".toList, "end".toList, "fcb".toList]

/-- A line says a statement. -/
inductive Said (line : Text) : Statement → Prop
  | blank (hwords : codeWords line = []) : Said line .blank
  | label {head : Text} (hstart : startsBlank line = false) (hwords : codeWords line = [head])
      (hsome : Text.dropLast ':' head ≠ []) : Said line (.label (Text.dropLast ':' head))
  | constant {name keyword value : Text} (hstart : startsBlank line = false)
      (hwords : codeWords line = [name, keyword, value])
      (hkeyword : sameWord keyword "equ".toList = true) : Said line (.constant name value)
  | origin {directive address : Text} (hstart : startsBlank line = true)
      (hwords : codeWords line = [directive, address])
      (hdirective : sameWord directive "org".toList = true) : Said line (.origin address)
  | finish {directive : Text} (hstart : startsBlank line = true)
      (hwords : codeWords line = [directive])
      (hdirective : sameWord directive "end".toList = true) : Said line .finish
  | formBytes {directive bytes : Text} (hstart : startsBlank line = true)
      (hwords : codeWords line = [directive, bytes])
      (hdirective : sameWord directive "fcb".toList = true) :
      Said line (.formBytes (bytes.splitOn ','))
  | instruction {mnemonic : Text} {operands : List Text} (hstart : startsBlank line = true)
      (hwords : codeWords line = mnemonic :: operands)
      (hother : ∀ directive ∈ directives, sameWord mnemonic directive = false) :
      Said line (.instruction mnemonic operands)

theorem forall_directives {p : Text → Prop} :
    (∀ directive ∈ directives, p directive) ↔
      p "org".toList ∧ p "end".toList ∧ p "fcb".toList := by
  simp only [directives, List.forall_mem_cons]
  simp

theorem said_of_parseMargin {head : Text} {operands : List Text}
    (hwords : codeWords line = head :: operands) (hstart : startsBlank line = false)
    (hparse : parseMargin head operands = .ok statement) : Said line statement := by
  rcases operands with _ | ⟨keyword, values⟩
  · simp only [parseMargin] at hparse
    split at hparse
    next => cases hparse
    next hsome =>
      cases hparse
      exact .label hstart hwords (by simpa using hsome)
  · simp only [parseMargin] at hparse
    split at hparse
    next hkeyword =>
      rcases values with _ | ⟨value, _ | ⟨second, more⟩⟩
      · cases hparse
      · cases hparse
        exact .constant hstart hwords hkeyword
      · cases hparse
    next => cases hparse

theorem said_of_parseIndented {head : Text} {operands : List Text}
    (hwords : codeWords line = head :: operands) (hstart : startsBlank line = true)
    (hparse : parseIndented head operands = .ok statement) : Said line statement := by
  unfold parseIndented at hparse
  split at hparse
  next horigin =>
    rcases operands with _ | ⟨address, _ | ⟨second, more⟩⟩
    · cases hparse
    · cases hparse
      exact .origin hstart hwords horigin
    · cases hparse
  next horigin =>
    split at hparse
    next hfinish =>
      rcases operands with _ | ⟨first, more⟩
      · cases hparse
        exact .finish hstart hwords hfinish
      · cases hparse
    next hfinish =>
      split at hparse
      next hbytes =>
        rcases operands with _ | ⟨bytes, _ | ⟨second, more⟩⟩
        · cases hparse
        · cases hparse
          exact .formBytes hstart hwords hbytes
        · cases hparse
      next hbytes =>
        cases hparse
        refine .instruction hstart hwords (forall_directives.mpr ?_)
        exact ⟨by simpa using horigin, by simpa using hfinish, by simpa using hbytes⟩

theorem said_of_parse (hparse : parse line = .ok statement) : Said line statement := by
  unfold parse at hparse
  split at hparse
  next hwords =>
    cases hparse
    exact .blank hwords
  next head operands hwords =>
    split at hparse
    next hstart => exact said_of_parseIndented hwords hstart hparse
    next hstart => exact said_of_parseMargin hwords (by simpa using hstart) hparse

/-- Conversely, a line is read as the statement that it says. -/
theorem Said.parse (hsaid : Said line statement) : parse line = .ok statement := by
  cases hsaid with
  | blank hwords => rw [Statement.parse, hwords]
  | label hstart hwords hsome =>
      rw [parse_of_margin hwords hstart, parseMargin]
      simp [hsome]
  | constant hstart hwords hkeyword =>
      rw [parse_of_margin hwords hstart, parseMargin, if_pos hkeyword]
  | origin hstart hwords hdirective =>
      rw [parse_of_indented hwords hstart]
      unfold parseIndented
      rw [if_pos hdirective]
  | finish hstart hwords hdirective =>
      rw [parse_of_indented hwords hstart]
      unfold parseIndented
      rw [if_neg (by rw [sameWord_congr hdirective]; decide), if_pos hdirective]
  | formBytes hstart hwords hdirective =>
      rw [parse_of_indented hwords hstart]
      unfold parseIndented
      rw [if_neg (by rw [sameWord_congr hdirective]; decide),
        if_neg (by rw [sameWord_congr hdirective]; decide), if_pos hdirective]
  | instruction hstart hwords hother =>
      obtain ⟨horigin, hfinish, hbytes⟩ := forall_directives.mp hother
      rw [parse_of_indented hwords hstart]
      unfold parseIndented
      rw [if_neg (Bool.eq_false_iff.mp horigin), if_neg (Bool.eq_false_iff.mp hfinish),
        if_neg (Bool.eq_false_iff.mp hbytes)]

/-! ## Statements that can be said -/

/-- What can stand between the commas of `FCB`, which may be nothing. -/
structure IsByteToken (token : Text) : Prop where
  solid : ∀ c ∈ token, isBlank c = false
  code : '*' ∉ token
  comma : ',' ∉ token

/-- The tokens of a statement are such that a line can say it. -/
def WellFormed : Statement → Prop
  | blank => True
  | label name => IsWord name
  | constant name value => IsWord name ∧ IsWord value
  | origin address => IsWord address
  | finish => True
  | formBytes tokens => tokens ≠ [] ∧ tokens ≠ [[]] ∧ ∀ token ∈ tokens, IsByteToken token
  | instruction mnemonic operands =>
    IsWord mnemonic ∧ (∀ directive ∈ directives, sameWord mnemonic directive = false) ∧
      ∀ operand ∈ operands, IsWord operand

instance (token : Text) : Decidable (IsByteToken token) :=
  decidable_of_iff (token.all (!isBlank ·) = true ∧ '*' ∉ token ∧ ',' ∉ token)
    ⟨fun h => ⟨by simpa using h.1, h.2.1, h.2.2⟩,
      fun h => ⟨by simpa using h.solid, h.code, h.comma⟩⟩

instance (statement : Statement) : Decidable statement.WellFormed :=
  match statement with
  | blank | finish => inferInstanceAs (Decidable True)
  | label name => inferInstanceAs (Decidable (IsWord name))
  | constant name value => inferInstanceAs (Decidable (IsWord name ∧ IsWord value))
  | origin address => inferInstanceAs (Decidable (IsWord address))
  | formBytes tokens =>
    inferInstanceAs (Decidable
      (tokens ≠ [] ∧ tokens ≠ [[]] ∧ ∀ token ∈ tokens, IsByteToken token))
  | instruction mnemonic operands =>
    inferInstanceAs (Decidable
      (IsWord mnemonic ∧ (∀ directive ∈ directives, sameWord mnemonic directive = false) ∧
        ∀ operand ∈ operands, IsWord operand))

/-- The last colon of a word is dropped if something is left. -/
theorem isWord_dropLast {head : Text} (hhead : IsWord head) (hsome : Text.dropLast ':' head ≠ []) :
    IsWord (Text.dropLast ':' head) := by
  have hmem : ∀ c ∈ Text.dropLast ':' head, c ∈ head := by
    intro c hc
    unfold Text.dropLast at hc
    split at hc
    · exact List.dropLast_subset head hc
    · exact hc
  exact ⟨hsome, fun c hc => hhead.solid c (hmem c hc), fun hc => hhead.code (hmem '*' hc)⟩

/-- The pieces of a word between its commas. -/
theorem wellFormed_splitOn {bytes : Text} (hbytes : IsWord bytes) :
    WellFormed (.formBytes (bytes.splitOn ',')) := by
  refine ⟨List.splitOn_ne_nil ',' bytes, ?_, ?_⟩
  · intro hsingle
    have hjoin : [','].intercalate (bytes.splitOn ',') = bytes := List.intercalate_splitOn ','
    rw [hsingle, List.intercalate_singleton] at hjoin
    exact hbytes.nonempty hjoin.symm
  · intro token htoken
    rw [List.splitOn_eq_splitOnP] at htoken
    have hchars := fun c (hc : c ∈ token) => mem_of_mem_splitOnP htoken hc
    refine ⟨fun c hc => hbytes.solid c (hchars c hc).1, fun hc => hbytes.code (hchars '*' hc).1, ?_⟩
    intro hc
    simpa using (hchars ',' hc).2

/-- Every statement that is said is well formed, since its tokens come from the words of a line. -/
theorem Said.wellFormed (hsaid : Said line statement) : statement.WellFormed := by
  have hword : ∀ word ∈ codeWords line, IsWord word := fun _ => isWord_of_mem_codeWords
  cases hsaid with
  | blank | finish => trivial
  | label _ hwords hsome =>
      rw [hwords] at hword
      exact isWord_dropLast (hword _ (by simp)) hsome
  | constant _ hwords _ =>
      rw [hwords] at hword
      exact ⟨hword _ (by simp), hword _ (by simp)⟩
  | origin _ hwords _ =>
      rw [hwords] at hword
      exact hword _ (by simp)
  | formBytes _ hwords _ =>
      rw [hwords] at hword
      exact wellFormed_splitOn (hword _ (by simp))
  | instruction _ hwords hother =>
      rw [hwords] at hword
      obtain ⟨hmnemonic, hoperands⟩ := List.forall_mem_cons.mp hword
      exact ⟨hmnemonic, hother, hoperands⟩

/-! ## Plain lines -/

/-- The words of a line with single spaces between them. -/
theorem codeWords_intercalate (texts : List Text) (hwords : ∀ text ∈ texts, IsWord text) :
    codeWords ([' '].intercalate texts) = texts := by
  induction texts with
  | nil => rfl
  | cons first rest ih =>
      obtain ⟨hfirst, hrest⟩ := List.forall_mem_cons.mp hwords
      have hspace : IsGap [' '] := by decide
      cases rest with
      | nil => rw [List.intercalate_singleton, codeWords_of_isWord hfirst]
      | cons second rest =>
          rw [List.intercalate_cons_cons, List.append_assoc,
            codeWords_word_append hfirst (hspace.endsWord _), codeWords_gap_append hspace,
            ih hrest]

/-- The same one column further. -/
theorem codeWords_indented (texts : List Text) (hwords : ∀ text ∈ texts, IsWord text) :
    codeWords (' ' :: [' '].intercalate texts) = texts := by
  have hspace : IsGap [' '] := by decide
  rw [← List.singleton_append, codeWords_gap_append hspace, codeWords_intercalate texts hwords]

theorem said_render_label {name : Text} (hname : IsWord name) :
    Said (render (.label name)) (.label name) := by
  have hcolon : IsWord (name ++ [':']) := by
    refine ⟨by simp, ?_, by simpa using hname.code⟩
    intro c hc
    rcases List.mem_append.mp hc with hc | hc
    · exact hname.solid c hc
    · rw [List.mem_singleton.mp hc]
      decide
  have hdrop : Text.dropLast ':' (name ++ [':']) = name := by simp [Text.dropLast]
  have hsome : Text.dropLast ':' (name ++ [':']) ≠ [] := by
    rw [hdrop]
    exact hname.nonempty
  have hsaid := Said.label (hname.startsBlank [':']) (codeWords_of_isWord hcolon) hsome
  rwa [hdrop] at hsaid

theorem said_render_constant {name value : Text} (hname : IsWord name) (hvalue : IsWord value) :
    Said (render (.constant name value)) (.constant name value) := by
  have hkeyword : IsWord "EQU".toList := by decide
  have hline : [' '].intercalate [name, "EQU".toList, value] =
      name ++ " EQU ".toList ++ value := by
    simp [List.intercalate_cons_cons, List.intercalate_singleton]
  have hwords := codeWords_intercalate [name, "EQU".toList, value]
    (by simpa using ⟨hname, hkeyword, hvalue⟩)
  have hstart : startsBlank (name ++ " EQU ".toList ++ value) = false := by
    rw [List.append_assoc]
    exact hname.startsBlank _
  rw [hline] at hwords
  exact .constant hstart hwords (by decide)

/-- The words of a directive with one operand. -/
theorem codeWords_directive (directive : Text) {operand : Text} (hdirective : IsWord directive)
    (hoperand : IsWord operand) :
    codeWords (' ' :: directive ++ [' '] ++ operand) = [directive, operand] := by
  have hwords := codeWords_indented [directive, operand] (by simpa using ⟨hdirective, hoperand⟩)
  rwa [List.intercalate_cons_cons, List.intercalate_singleton, ← List.cons_append,
    ← List.cons_append] at hwords

theorem said_render_formBytes (hwell : WellFormed (.formBytes tokens)) :
    Said (render (.formBytes tokens)) (.formBytes tokens) := by
  obtain ⟨hsome, hmore, htokens⟩ := hwell
  have hbytes : IsWord ([','].intercalate tokens) :=
    isWord_intercalate_of_solid (by decide) hsome hmore
      (fun token htoken => (htokens token htoken).solid)
      fun token htoken => (htokens token htoken).code
  have hsplit : ([','].intercalate tokens).splitOn ',' = tokens :=
    List.splitOn_intercalate ',' (fun token htoken => (htokens token htoken).comma) hsome
  have hwords : codeWords (render (.formBytes tokens)) =
      ["FCB".toList, [','].intercalate tokens] :=
    codeWords_directive "FCB".toList (by decide) hbytes
  have hsaid := Said.formBytes rfl hwords (by decide)
  rwa [hsplit] at hsaid

/-- The plainest line for a well-formed statement says that statement. -/
theorem said_render (hwell : statement.WellFormed) : Said statement.render statement := by
  cases statement with
  | blank => exact .blank rfl
  | label name => exact said_render_label hwell
  | constant name value => exact said_render_constant hwell.1 hwell.2
  | origin address =>
      have hwords : codeWords (render (.origin address)) = ["ORG".toList, address] :=
        codeWords_directive "ORG".toList (by decide) hwell
      exact .origin rfl hwords (by decide)
  | finish =>
      have hwords : codeWords (render .finish) = ["END".toList] :=
        codeWords_indented ["END".toList] (by decide)
      exact .finish rfl hwords (by decide)
  | formBytes tokens => exact said_render_formBytes hwell
  | instruction mnemonic operands =>
      obtain ⟨hmnemonic, hother, hoperands⟩ := hwell
      have hwords := List.forall_mem_cons.mpr ⟨hmnemonic, hoperands⟩
      exact .instruction rfl (codeWords_indented (mnemonic :: operands) hwords) hother

/-- Statements can be said again.  Whatever line a statement was read from, it is well formed, and
its plainest line says the same; and every well-formed statement is what its plainest line says. -/
theorem render_of_parse (statement : Statement) :
    (∀ line, parse line = .ok statement →
      statement.WellFormed ∧ parse statement.render = .ok statement) ∧
    (statement.WellFormed → parse statement.render = .ok statement) := by
  have hagain : statement.WellFormed → parse statement.render = .ok statement :=
    fun hwell => (said_render hwell).parse
  refine ⟨?_, hagain⟩
  intro line hparse
  have hwell := (said_of_parse hparse).wellFormed
  exact ⟨hwell, hagain hwell⟩

/-- Bytes with nothing before the first comma and after the last one, which a comment follows, and a
label that keeps one of its two colons. -/
theorem render_of_parse_colons :
    parse "\tfcb\u00A0,'A,*,2".toList = .ok (.formBytes [[], "'A".toList, []]) ∧
      parse (render (.formBytes [[], "'A".toList, []])) = .ok (.formBytes [[], "'A".toList, []]) ∧
      parse "LOOP::".toList = .ok (.label "LOOP:".toList) ∧
      parse (render (.label "LOOP:".toList)) = .ok (.label "LOOP:".toList) := by
  have hbytes : parse "\tfcb\u00A0,'A,*,2".toList = .ok (.formBytes [[], "'A".toList, []]) := by
    decide +kernel
  have hlabel : parse "LOOP::".toList = .ok (.label "LOOP:".toList) := by decide +kernel
  have hwell : WellFormed (.label "LOOP:".toList) := by decide +kernel
  exact ⟨hbytes, ((render_of_parse _).1 _ hbytes).2, hlabel, (render_of_parse _).2 hwell⟩

end TwoPass.Statement
