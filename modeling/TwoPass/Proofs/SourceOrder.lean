import TwoPass.Proofs.Names
import TwoPass.Proofs.Refusals

/-!
# The order of a source

What the first pass knows after some lines is their history: whether there was an `ORG` or an `END`
among them, and which names they have defined.  The lemmas of the first part say this for each part
of the state, so that a check of the state becomes a question about the lines before.

With them, a source that passes has all the properties that the single checks ask for (`Orderly`),
and the checks that fail are the ones that find a line out of order.  `order_of_layOut` states both.
-/

namespace TwoPass

variable {setting : Setting} {source : List Text} {lines : List Line} {n m : Nat}

/-! ## The lines before a line -/

/-- There is an `ORG` before line `n`. -/
def OriginBefore (source : List Text) (n : Nat) : Prop :=
  ∃ token, ∃ m < n, Reads source m (.origin token)

/-- There is an `END` before line `n`. -/
def EndBefore (source : List Text) (n : Nat) : Prop := ∃ m < n, Reads source m .finish

theorem exists_reads_concat {text : Text} {statement : Statement} :
    (∃ m, Reads (source ++ [text]) m statement) ↔
      (∃ m, Reads source m statement) ∨ Statement.parse text = .ok statement := by
  constructor
  · rintro ⟨m, hreads⟩
    have hm := hreads.lt_length
    rw [List.length_append, List.length_singleton] at hm
    rcases Nat.lt_succ_iff_lt_or_eq.mp hm with hbefore | rfl
    · exact .inl ⟨m, (reads_append_left hbefore).mp hreads⟩
    · exact .inr (reads_append_length.mp hreads)
  · rintro (⟨m, hreads⟩ | hparse)
    · exact ⟨m, (reads_append_left hreads.lt_length).mpr hreads⟩
    · exact ⟨source.length, reads_append_length.mpr hparse⟩

theorem exists_reads_take {statement : Statement} :
    (∃ m, Reads (source.take n) m statement) ↔ ∃ m < n, Reads source m statement := by
  constructor
  · rintro ⟨m, hreads⟩
    have hm : m < n := Nat.lt_of_lt_of_le hreads.lt_length (List.length_take_le n source)
    exact ⟨m, hm, (reads_take hm).mp hreads⟩
  · rintro ⟨m, hm, hreads⟩
    exact ⟨m, (reads_take hm).mpr hreads⟩

namespace Progress

variable {progress next : Progress} {statement : Statement} {line : Line} {name : Text}

/-- The pass has seen `END` if it is among the lines. -/
theorem Reached.ended_iff (hreached : Reached setting source lines progress) :
    progress.ended = true ↔ ∃ m, Reads source m .finish := by
  induction hreached with
  | start => simp [Reads]
  | step _ hstep ih =>
      obtain ⟨statement, hparse, -, hobeyed⟩ := step_cases hstep
      rw [exists_reads_concat, ← ih, hparse]
      cases hobeyed <;> simp

/-- The counter is set if there is an `ORG` among the lines. -/
theorem Reached.target_isSome_iff (hreached : Reached setting source lines progress) :
    progress.target.isSome ↔ ∃ token m, Reads source m (.origin token) := by
  induction hreached with
  | start => simp [Reads]
  | step _ hstep ih =>
      obtain ⟨statement, hparse, -, hobeyed⟩ := step_cases hstep
      simp only [exists_reads_concat, exists_or, ← ih, hparse]
      cases hobeyed with
      | formBytes htarget | instruction htarget => simp [htarget]
      | blank | label | constant | origin | finish => simp

theorem Reached.label?_isSome_iff (hreached : Reached setting source lines progress) :
    (progress.symbols.label? name).isSome ↔ ∃ m, Reads source m (.label name) := by
  rw [← not_iff_not, Option.not_isSome_iff_eq_none, hreached.label?_eq_none, not_exists]

theorem Reached.constant?_isSome_iff (hreached : Reached setting source lines progress) :
    (progress.symbols.constant? name).isSome ↔
      ∃ value m, Reads source m (.constant name value) := by
  rw [Option.isSome_iff_exists]
  simp only [hreached.constant?_eq_some]
  constructor
  · rintro ⟨word, m, -, value, hreads, -⟩
    exact ⟨value, m, hreads⟩
  · rintro ⟨value, m, hreads⟩
    -- A definition that was taken has a value.
    obtain ⟨line, before, next, -, -, hobeyed⟩ := hreached.obeyed hreads
    cases hobeyed with
    | @constant _ _ word hvalue _ => exact ⟨word, m, hreads.lt_length, value, hreads, hvalue⟩

/-! ### The state at a line -/

section AtLine

variable (hreached : Reached setting (source.take n) lines progress)

include hreached

theorem Reached.ended_iff_endBefore : progress.ended = true ↔ EndBefore source n := by
  rw [hreached.ended_iff, exists_reads_take, EndBefore]

theorem Reached.target_isSome_iff_originBefore :
    progress.target.isSome ↔ OriginBefore source n := by
  simp only [hreached.target_isSome_iff, exists_reads_take, OriginBefore]

theorem Reached.label?_isSome_iff_before :
    (progress.symbols.label? name).isSome ↔ ∃ m < n, Reads source m (.label name) := by
  rw [hreached.label?_isSome_iff, exists_reads_take]

theorem Reached.constant?_isSome_iff_before :
    (progress.symbols.constant? name).isSome ↔
      ∃ value, ∃ m < n, Reads source m (.constant name value) := by
  simp only [hreached.constant?_isSome_iff, exists_reads_take]

end AtLine

end Progress

/-! ## Sources that pass -/

/-- The order that the first pass asks of a source. -/
structure Orderly (setting : Setting) (source : List Text) : Prop where
  /-- There is one `END`, and nothing after it. -/
  one_end : ∃ n, Reads source n .finish ∧ (∀ m, Reads source m .finish → m = n) ∧
    ∀ m, n < m → m < source.length → Reads source m .blank
  /-- What needs an address has an `ORG` before it. -/
  origin_before : ∀ n statement, Reads source n statement → statement.needsOrigin = true →
    OriginBefore source n
  one_origin : setting.multipleOrigins = false → ∀ m n token other,
    Reads source m (.origin token) → Reads source n (.origin other) → m = n
  origin_limit : ∀ n token, Reads source n (.origin token) →
    ∃ word, Literal.value? token = some word ∧ word.toNat ≤ 0xFFFF
  labels_distinct : ∀ m n name, Reads source m (.label name) → Reads source n (.label name) → m = n
  constants_distinct : ∀ m n name value other, Reads source m (.constant name value) →
    Reads source n (.constant name other) → m = n

/-- Two lines of which neither can come before the other are the same. -/
theorem eq_of_forall_not_lt {p : Nat → Prop} (hnone : ∀ m n, m < n → p m → ¬p n) (hm : p m)
    (hn : p n) : m = n := by
  rcases Nat.lt_trichotomy m n with hlt | heq | hgt
  · exact absurd hn (hnone m n hlt hm)
  · exact heq
  · exact absurd hm (hnone n m hgt hn)

namespace Progress

variable {progress next : Progress} {statement : Statement} {line : Line}

theorem Obeyed.target_isSome (hobeyed : Obeyed setting progress statement line next)
    (hneeds : statement.needsOrigin = true) : progress.target.isSome := by
  cases hobeyed with
  | label htarget | formBytes htarget | instruction htarget => simp [htarget]
  | blank | constant | origin | finish => cases hneeds

/-- Nothing but blank lines is taken after `END`. -/
theorem Reached.blank_of_endBefore (hreached : Reached setting source lines progress)
    (hend : EndBefore source m) (hm : m < source.length) : Reads source m .blank := by
  have hget : lines[m]? = some _ :=
    List.getElem?_eq_getElem (show m < lines.length from hreached.length_eq ▸ hm)
  obtain ⟨text, before, next, htext, hbefore, hstep⟩ := hreached.step_at hget
  obtain ⟨statement, hparse, hcases, -⟩ := step_cases hstep
  rw [hbefore.ended_iff_endBefore.mpr hend] at hcases
  rcases hcases with rfl | hopen
  · exact reads_iff.mpr ⟨text, htext, hparse⟩
  · cases hopen

/-- Every line that was taken passed the checks of its statement, and these were about the lines
before it. -/
theorem Reached.orderly (hreached : Reached setting source lines progress)
    (hended : progress.ended = true) : Orderly setting source where
  one_end := by
    obtain ⟨n, hfinish⟩ := hreached.ended_iff.mp hended
    have hlater : ∀ m k, m < k → Reads source m .finish → k < source.length →
        Reads source k .blank :=
      fun m k hlt hm hk => hreached.blank_of_endBefore ⟨m, hlt, hm⟩ hk
    refine ⟨n, hfinish, fun m hm => ?_, fun m hlt hm => hlater n m hlt hfinish hm⟩
    refine eq_of_forall_not_lt (p := fun m => Reads source m .finish) ?_ hm hfinish
    intro m k hlt hm hk
    cases hk.unique (hlater m k hlt hm hk.lt_length)
  origin_before := by
    intro n statement hreads hneeds
    obtain ⟨line, before, next, -, hbefore, hobeyed⟩ := hreached.obeyed hreads
    exact hbefore.target_isSome_iff_originBefore.mp (hobeyed.target_isSome hneeds)
  one_origin := by
    intro hsingle m n token other hm hn
    refine eq_of_forall_not_lt (p := fun m => ∃ token, Reads source m (.origin token)) ?_
      ⟨token, hm⟩ ⟨other, hn⟩
    rintro m k hlt ⟨token, hm⟩ ⟨other, hk⟩
    obtain ⟨line, before, next, -, hbefore, hobeyed⟩ := hreached.obeyed hk
    cases hobeyed with
    | origin hallowed _ _ =>
        have hset := hbefore.target_isSome_iff_originBefore.mpr ⟨token, m, hlt, hm⟩
        simp [hsingle] at hallowed
        simp [hallowed] at hset
  origin_limit := by
    intro n token hreads
    obtain ⟨line, before, next, -, -, hobeyed⟩ := hreached.obeyed hreads
    cases hobeyed with
    | @origin _ word _ hvalue hlimit => exact ⟨word, hvalue, UInt32.le_iff_toNat_le.mp hlimit⟩
  labels_distinct := by
    intro m n name hm hn
    refine eq_of_forall_not_lt (p := fun m => Reads source m (.label name)) ?_ hm hn
    intro m k hlt hm hk
    obtain ⟨line, before, next, -, hbefore, hobeyed⟩ := hreached.obeyed hk
    cases hobeyed with
    | label _ hfresh =>
        have hknown := hbefore.label?_isSome_iff_before.mpr ⟨m, hlt, hm⟩
        simp [hfresh] at hknown
  constants_distinct := by
    intro m n name value other hm hn
    refine eq_of_forall_not_lt (p := fun m => ∃ value, Reads source m (.constant name value)) ?_
      ⟨value, hm⟩ ⟨other, hn⟩
    rintro m k hlt ⟨value, hm⟩ ⟨other, hk⟩
    obtain ⟨line, before, next, -, hbefore, hobeyed⟩ := hreached.obeyed hk
    cases hobeyed with
    | constant _ hfresh =>
        have hknown := hbefore.constant?_isSome_iff_before.mpr ⟨value, m, hlt, hm⟩
        simp [hfresh] at hknown

end Progress

/-! ## Sources that do not -/

namespace Program

open Progress (OutOfOrder Reached)

variable {progress : Progress} {statement : Statement} {fault : Fault}

/-- At a statement, the pass has a fault of order exactly if the statement is out of order. -/
theorem layOut_eq_error_iff_outOfOrder
    (hreached : Reached setting (source.take n) lines progress) (hreads : Reads source n statement)
    (hopen : ¬EndBefore source n) (horder : fault.isOrder = true) :
    layOut setting source = .error ⟨n, fault⟩ ↔ OutOfOrder setting progress statement fault := by
  obtain ⟨text, hget, hparse⟩ := reads_iff.mp hreads
  rw [← hreached.ended_iff_endBefore, Bool.not_eq_true] at hopen
  rw [layOut_eq_error_iff_step hreached hget, Progress.step_of_parse hparse hopen,
    Progress.obey_eq_error_iff horder]

theorem layOut_eq_codeAfterEnd_iff (hn : n < source.length)
    (hreached : Reached setting (source.take n) lines progress) :
    layOut setting source = .error ⟨n, .codeAfterEnd⟩ ↔
      ¬Reads source n .blank ∧ EndBefore source n := by
  have hget : source[n]? = some source[n] := List.getElem?_eq_getElem hn
  have hblank : Reads source n .blank ↔ Statement.parse source[n] = .ok .blank := by
    simp [Reads, hget]
  rw [layOut_eq_error_iff_step hreached hget, Progress.step_eq_codeAfterEnd_iff,
    hreached.ended_iff_endBefore, hblank]

theorem layOut_eq_missingEnd_iff :
    layOut setting source = .error ⟨n, .missingEnd⟩ ↔
      n = source.length ∧ Takes setting source n ∧ ∀ m, ¬Reads source m .finish := by
  constructor
  · intro herror
    rcases layOut_eq_error.mp herror with ⟨text, _, before, -, -, hstep⟩ |
      ⟨rfl, -, lines, progress, hreached, hopen⟩
    · exact absurd hstep Progress.step_ne_missingEnd
    · refine ⟨rfl, ?_, ?_⟩
      · rw [takes_iff (Nat.le_refl _), List.take_length]
        exact ⟨lines, progress, hreached⟩
      · rw [← not_exists, ← hreached.ended_iff, hopen]
        exact Bool.false_ne_true
  · rintro ⟨rfl, htakes, hnone⟩
    rw [takes_iff (Nat.le_refl _), List.take_length] at htakes
    obtain ⟨lines, progress, hreached⟩ := htakes
    rw [← not_exists, ← hreached.ended_iff, Bool.not_eq_true] at hnone
    exact layOut_of_not_ended hreached hnone

theorem orderly_of_layOut {draft : Program} (hlayOut : layOut setting source = .ok draft) :
    Orderly setting source := by
  obtain ⟨progress, hreached, -, hended⟩ := layOut_cases hlayOut
  exact hreached.orderly hended

/-- The order of a source.  A source that passes is in order.  Where all lines before a line are
taken, the pass refuses the line because of an earlier `END` exactly if there is one and the line is
not blank; for a statement without an `END` before it, each of the other faults of order says what
stands before it that should not, or does not and should.  The fault of a missing `END` remains for
sources of which every line is taken. -/
theorem order_of_layOut (setting : Setting) (source : List Text) :
    (∀ draft, layOut setting source = .ok draft → Orderly setting source) ∧
    (∀ n, n < source.length → Takes setting source n →
      (layOut setting source = .error ⟨n, .codeAfterEnd⟩ ↔
        ¬Reads source n .blank ∧ EndBefore source n) ∧
      ∀ statement, Reads source n statement → ¬EndBefore source n →
        (layOut setting source = .error ⟨n, .originRepeated⟩ ↔
          (∃ token, statement = .origin token) ∧ OriginBefore source n ∧
            setting.multipleOrigins = false) ∧
        (layOut setting source = .error ⟨n, .missingOrigin⟩ ↔
          statement.needsOrigin = true ∧ ¬OriginBefore source n) ∧
        (layOut setting source = .error ⟨n, .labelRedefined⟩ ↔
          ∃ name, statement = .label name ∧ OriginBefore source n ∧
            ∃ m < n, Reads source m (.label name)) ∧
        (layOut setting source = .error ⟨n, .constantRedefined⟩ ↔
          ∃ name value word, statement = .constant name value ∧
            Literal.value? value = some word ∧
            ∃ other, ∃ m < n, Reads source m (.constant name other))) ∧
    ∀ n, layOut setting source = .error ⟨n, .missingEnd⟩ ↔
      n = source.length ∧ Takes setting source n ∧ ∀ m, ¬Reads source m .finish := by
  refine ⟨fun draft => orderly_of_layOut, ?_, fun n => layOut_eq_missingEnd_iff⟩
  · intro n hn htakes
    obtain ⟨lines, progress, hreached⟩ := (takes_iff (Nat.le_of_lt hn)).mp htakes
    refine ⟨layOut_eq_codeAfterEnd_iff hn hreached, ?_⟩
    intro statement hreads hopen
    have hfault : ∀ fault, fault.isOrder = true → (layOut setting source = .error ⟨n, fault⟩ ↔
        OutOfOrder setting progress statement fault) :=
      fun fault => layOut_eq_error_iff_outOfOrder hreached hreads hopen
    rw [hfault _ rfl, hfault _ rfl, hfault _ rfl, hfault _ rfl,
      ← hreached.target_isSome_iff_originBefore]
    simp only [← hreached.label?_isSome_iff_before, ← hreached.constant?_isSome_iff_before]
    refine ⟨⟨fun hrefused => ?_, ?_⟩, ⟨fun hrefused => ?_, ?_⟩, ⟨fun hrefused => ?_, ?_⟩,
      ⟨fun hrefused => ?_, ?_⟩⟩
    · cases hrefused with
      | originRepeated htarget hsingle => exact ⟨⟨_, rfl⟩, htarget, hsingle⟩
    · rintro ⟨⟨token, rfl⟩, htarget, hsingle⟩
      exact .originRepeated htarget hsingle
    · cases hrefused with
      | missingOrigin hneeds htarget => exact ⟨hneeds, by simp [htarget]⟩
    · rintro ⟨hneeds, htarget⟩
      exact .missingOrigin hneeds (by simpa using htarget)
    · cases hrefused with
      | labelRedefined htarget hknown => exact ⟨_, rfl, htarget, hknown⟩
    · rintro ⟨name, rfl, htarget, hknown⟩
      exact .labelRedefined htarget hknown
    · cases hrefused with
      | constantRedefined hvalue hknown => exact ⟨_, _, _, rfl, hvalue, hknown⟩
    · rintro ⟨name, value, word, rfl, hvalue, hknown⟩
      exact .constantRedefined hvalue hknown

/-- The sample has two segments, and so it is refused where only one is allowed. -/
theorem order_of_sampleSource :
    Orderly sampleSetting sampleSource ∧
      layOut { sampleSetting with multipleOrigins := false } sampleSource =
        .error ⟨7, .originRepeated⟩ ∧
      OriginBefore sampleSource 7 := by
  obtain ⟨draft, -, hlayOut, -⟩ := assemble_cases assemble_sampleSource
  have hrefused : layOut { sampleSetting with multipleOrigins := false } sampleSource =
      .error ⟨7, .originRepeated⟩ := by decide +kernel
  have htakes : Takes { sampleSetting with multipleOrigins := false } sampleSource 7 := by
    intro k fault herror
    rw [hrefused] at herror
    cases herror
    exact Nat.le_refl 7
  have hreads : Reads sampleSource 7 (.origin "$00FE".toList) := by
    unfold Reads
    decide +kernel
  have hopen : ¬EndBefore sampleSource 7 := by
    unfold EndBefore Reads
    decide +kernel
  have horder := ((order_of_layOut _ sampleSource).2.1 7 (by decide) htakes).2 _ hreads hopen
  exact ⟨(order_of_layOut sampleSetting sampleSource).1 draft hlayOut, hrefused,
    (horder.1.mp hrefused).2.1⟩

end Program

end TwoPass
