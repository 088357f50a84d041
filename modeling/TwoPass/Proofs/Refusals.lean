import Mathlib.Data.List.Induction
import TwoPass.Proofs.Linking

/-!
# Where the first pass stops

The first pass stops at the first line that it refuses.  `Stops` is that line without the loop: all
lines before it have been taken, and the step that takes it fails.  Every source is taken to its end
or stops somewhere (`reached_or_stops`), which gives the result of the pass in either case
(`layOut_eq_error`).

A line is refused for what it says itself, or for what has come before it.  The faults of the second
kind are the faults of order; a step has them in the cases of `OutOfOrder` and in no others
(`obey_eq_error_iff`), since reading a line, its literals and its operands never leads to one.
-/

namespace TwoPass

open Outcome (FailsOnly)

/-! ## Faults of order -/

/-- Whether a fault is about the order of the lines rather than about a line by itself. -/
@[simp] def Fault.isOrder : Fault → Bool
  | missingEnd | codeAfterEnd | labelRedefined | missingOrigin | originRepeated
  | constantRedefined => true
  | _ => false

/-- A result that has no fault of order. -/
abbrev Plain {α : Type} (x : Except Fault α) : Prop :=
  FailsOnly (fun fault => fault.isOrder = false) x

theorem Plain.ne_error {α : Type} {x : Except Fault α} {fault : Fault} (hplain : Plain x)
    (horder : fault.isOrder = true) : x ≠ .error fault := by
  intro herror
  have hother : fault.isOrder = false := hplain fault herror
  rw [horder] at hother
  cases hother

namespace Statement

theorem plain_parseMargin (head : Text) (operands : List Text) :
    Plain (parseMargin head operands) := by
  cases operands with
  | nil =>
      simp only [parseMargin]
      split <;> simp
  | cons keyword operands =>
      simp only [parseMargin]
      repeat' split
      all_goals simp

theorem plain_parseIndented (head : Text) (operands : List Text) :
    Plain (parseIndented head operands) := by
  unfold parseIndented
  repeat' split
  all_goals simp

theorem plain_parse (text : Text) : Plain (parse text) := by
  unfold parse
  split
  next => simp
  next =>
    split
    next => exact plain_parseIndented _ _
    next => exact plain_parseMargin _ _

end Statement

theorem Literal.plain_parse (token : Text) : Plain (Literal.parse token) := by
  simp [Literal.parse]

namespace Symbols

theorem plain_checkLimit (limit word : UInt32) : Plain (checkLimit limit word) := by
  unfold checkLimit
  split <;> simp

theorem plain_resolve (symbols : Symbols) (limit : UInt32) {missing : Fault} (token : Text)
    (hmissing : missing.isOrder = false) : Plain (symbols.resolve limit missing token) := by
  unfold resolve
  split
  next => exact plain_checkLimit _ _
  next => exact Outcome.failsOnly_error.mpr hmissing

theorem plain_resolveOrDefer (symbols : Symbols) (limit : UInt32) (token : Text) :
    Plain (symbols.resolveOrDefer limit token) := by
  unfold resolveOrDefer
  split
  next => exact (plain_checkLimit _ _).map
  next => simp

end Symbols

theorem Progress.plain_formByte (symbols : Symbols) (token : Text) :
    Plain (formByte symbols token) := by
  have htoByte : ∀ word, Plain (formByte.toByte word) :=
    fun word => (Symbols.plain_checkLimit byteMax word).map
  unfold formByte
  repeat' split
  all_goals simp [htoByte]

theorem plain_indexSuffix (token : Text) : Plain (indexSuffix token) := by
  unfold indexSuffix
  repeat' split
  all_goals simp

namespace Instruction

open Symbols (plain_resolve plain_resolveOrDefer)

theorem plain_requireMode (modes : Modes) (mode : Mode) : Plain (requireMode modes mode) := by
  simp [requireMode]

theorem plain_encodeSpecial (symbols : Symbols) (special : Special) (tokens : List Text) :
    Plain (encodeSpecial symbols special tokens) := by
  simp only [encodeSpecial]
  split
  next => simp
  next =>
  split
  next => simp
  next =>
  split
  next =>
    refine (plain_indexSuffix _).map.bind fun _ => (plain_requireMode _ _).bind fun _ => ?_
    refine (plain_resolve _ _ _ rfl).bind fun _ => (plain_resolve _ _ _ rfl).bind fun _ => ?_
    refine FailsOnly.bind (FailsOnly.mapM fun token _ => plain_resolveOrDefer _ _ token) fun _ => ?_
    exact Outcome.failsOnly_ok _
  next => simp

theorem plain_directOrExtended (modes : Modes) (operand : Operand) :
    Plain (directOrExtended modes operand) := by
  simp only [directOrExtended]
  split
  next => simp
  next => exact (plain_requireMode _ _).map

theorem plain_encodeAddress (symbols : Symbols) (mnemonic : Text) (modes : Modes) (token : Text) :
    Plain (encodeAddress symbols mnemonic modes token) := by
  unfold encodeAddress
  split
  next =>
    refine (plain_requireMode _ _).bind fun _ => (plain_resolveOrDefer _ _ _).bind fun _ => ?_
    exact Outcome.failsOnly_ok _
  next =>
    split
    next => exact (plain_resolveOrDefer _ _ _).bind fun _ => plain_directOrExtended _ _
    next => exact (plain_resolve _ _ _ rfl).bind fun _ => plain_directOrExtended _ _

theorem plain_encodeOperand (symbols : Symbols) (mnemonic : Text) (modes : Modes) (token : Text) :
    Plain (encodeOperand symbols mnemonic modes token) := by
  unfold encodeOperand
  split
  next => exact (plain_resolveOrDefer _ _ _).map
  next =>
    split
    next =>
      refine (plain_requireMode _ _).bind fun _ => (plain_resolve _ _ _ rfl).bind fun _ => ?_
      exact Outcome.failsOnly_ok _
    next =>
      refine (plain_indexSuffix _).bind fun suffix => ?_
      split
      next =>
        refine (plain_requireMode _ _).bind fun _ => (plain_resolve _ _ _ rfl).bind fun _ => ?_
        exact Outcome.failsOnly_ok _
      next => exact plain_encodeAddress _ _ _ _

theorem plain_encode (table : Table) (symbols : Symbols) (mnemonic : Text) (tokens : List Text) :
    Plain (encode table symbols mnemonic tokens) := by
  unfold encode
  split
  next => simp
  next => exact plain_encodeSpecial _ _ _
  next =>
    unfold encodeStandard
    split
    next => split <;> simp
    next => exact plain_encodeOperand _ _ _ _
    next => simp

end Instruction

/-! ## One step -/

/-- Whether a statement stands at an address, which an `ORG` before it has to give. -/
def Statement.needsOrigin : Statement → Bool
  | .label _ | .formBytes _ | .instruction _ _ => true
  | _ => false

namespace Progress

variable {setting : Setting} {progress : Progress} {statement : Statement} {fault : Fault}
  {text : Text}

/-- A statement that cannot be obeyed because of what has come before it: one case for each of the
faults. -/
inductive OutOfOrder (setting : Setting) (progress : Progress) : Statement → Fault → Prop
  | missingOrigin {statement : Statement} (hneeds : statement.needsOrigin = true)
      (htarget : progress.target = none) : OutOfOrder setting progress statement .missingOrigin
  | labelRedefined {name : Text} (htarget : progress.target.isSome)
      (hknown : (progress.symbols.label? name).isSome) :
      OutOfOrder setting progress (.label name) .labelRedefined
  | constantRedefined {name value : Text} {word : UInt32}
      (hvalue : Literal.value? value = some word)
      (hknown : (progress.symbols.constant? name).isSome) :
      OutOfOrder setting progress (.constant name value) .constantRedefined
  | originRepeated {token : Text} (htarget : progress.target.isSome)
      (hsingle : setting.multipleOrigins = false) :
      OutOfOrder setting progress (.origin token) .originRepeated

theorem OutOfOrder.obey (hrefused : OutOfOrder setting progress statement fault) :
    progress.obey setting statement = .error fault := by
  cases hrefused with
  | missingOrigin hneeds htarget =>
      have hrequire : progress.requireTarget = .error .missingOrigin :=
        Outcome.elim_eq_error.mpr ⟨htarget, rfl⟩
      cases statement with
      | label | formBytes | instruction =>
          rw [Progress.obey, hrequire]
          rfl
      | blank | constant | origin | finish => cases hneeds
  | labelRedefined htarget hknown =>
      obtain ⟨address, htarget⟩ := Option.isSome_iff_exists.mp htarget
      rw [Progress.obey, requireTarget_eq_ok.mpr htarget]
      simp [Symbols.defineLabel, hknown, bind, Except.bind]
  | constantRedefined hvalue hknown =>
      rw [Progress.obey, parse_literal_eq_ok.mpr hvalue]
      simp [Symbols.defineConstant, hknown, bind, Except.bind]
  | originRepeated htarget hsingle => simp [Progress.obey, htarget, hsingle]

/-- The faults of order are these and no others. -/
theorem obey_eq_error_iff (horder : fault.isOrder = true) :
    progress.obey setting statement = .error fault ↔
      OutOfOrder setting progress statement fault := by
  refine ⟨fun herror => ?_, OutOfOrder.obey⟩
  -- Where an address is needed, it is missing, or the rest of the statement is at fault.
  have hplaced : ∀ {α : Type} {next : UInt32 → Except Fault α}, statement.needsOrigin = true →
      progress.requireTarget >>= next = .error fault →
      OutOfOrder setting progress statement fault ∨
        ∃ address, progress.target = some address ∧ next address = .error fault := by
    intro α next hneeds hbind
    rcases Outcome.bind_eq_error.mp hbind with hmissing | ⟨address, htarget, hnext⟩
    · obtain ⟨htarget, rfl⟩ := Outcome.elim_eq_error.mp hmissing
      exact .inl (.missingOrigin hneeds htarget)
    · exact .inr ⟨address, requireTarget_eq_ok.mp htarget, hnext⟩
  cases statement with
  | blank | finish => cases herror
  | label name =>
      rcases hplaced rfl herror with hrefused | ⟨address, htarget, hdefine⟩
      · exact hrefused
      · rcases Outcome.bind_eq_error.mp hdefine with hknown | ⟨_, -, hok⟩
        · unfold Symbols.defineLabel at hknown
          split at hknown
          next hsome =>
            cases hknown
            exact .labelRedefined (by simp [htarget]) hsome
          next => cases hknown
        · cases hok
  | constant name value =>
      rcases Outcome.bind_eq_error.mp herror with hliteral | ⟨word, hvalue, hdefine⟩
      · exact absurd hliteral ((Literal.plain_parse value).ne_error horder)
      · rcases Outcome.bind_eq_error.mp hdefine with hknown | ⟨_, -, hok⟩
        · unfold Symbols.defineConstant at hknown
          split at hknown
          next hsome =>
            cases hknown
            exact .constantRedefined (parse_literal_eq_ok.mp hvalue) hsome
          next => cases hknown
        · cases hok
  | origin token =>
      rw [Progress.obey] at herror
      split at herror
      next hrepeated =>
        cases herror
        obtain ⟨htarget, hsingle⟩ := Bool.and_eq_true_iff.mp hrepeated
        exact .originRepeated htarget (by simpa using hsingle)
      next =>
        refine absurd herror (Plain.ne_error ?_ horder)
        refine (Literal.plain_parse token).bind fun word => ?_
        exact (Symbols.plain_checkLimit wordMax word).bind fun _ => Outcome.failsOnly_ok _
  | formBytes tokens =>
      rcases hplaced rfl herror with hrefused | ⟨address, -, hbytes⟩
      · exact hrefused
      · refine absurd hbytes (Plain.ne_error ?_ horder)
        refine FailsOnly.bind (FailsOnly.mapM fun token _ => plain_formByte _ token) fun _ => ?_
        exact Outcome.failsOnly_ok _
  | instruction mnemonic operands =>
      rcases hplaced rfl herror with hrefused | ⟨address, -, hencode⟩
      · exact hrefused
      · refine absurd hencode (Plain.ne_error ?_ horder)
        exact (Instruction.plain_encode _ _ _ _).bind fun _ => Outcome.failsOnly_ok _

/-- A line that is a statement is taken by obeying it, unless `END` has been seen. -/
theorem step_of_parse (hparse : Statement.parse text = .ok statement)
    (hopen : progress.ended = false) :
    progress.step setting text = progress.obey setting statement := by
  unfold step
  rw [hparse]
  cases statement with
  | blank => rfl
  | label | constant | origin | finish | formBytes | instruction => simp [hopen]

theorem step_of_blank (hparse : Statement.parse text = .ok .blank) :
    progress.step setting text = .ok (.empty, progress) := by
  unfold step
  rw [hparse]

/-- After `END`, every line that is not blank is refused, whether it is a statement or not. -/
theorem step_of_ended (hparse : Statement.parse text ≠ .ok .blank)
    (hended : progress.ended = true) :
    progress.step setting text = .error .codeAfterEnd := by
  unfold step
  split
  next hblank => exact absurd hblank hparse
  next => rw [if_pos hended]

/-- As long as there was no `END`, a step has no fault of order but those of its statement. -/
theorem step_eq_error_iff (horder : fault.isOrder = true) (hopen : progress.ended = false) :
    progress.step setting text = .error fault ↔
      ∃ statement, Statement.parse text = .ok statement ∧
        OutOfOrder setting progress statement fault := by
  cases hparse : Statement.parse text with
  | ok statement => simp [step_of_parse hparse hopen, obey_eq_error_iff horder]
  | error other =>
      have hstep : progress.step setting text = .error other := by
        unfold step
        rw [hparse]
        simp [hopen]
      have hother : other ≠ fault := by
        rintro rfl
        exact (Statement.plain_parse text).ne_error horder hparse
      simp [hstep, hother]

theorem step_eq_codeAfterEnd_iff :
    progress.step setting text = .error .codeAfterEnd ↔
      Statement.parse text ≠ .ok .blank ∧ progress.ended = true := by
  refine ⟨fun herror => ?_, fun ⟨hparse, hended⟩ => step_of_ended hparse hended⟩
  refine ⟨fun hblank => ?_, ?_⟩
  · rw [step_of_blank hblank] at herror
    cases herror
  · by_contra hopen
    obtain ⟨statement, -, hrefused⟩ :=
      (step_eq_error_iff rfl (Bool.eq_false_iff.mpr hopen)).mp herror
    cases hrefused

theorem step_ne_missingEnd : progress.step setting text ≠ .error .missingEnd := by
  intro herror
  cases hended : progress.ended with
  | false =>
      obtain ⟨statement, -, hrefused⟩ := (step_eq_error_iff rfl hended).mp herror
      cases hrefused
  | true =>
      by_cases hblank : Statement.parse text = .ok .blank
      · rw [step_of_blank hblank] at herror
        cases herror
      · rw [step_of_ended hblank hended] at herror
        cases herror

/-! ## Whole runs -/

variable {source more : List Text} {n : Nat}

/-- The first pass takes all lines before line `n` and refuses that one. -/
def Stops (setting : Setting) (source : List Text) (n : Nat) (fault : Fault) : Prop :=
  ∃ text lines progress, source[n]? = some text ∧
    Reached setting (source.take n) lines progress ∧ progress.step setting text = .error fault

theorem Stops.lt_length (hstops : Stops setting source n fault) : n < source.length := by
  obtain ⟨text, -, -, hget, -⟩ := hstops
  exact (List.getElem?_eq_some_iff.mp hget).1

/-- Lines after the one that is refused are never looked at. -/
theorem Stops.append (hstops : Stops setting source n fault) (more : List Text) :
    Stops setting (source ++ more) n fault := by
  have hlt := hstops.lt_length
  obtain ⟨text, lines, progress, hget, hreached, hstep⟩ := hstops
  refine ⟨text, lines, progress, ?_, ?_, hstep⟩
  · rw [List.getElem?_append_left hlt, hget]
  · rwa [List.take_append_of_le_length (Nat.le_of_lt hlt)]

/-- A line that is refused after all lines before it have been taken. -/
theorem Reached.stops {lines : List Line} (hreached : Reached setting source lines progress)
    (hstep : progress.step setting text = .error fault) (rest : List Text) :
    Stops setting (source ++ text :: rest) source.length fault :=
  ⟨text, lines, progress, by simp, by simpa using hreached, hstep⟩

/-- The first pass takes a source to its end or stops at one of its lines. -/
theorem reached_or_stops (setting : Setting) (source : List Text) :
    (∃ lines progress, Reached setting source lines progress) ∨
      ∃ n fault, Stops setting source n fault := by
  induction source using List.reverseRecOn with
  | nil => exact .inl ⟨[], {}, .start⟩
  | append_singleton source text ih =>
      rcases ih with ⟨lines, progress, hreached⟩ | ⟨n, fault, hstops⟩
      · cases hstep : progress.step setting text with
        | ok result => exact .inl ⟨_, _, hreached.step hstep⟩
        | error fault => exact .inr ⟨_, _, hreached.stops hstep []⟩
      · exact .inr ⟨n, fault, hstops.append [text]⟩

theorem Stops.run_eq (hstops : Stops setting source n fault) :
    ({} : Progress).run setting 0 source = .error ⟨n, fault⟩ := by
  obtain ⟨text, lines, progress, hget, hreached, hstep⟩ := hstops
  obtain ⟨hlt, rfl⟩ := List.getElem?_eq_some_iff.mp hget
  have hsplit : source = source.take n ++ source[n] :: source.drop (n + 1) := by
    rw [List.getElem_cons_drop, List.take_append_drop]
  have hlength : (source.take n).length = n := List.length_take_of_le (Nat.le_of_lt hlt)
  rw [hsplit, hreached.run_eq, Progress.run, hstep, hlength]
  rfl

end Progress

namespace Program

open Progress (Reached Stops)

variable {setting : Setting} {source : List Text} {n : Nat} {fault : Fault}

theorem layOut_of_stops (hstops : Stops setting source n fault) :
    layOut setting source = .error ⟨n, fault⟩ := by
  rw [layOut, hstops.run_eq]

theorem layOut_of_not_ended {lines : List Line} {progress : Progress}
    (hreached : Reached setting source lines progress) (hopen : progress.ended = false) :
    layOut setting source = .error ⟨source.length, .missingEnd⟩ := by
  have hrun := hreached.run_eq []
  rw [List.append_nil, Progress.run] at hrun
  unfold layOut
  simp [hrun, Except.map, hopen]

/-- The first pass fails where it stops, or else at the end if there was no `END`. -/
theorem layOut_eq_error :
    layOut setting source = .error ⟨n, fault⟩ ↔
      Stops setting source n fault ∨
        (n = source.length ∧ fault = .missingEnd ∧
          ∃ lines progress, Reached setting source lines progress ∧ progress.ended = false) := by
  constructor
  · intro herror
    rcases Progress.reached_or_stops setting source with ⟨lines, progress, hreached⟩ |
      ⟨m, other, hstops⟩
    · cases hended : progress.ended with
      | true =>
          rw [layOut_of_reached hreached hended] at herror
          cases herror
      | false =>
          rw [layOut_of_not_ended hreached hended] at herror
          cases herror
          exact .inr ⟨rfl, rfl, lines, progress, hreached, hended⟩
    · rw [layOut_of_stops hstops] at herror
      cases herror
      exact .inl hstops
  · rintro (hstops | ⟨rfl, rfl, lines, progress, hreached, hopen⟩)
    · exact layOut_of_stops hstops
    · exact layOut_of_not_ended hreached hopen

theorem stops_of_layOut (herror : layOut setting source = .error ⟨n, fault⟩)
    (hn : n < source.length) : Stops setting source n fault := by
  rcases layOut_eq_error.mp herror with hstops | ⟨rfl, -⟩
  · exact hstops
  · exact absurd hn (Nat.lt_irrefl _)

/-- Where the lines before it have been taken, the pass fails at a line exactly if the step does. -/
theorem layOut_eq_error_iff_step {lines : List Line} {progress : Progress} {text : Text}
    (hreached : Reached setting (source.take n) lines progress) (hget : source[n]? = some text) :
    layOut setting source = .error ⟨n, fault⟩ ↔ progress.step setting text = .error fault := by
  constructor
  · intro herror
    obtain ⟨text', others, before, hget', hbefore, hstep⟩ :=
      stops_of_layOut herror (List.getElem?_eq_some_iff.mp hget).1
    obtain rfl : text = text' := Option.some.inj (hget.symm.trans hget')
    obtain ⟨-, rfl⟩ := hreached.unique hbefore
    exact hstep
  · intro hstep
    exact layOut_of_stops ⟨text, lines, progress, hget, hreached, hstep⟩

/-! ### Lines that are taken -/

/-- The first pass takes the lines before line `n`: none of them is at fault. -/
def Takes (setting : Setting) (source : List Text) (n : Nat) : Prop :=
  ∀ k fault, layOut setting source = .error ⟨k, fault⟩ → n ≤ k

/-- Lines are taken if steps lead from the start to the end of them. -/
theorem takes_iff (hn : n ≤ source.length) :
    Takes setting source n ↔ ∃ lines progress, Reached setting (source.take n) lines progress := by
  constructor
  · intro htakes
    rcases Progress.reached_or_stops setting (source.take n) with hreached | ⟨k, fault, hstops⟩
    · exact hreached
    · have hk := hstops.lt_length
      have hlater := hstops.append (source.drop n)
      rw [List.take_append_drop] at hlater
      rw [List.length_take_of_le hn] at hk
      exact absurd (htakes k fault (layOut_of_stops hlater)) (Nat.not_le.mpr hk)
  · rintro ⟨lines, progress, hreached⟩ k fault herror
    by_contra hlt
    have hk : k < n := Nat.not_le.mp hlt
    have hlength := hreached.length_eq
    rw [List.length_take_of_le hn] at hlength
    -- The line was taken, by a step that the pass would have to fail with.
    obtain ⟨text, before, next, hget, hbefore, htaken⟩ :=
      hreached.step_at (List.getElem?_eq_getElem (show k < lines.length by omega))
    rw [List.getElem?_take_of_lt hk] at hget
    rw [List.take_take, Nat.min_eq_left (Nat.le_of_lt hk)] at hbefore
    rw [layOut_eq_error_iff_step hbefore hget, htaken] at herror
    cases herror

end Program

end TwoPass
