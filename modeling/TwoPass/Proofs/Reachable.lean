import TwoPass.Code.Layout
import TwoPass.Proofs.Encoding

/-!
# What the first pass reaches

The first pass is the repetition of `Progress.step`.  `step_cases` says what one step can do, one
case for each kind of statement; `Reached` are the states that steps lead to, together with the
source lines taken and the lines assembled so far.  Every invariant of the first pass is proved by
induction over `Reached`, and `Reached.step_at` goes back from a whole run to the step that took a
given line.
-/

namespace TwoPass

/-! ## What a source line reads -/

/-- Line `n` of a source reads as a statement. -/
def Reads (source : List Text) (n : Nat) (statement : Statement) : Prop :=
  source[n]?.map Statement.parse = some (.ok statement)

section Reads

variable {source more : List Text} {n : Nat} {text : Text} {statement : Statement}

theorem reads_iff : Reads source n statement ↔
    ∃ text, source[n]? = some text ∧ Statement.parse text = .ok statement := by
  simp [Reads, Option.map_eq_some_iff]

theorem Reads.lt_length (hreads : Reads source n statement) : n < source.length := by
  obtain ⟨text, hget, -⟩ := reads_iff.mp hreads
  exact (List.getElem?_eq_some_iff.mp hget).1

/-- A line reads as one statement only. -/
theorem Reads.unique {other : Statement} (hreads : Reads source n statement)
    (hother : Reads source n other) : statement = other := by
  unfold Reads at hreads hother
  rw [hreads] at hother
  simpa using hother

/-- Lines added at the end change nothing about the lines before them. -/
theorem reads_append_left (hn : n < source.length) :
    Reads (source ++ more) n statement ↔ Reads source n statement := by
  rw [Reads, Reads, List.getElem?_append_left hn]

theorem reads_append_length :
    Reads (source ++ [text]) source.length statement ↔ Statement.parse text = .ok statement := by
  rw [Reads, List.getElem?_concat_length]
  simp

theorem reads_take {m : Nat} (hm : m < n) :
    Reads (source.take n) m statement ↔ Reads source m statement := by
  rw [Reads, Reads, List.getElem?_take_of_lt hm]

end Reads

namespace Progress

variable {setting : Setting} {progress next : Progress} {statement : Statement}
  {source : List Text} {lines : List Line} {text : Text} {line : Line}

/-! ## One step -/

/-- What obeying a statement does: one case for each kind of statement, with all that has been
checked before. -/
inductive Obeyed (setting : Setting) (progress : Progress) : Statement → Line → Progress → Prop
  | blank : Obeyed setting progress .blank .empty progress
  | label {name : Text} {address : UInt32} (htarget : progress.target = some address)
      (hfresh : progress.symbols.label? name = none) :
      Obeyed setting progress (.label name) .empty { progress with
        symbols := { progress.symbols with
          labels := progress.symbols.labels ++ [(name, address)] } }
  | constant {name value : Text} {word : UInt32} (hvalue : Literal.value? value = some word)
      (hfresh : progress.symbols.constant? name = none) :
      Obeyed setting progress (.constant name value) .empty { progress with
        symbols := { progress.symbols with
          constants := progress.symbols.constants ++ [(name, word)] } }
  | origin {token : Text} {word : UInt32}
      (hallowed : progress.target = none ∨ setting.multipleOrigins = true)
      (hvalue : Literal.value? token = some word) (hlimit : word ≤ wordMax) :
      Obeyed setting progress (.origin token) .empty { progress with target := some word }
  | finish : Obeyed setting progress .finish .empty { progress with ended := true }
  | formBytes {tokens : List Text} {address : UInt32} {bytes : List UInt8}
      (htarget : progress.target = some address)
      (hbytes : tokens.mapM (formByte progress.symbols) = .ok bytes) :
      Obeyed setting progress (.formBytes tokens) (.data address bytes) { progress with
        target := some (address + bytes.length.toUInt32) }
  | instruction {mnemonic : Text} {operands : List Text} {address : UInt32}
      {instruction : Instruction} (htarget : progress.target = some address)
      (hencode : Instruction.encode setting.table progress.symbols mnemonic operands =
        .ok instruction) :
      Obeyed setting progress (.instruction mnemonic operands) (instruction.toLine address)
        { progress with target := some (address + instruction.size.toUInt32) }

theorem requireTarget_eq_ok {address : UInt32} :
    progress.requireTarget = .ok address ↔ progress.target = some address :=
  Outcome.elim_eq_ok

theorem parse_literal_eq_ok {token : Text} {word : UInt32} :
    Literal.parse token = .ok word ↔ Literal.value? token = some word :=
  Outcome.elim_eq_ok

theorem obey_cases (h : progress.obey setting statement = .ok (line, next)) :
    Obeyed setting progress statement line next := by
  cases statement with
  | blank =>
      cases h
      exact .blank
  | label name =>
      simp only [obey, Symbols.defineLabel, Outcome.bind_eq_ok, requireTarget_eq_ok,
        Outcome.pure_eq_ok, Prod.mk.injEq] at h
      obtain ⟨address, htarget, symbols, hdefine, rfl, rfl⟩ := h
      split at hdefine
      next => cases hdefine
      next hfresh =>
        cases hdefine
        exact .label htarget (by simpa using hfresh)
  | constant name value =>
      simp only [obey, Symbols.defineConstant, Outcome.bind_eq_ok, parse_literal_eq_ok,
        Outcome.pure_eq_ok, Prod.mk.injEq] at h
      obtain ⟨word, hvalue, symbols, hdefine, rfl, rfl⟩ := h
      split at hdefine
      next => cases hdefine
      next hfresh =>
        cases hdefine
        exact .constant hvalue (by simpa using hfresh)
  | origin token =>
      rw [obey] at h
      split at h
      next => cases h
      next hallowed =>
        simp only [Outcome.bind_eq_ok, parse_literal_eq_ok, Symbols.checkLimit_eq_ok,
          Outcome.pure_eq_ok, Prod.mk.injEq] at h
        obtain ⟨word, hvalue, _, ⟨rfl, hlimit⟩, rfl, rfl⟩ := h
        refine .origin ?_ hvalue hlimit
        cases htarget : progress.target with
        | none => exact .inl rfl
        | some address => exact .inr (by simpa [htarget] using hallowed)
  | finish =>
      cases h
      exact .finish
  | formBytes tokens =>
      simp only [obey, Outcome.bind_eq_ok, requireTarget_eq_ok, Outcome.pure_eq_ok,
        Prod.mk.injEq] at h
      obtain ⟨address, htarget, bytes, hbytes, rfl, rfl⟩ := h
      exact .formBytes htarget hbytes
  | instruction mnemonic operands =>
      simp only [obey, Outcome.bind_eq_ok, requireTarget_eq_ok, Outcome.pure_eq_ok,
        Prod.mk.injEq] at h
      obtain ⟨address, htarget, instruction, hencode, rfl, rfl⟩ := h
      exact .instruction htarget hencode

/-- A step takes a line that is a statement and obeys it; after `END` only blank lines are taken. -/
theorem step_cases (h : progress.step setting text = .ok (line, next)) :
    ∃ statement, Statement.parse text = .ok statement ∧
      (statement = .blank ∨ progress.ended = false) ∧
      Obeyed setting progress statement line next := by
  unfold step at h
  cases hparse : Statement.parse text with
  | error fault =>
      simp only [hparse] at h
      split at h <;> cases h
  | ok statement =>
      refine ⟨statement, rfl, ?_⟩
      by_cases hblank : statement = .blank
      · subst hblank
        rw [hparse] at h
        cases h
        exact ⟨.inl rfl, .blank⟩
      · have hstep : (if progress.ended then .error .codeAfterEnd
            else progress.obey setting statement) = .ok (line, next) := by
          cases statement <;> first | exact absurd rfl hblank | simpa [hparse] using h
        split at hstep
        next => cases hstep
        next hended => exact ⟨.inr (by simpa using hended), obey_cases hstep⟩

/-- Conversely, each of the cases is what obeying the statement does. -/
theorem Obeyed.obey (hobeyed : Obeyed setting progress statement line next) :
    progress.obey setting statement = .ok (line, next) := by
  have hrequire : ∀ address, progress.target = some address →
      progress.requireTarget = .ok address := fun _ => requireTarget_eq_ok.mpr
  cases hobeyed with
  | blank | finish => rfl
  | label htarget hfresh =>
      simp [Progress.obey, Symbols.defineLabel, hrequire _ htarget, hfresh, bind, Except.bind, pure,
        Except.pure]
  | constant hvalue hfresh =>
      simp [Progress.obey, Symbols.defineConstant, parse_literal_eq_ok.mpr hvalue, hfresh, bind,
        Except.bind, pure, Except.pure]
  | @origin token word hallowed hvalue hlimit =>
      have hcheck : Symbols.checkLimit wordMax word = .ok word :=
        Symbols.checkLimit_eq_ok.mpr ⟨rfl, hlimit⟩
      have hfree : ¬(progress.target.isSome && !setting.multipleOrigins) = true := by
        rcases hallowed with hnone | hmany
        · simp [hnone]
        · simp [hmany]
      rw [Progress.obey, if_neg hfree, parse_literal_eq_ok.mpr hvalue]
      simp [hcheck, bind, Except.bind, pure, Except.pure]
  | formBytes htarget hbytes =>
      simp [Progress.obey, hrequire _ htarget, hbytes, bind, Except.bind, pure, Except.pure,
        advance, Line.data]
  | instruction htarget hencode =>
      simp [Progress.obey, hrequire _ htarget, hencode, bind, Except.bind, pure, Except.pure,
        advance, Instruction.toLine]

theorem Obeyed.step (hobeyed : Obeyed setting progress statement line next)
    (hparse : Statement.parse text = .ok statement)
    (hended : statement = .blank ∨ progress.ended = false) :
    progress.step setting text = .ok (line, next) := by
  have hobey := hobeyed.obey
  unfold Progress.step
  rw [hparse]
  by_cases hblank : statement = .blank
  · subst hblank
    exact hobey
  · have hopen : progress.ended = false := hended.resolve_left hblank
    cases statement <;> first | exact absurd rfl hblank | simpa [hopen] using hobey

/-- A line of code stands where the counter is and moves it by its size. -/
theorem Obeyed.target_of_address {address : UInt32}
    (hobeyed : Obeyed setting progress statement line next)
    (haddress : line.address = some address) :
    progress.target = some address ∧ next.target = some (address + line.size.toUInt32) := by
  cases hobeyed with
  | blank | label | constant | origin | finish => cases haddress
  | formBytes htarget _ =>
      cases haddress
      exact ⟨htarget, rfl⟩
  | instruction htarget _ =>
      cases haddress
      exact ⟨htarget, rfl⟩

/-! ## Whole runs -/

/-- `Reached setting source lines progress`: the first pass has taken `source`, has assembled it to
`lines`, and knows `progress` now. -/
inductive Reached (setting : Setting) : List Text → List Line → Progress → Prop
  | start : Reached setting [] [] {}
  | step {source : List Text} {lines : List Line} {progress next : Progress} {text : Text}
      {line : Line} (hreached : Reached setting source lines progress)
      (hstep : progress.step setting text = .ok (line, next)) :
      Reached setting (source ++ [text]) (lines ++ [line]) next

/-- A run continues from what has been reached. -/
theorem Reached.run {index : Nat} {rest : List Text} {more : List Line} {last : Progress}
    (hreached : Reached setting source lines progress)
    (hrun : progress.run setting index rest = .ok (more, last)) :
    Reached setting (source ++ rest) (lines ++ more) last := by
  induction rest generalizing source lines progress index more with
  | nil =>
      rw [Progress.run] at hrun
      cases hrun
      simpa using hreached
  | cons text rest ih =>
      rw [Progress.run] at hrun
      split at hrun
      next => cases hrun
      next line next hstep =>
        simp only [Outcome.map_eq_ok, Prod.exists, Prod.mk.injEq] at hrun
        obtain ⟨more, last, hrest, rfl, rfl⟩ := hrun
        simpa using ih (hreached.step hstep) hrest

theorem reached_of_run {index : Nat} (hrun : ({} : Progress).run setting index source =
    .ok (lines, progress)) : Reached setting source lines progress := by
  simpa using Reached.start.run hrun

/-- The steps of a run, one after the other. -/
theorem Reached.run_eq (hreached : Reached setting source lines progress) (rest : List Text) :
    ({} : Progress).run setting 0 (source ++ rest) =
      (progress.run setting source.length rest).map fun result =>
        (lines ++ result.1, result.2) := by
  induction hreached generalizing rest with
  | start =>
      cases hrun : ({} : Progress).run setting 0 rest <;> simp [hrun, Except.map]
  | @step source lines progress next text line _ hstep ih =>
      rw [List.append_assoc, ih, List.singleton_append, Progress.run, hstep]
      simp only [Outcome.map_map, List.length_append, List.length_singleton, List.append_assoc,
        List.singleton_append]

/-- A source leads to one state only. -/
theorem Reached.unique {others : List Line} {other : Progress}
    (hreached : Reached setting source lines progress)
    (hother : Reached setting source others other) : lines = others ∧ progress = other := by
  have hruns := (hreached.run_eq []).symm.trans (hother.run_eq [])
  simpa [Progress.run, Except.map] using hruns

theorem Reached.length_eq (hreached : Reached setting source lines progress) :
    lines.length = source.length := by
  induction hreached with
  | start => rfl
  | step _ _ ih => simp [ih]

/-- Every line of a run was assembled by a step, from the state that the lines before it lead to. -/
theorem Reached.step_at (hreached : Reached setting source lines progress) {n : Nat}
    (hget : lines[n]? = some line) :
    ∃ text before next, source[n]? = some text ∧
      Reached setting (source.take n) (lines.take n) before ∧
      before.step setting text = .ok (line, next) := by
  induction hreached with
  | start => cases hget
  | @step source lines progress next text last hreached hstep ih =>
      have hlength := hreached.length_eq
      have hn := (List.getElem?_eq_some_iff.mp hget).1
      rw [List.length_append, List.length_singleton] at hn
      rcases Nat.lt_succ_iff_lt_or_eq.mp hn with hlt | rfl
      · rw [List.getElem?_append_left hlt] at hget
        obtain ⟨text', before, next', htext, hbefore, hstep'⟩ := ih hget
        refine ⟨text', before, next', ?_, ?_, hstep'⟩
        · rw [List.getElem?_append_left (by omega), htext]
        · rwa [List.take_append_of_le_length (by omega), List.take_append_of_le_length (by omega)]
      · rw [List.getElem?_concat_length] at hget
        cases hget
        refine ⟨text, progress, next, ?_, ?_, hstep⟩
        · rw [hlength, List.getElem?_concat_length]
        · simpa [hlength] using hreached

/-- The same, by the statement that the line was assembled from. -/
theorem Reached.obeyed_at (hreached : Reached setting source lines progress) {n : Nat}
    (hget : lines[n]? = some line) :
    ∃ statement before next, Reads source n statement ∧
      Reached setting (source.take n) (lines.take n) before ∧
      Obeyed setting before statement line next := by
  obtain ⟨text, before, next, htext, hbefore, hstep⟩ := hreached.step_at hget
  obtain ⟨statement, hparse, -, hobeyed⟩ := step_cases hstep
  exact ⟨statement, before, next, reads_iff.mpr ⟨text, htext, hparse⟩, hbefore, hobeyed⟩

theorem Reached.obeyed (hreached : Reached setting source lines progress) {n : Nat}
    (hreads : Reads source n statement) :
    ∃ line before next, lines[n]? = some line ∧
      Reached setting (source.take n) (lines.take n) before ∧
      Obeyed setting before statement line next := by
  have hn : n < lines.length := hreached.length_eq ▸ hreads.lt_length
  have hget : lines[n]? = some lines[n] := List.getElem?_eq_getElem hn
  obtain ⟨statement', before, next, hreads', hbefore, hobeyed⟩ := hreached.obeyed_at hget
  obtain rfl := hreads.unique hreads'
  exact ⟨lines[n], before, next, hget, hbefore, hobeyed⟩

end Progress

namespace Program

variable {setting : Setting} {source : List Text}

/-- The first pass succeeds with what its steps have reached, provided that `END` was among the
lines. -/
theorem layOut_cases {draft : Program} (h : layOut setting source = .ok draft) :
    ∃ progress, Progress.Reached setting source draft.lines progress ∧
      draft.symbols = progress.symbols ∧ progress.ended = true := by
  unfold layOut at h
  split at h
  next => cases h
  next lines progress hrun =>
    split at h
    next hended =>
      cases h
      exact ⟨progress, Progress.reached_of_run hrun, rfl, hended⟩
    next => cases h

/-- Conversely, what steps have reached is what the first pass succeeds with. -/
theorem layOut_of_reached {lines : List Line} {progress : Progress}
    (hreached : Progress.Reached setting source lines progress) (hended : progress.ended = true) :
    layOut setting source = .ok ⟨lines, progress.symbols⟩ := by
  have hrun := hreached.run_eq []
  rw [List.append_nil, Progress.run] at hrun
  unfold layOut
  simp [hrun, Except.map, hended]

end Program

end TwoPass
