import TwoPass.Proofs.CodeSize
import TwoPass.Proofs.Refusals

/-!
# Longer sources and freer settings

Two ways to extend what is assembled, and what stays as it was.

* **More lines.**  The first pass never looks back or ahead: a source that stops at a line still
  stops there with other lines after it, and a source that passes can be followed by blank lines
  only (`layOut_append`).
* **More segments.**  Whether a second `ORG` is allowed is asked in one place, where the answer is a
  fault or nothing.  So the two settings do the same at every step that does not have this fault
  (`step_multipleOrigins`), and on every source that does not have it (`assemble_multipleOrigins`).
-/

namespace TwoPass

variable {setting : Setting} {source more : List Text} {n : Nat}

/-! ## More lines -/

/-- Blank lines are taken anywhere and change nothing. -/
theorem Progress.Reached.blanks {lines : List Line} {progress : Progress}
    (hreached : Reached setting source lines progress)
    (hblank : ∀ text ∈ more, Statement.parse text = .ok .blank) :
    Reached setting (source ++ more) (lines ++ List.replicate more.length .empty) progress := by
  induction more generalizing source lines with
  | nil => simpa using hreached
  | cons text rest ih =>
      obtain ⟨hfirst, hrest⟩ := List.forall_mem_cons.mp hblank
      have hnext := hreached.step (step_of_blank hfirst)
      simpa [List.replicate_succ] using ih hnext hrest

namespace Program

open Progress (Reached Stops)

theorem assemble_of_layOut_error {diagnostic : Diagnostic}
    (herror : layOut setting source = .error diagnostic) :
    assemble setting source = .error diagnostic := by
  rw [assemble, herror]
  rfl

/-- A source that passes still does with blank lines after it. -/
theorem layOut_append_blanks {draft : Program} (hlayOut : layOut setting source = .ok draft)
    (hblank : ∀ text ∈ more, Statement.parse text = .ok .blank) :
    layOut setting (source ++ more) =
      .ok ⟨draft.lines ++ List.replicate more.length .empty, draft.symbols⟩ := by
  obtain ⟨progress, hreached, hsymbols, hended⟩ := layOut_cases hlayOut
  rw [hsymbols]
  exact layOut_of_reached (hreached.blanks hblank) hended

/-- It does not with any other line, be it a statement or not. -/
theorem layOut_append_code {draft : Program} {blanks : List Text} {text : Text}
    (hlayOut : layOut setting source = .ok draft)
    (hblank : ∀ blank ∈ blanks, Statement.parse blank = .ok .blank)
    (hcode : Statement.parse text ≠ .ok .blank) (rest : List Text) :
    layOut setting (source ++ (blanks ++ text :: rest)) =
      .error ⟨source.length + blanks.length, .codeAfterEnd⟩ := by
  obtain ⟨progress, hreached, -, hended⟩ := layOut_cases hlayOut
  have hstops := (hreached.blanks hblank).stops (Progress.step_of_ended hcode hended) rest
  rw [List.length_append, List.append_assoc] at hstops
  exact layOut_of_stops hstops

theorem forall_blank_or_first (more : List Text) :
    (∀ text ∈ more, Statement.parse text = .ok .blank) ∨
      ∃ blanks text rest, more = blanks ++ text :: rest ∧
        (∀ blank ∈ blanks, Statement.parse blank = .ok .blank) ∧
        Statement.parse text ≠ .ok .blank := by
  cases hfind : more.find? fun text => decide (Statement.parse text ≠ .ok .blank) with
  | none =>
      refine .inl fun text htext => ?_
      simpa using List.find?_eq_none.mp hfind text htext
  | some text =>
      obtain ⟨hcode, blanks, rest, hsplit, hblanks⟩ := List.find?_eq_some_iff_append.mp hfind
      exact .inr ⟨blanks, text, rest, hsplit, by simpa using hblanks, by simpa using hcode⟩

/-- A source with other lines after it.  A line that is refused is refused whatever follows it.  A
source that passes can be followed by blank lines, which add empty lines to the program; any other
line is refused as code after `END`, where the first such line is. -/
theorem layOut_append (setting : Setting) (source more : List Text) :
    (∀ n fault, layOut setting source = .error ⟨n, fault⟩ → n < source.length →
      assemble setting (source ++ more) = .error ⟨n, fault⟩) ∧
    ∀ draft, layOut setting source = .ok draft →
      ((∃ longer, layOut setting (source ++ more) = .ok longer) ↔
        ∀ text ∈ more, Statement.parse text = .ok .blank) ∧
      ((∀ text ∈ more, Statement.parse text = .ok .blank) →
        layOut setting (source ++ more) =
          .ok ⟨draft.lines ++ List.replicate more.length .empty, draft.symbols⟩) ∧
      ((¬∀ text ∈ more, Statement.parse text = .ok .blank) →
        ∃ blanks text rest, more = blanks ++ text :: rest ∧
          (∀ blank ∈ blanks, Statement.parse blank = .ok .blank) ∧
          Statement.parse text ≠ .ok .blank ∧
          layOut setting (source ++ more) =
            .error ⟨source.length + blanks.length, .codeAfterEnd⟩) := by
  constructor
  · intro n fault herror hn
    have hstops := (stops_of_layOut herror hn).append more
    exact assemble_of_layOut_error (layOut_of_stops hstops)
  · intro draft hlayOut
    rcases forall_blank_or_first more with hblank | ⟨blanks, text, rest, rfl, hblanks, hcode⟩
    · have hpasses := layOut_append_blanks hlayOut hblank
      exact ⟨⟨fun _ => hblank, fun _ => ⟨_, hpasses⟩⟩, fun _ => hpasses, fun hother =>
        absurd hblank hother⟩
    · have hfails := layOut_append_code hlayOut hblanks hcode rest
      have hother : ¬∀ line ∈ blanks ++ text :: rest, Statement.parse line = .ok .blank :=
        fun hall => hcode (hall text (by simp))
      refine ⟨⟨?_, fun hall => absurd hall hother⟩, fun hall => absurd hall hother, fun _ =>
        ⟨blanks, text, rest, rfl, hblanks, hcode, hfails⟩⟩
      rintro ⟨longer, hlonger⟩
      rw [hfails] at hlonger
      cases hlonger

theorem layOut_append_sampleSource :
    assemble sampleSetting (" FCB 1".toList :: sampleSource) = .error ⟨0, .missingOrigin⟩ ∧
      ∃ draft, layOut sampleSetting sampleSource = .ok draft ∧
        layOut sampleSetting (sampleSource ++ [[], "* done".toList]) =
          .ok ⟨draft.lines ++ [.empty, .empty], draft.symbols⟩ := by
  have hearly : layOut sampleSetting [" FCB 1".toList] = .error ⟨0, .missingOrigin⟩ := by
    decide +kernel
  have hblank : ∀ text ∈ [[], "* done".toList], Statement.parse text = .ok .blank := by
    decide +kernel
  obtain ⟨draft, -, hlayOut, -⟩ := assemble_cases assemble_sampleSource
  exact ⟨(layOut_append sampleSetting [" FCB 1".toList] sampleSource).1 0 _ hearly (by decide),
    draft, hlayOut, ((layOut_append _ _ _).2 draft hlayOut).2.1 hblank⟩

end Program

/-! ## More segments -/

namespace Progress

variable {table : Table} {progress : Progress} {statement : Statement} {text : Text}

theorem obey_multipleOrigins
    (hfault : progress.obey { table, multipleOrigins := false } statement ≠
      .error .originRepeated) :
    progress.obey { table, multipleOrigins := true } statement =
      progress.obey { table, multipleOrigins := false } statement := by
  cases statement with
  | origin token =>
      cases htarget : progress.target with
      | none => simp [obey, htarget]
      | some address => exact absurd (by simp [obey, htarget]) hfault
  | blank | label | constant | finish | formBytes | instruction => rfl

/-- A step that does not refuse an `ORG` does the same if more of them are allowed. -/
theorem step_multipleOrigins
    (hfault : progress.step { table, multipleOrigins := false } text ≠ .error .originRepeated) :
    progress.step { table, multipleOrigins := true } text =
      progress.step { table, multipleOrigins := false } text := by
  cases hparse : Statement.parse text with
  | error fault =>
      unfold step
      rw [hparse]
  | ok statement =>
      cases hended : progress.ended with
      | false =>
          rw [step_of_parse hparse hended] at hfault
          rw [step_of_parse hparse hended, step_of_parse hparse hended,
            obey_multipleOrigins hfault]
      | true =>
          by_cases hblank : statement = .blank
          · subst hblank
            rw [step_of_blank hparse, step_of_blank hparse]
          · have hcode : Statement.parse text ≠ .ok .blank := by simpa [hparse] using hblank
            rw [step_of_ended hcode hended, step_of_ended hcode hended]

theorem run_multipleOrigins {index : Nat}
    (hfault : ∀ n, progress.run { table, multipleOrigins := false } index source ≠
      .error ⟨n, .originRepeated⟩) :
    progress.run { table, multipleOrigins := true } index source =
      progress.run { table, multipleOrigins := false } index source := by
  induction source generalizing progress index with
  | nil => rfl
  | cons text rest ih =>
      have hfirst : progress.step { table, multipleOrigins := false } text ≠
          .error .originRepeated := by
        intro herror
        exact hfault index (by rw [run, herror])
      rw [run, run, step_multipleOrigins hfirst]
      cases hstep : progress.step { table, multipleOrigins := false } text with
      | error fault => rfl
      | ok result =>
          obtain ⟨line, next⟩ := result
          have hrest : ∀ n, next.run { table, multipleOrigins := false } (index + 1) rest ≠
              .error ⟨n, .originRepeated⟩ := by
            intro n herror
            exact hfault n (by rw [run, hstep]; exact Outcome.map_eq_error.mpr herror)
          simp only [ih hrest]

theorem Reached.multipleOrigins {lines : List Line}
    (hreached : Reached { table, multipleOrigins := false } source lines progress) :
    Reached { table, multipleOrigins := true } source lines progress := by
  have hrun : ({} : Progress).run { table, multipleOrigins := false } 0 source =
      .ok (lines, progress) := by
    simpa [Progress.run, Except.map] using hreached.run_eq []
  refine reached_of_run ((run_multipleOrigins ?_).trans hrun)
  rw [hrun]
  simp

end Progress

/-- The second pass has no fault of order. -/
theorem Line.plain_link (symbols : Symbols) (line : Line) : Plain (line.link symbols) := by
  refine (Outcome.FailsOnly.mapM fun entry _ => Outcome.FailsOnly.map ?_).map
  intro fault herror
  rcases labelNumber_eq_error.mp herror with ⟨-, rfl⟩ | ⟨_, -, ⟨-, -, rfl⟩ | ⟨-, -, rfl⟩⟩ <;> rfl

namespace Program

/-- To allow more than one `ORG` changes nothing about a source that is not refused for having a
second one: it assembles to the same program, or has the same fault.  Where it is refused for that,
the lines before the second `ORG` are taken under either setting. -/
theorem assemble_multipleOrigins (table : Table) (source : List Text) :
    ((∀ n, assemble { table, multipleOrigins := false } source ≠ .error ⟨n, .originRepeated⟩) →
      assemble { table, multipleOrigins := true } source =
        assemble { table, multipleOrigins := false } source) ∧
    ∀ n, assemble { table, multipleOrigins := false } source = .error ⟨n, .originRepeated⟩ →
      Takes { table, multipleOrigins := true } source n := by
  constructor
  · intro hfault
    have hrun : ∀ n, ({} : Progress).run { table, multipleOrigins := false } 0 source ≠
        .error ⟨n, .originRepeated⟩ := by
      intro n herror
      exact hfault n (assemble_of_layOut_error (by rw [layOut, herror]))
    simp only [assemble, layOut, Progress.run_multipleOrigins hrun]
  · intro n hfault
    unfold assemble at hfault
    cases hlayOut : layOut { table, multipleOrigins := false } source with
    | error diagnostic =>
        rw [hlayOut] at hfault
        cases hfault
        rcases layOut_eq_error.mp hlayOut with hstops | ⟨-, hother, -⟩
        · have hn := hstops.lt_length
          obtain ⟨text, lines, progress, -, hreached, -⟩ := hstops
          exact (takes_iff (Nat.le_of_lt hn)).mpr ⟨lines, progress, hreached.multipleOrigins⟩
        · cases hother
    | ok draft =>
        rw [hlayOut] at hfault
        obtain ⟨⟨line, -, herror⟩, -⟩ := link_eq_error.mp hfault
        exact absurd herror ((Line.plain_link draft.symbols line).ne_error rfl)

/-- With its second `ORG` the sample is refused there, and without it the settings agree. -/
theorem assemble_multipleOrigins_sampleSource :
    assemble { table := sampleSetting.table, multipleOrigins := true } (sampleSource.eraseIdx 7) =
        assemble { table := sampleSetting.table, multipleOrigins := false }
          (sampleSource.eraseIdx 7) ∧
      assemble { table := sampleSetting.table, multipleOrigins := false } sampleSource =
        .error ⟨7, .originRepeated⟩ ∧
      Takes { table := sampleSetting.table, multipleOrigins := true } sampleSource 7 := by
  have hpasses : (assemble { table := sampleSetting.table, multipleOrigins := false }
      (sampleSource.eraseIdx 7)).isOk = true := by decide +kernel
  have hrefused : assemble { table := sampleSetting.table, multipleOrigins := false } sampleSource =
      .error ⟨7, .originRepeated⟩ := by decide +kernel
  refine ⟨(assemble_multipleOrigins _ _).1 fun n herror => ?_, hrefused,
    (assemble_multipleOrigins _ _).2 7 hrefused⟩
  rw [herror] at hpasses
  cases hpasses

end Program

end TwoPass
