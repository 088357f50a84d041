import Mathlib.Algebra.GroupWithZero.Nat
import TwoPass.Proofs.CodeSize

/-!
# Where code and labels are

The first pass threads a counter through the source.  `Located` is the counter without the loop: its
value at a line is the address of the last `ORG` before that line plus the sizes of the lines in
between.  `Reached.located` shows that this is what the counter holds after any number of steps, and
the label table is described by the same sum at the lines that define labels (`Reached.labels`).

The counter is a word of 32 bits, so the sums are taken as natural numbers and compared with it
modulo `2 ^ 32`; they are equal to it as long as they stay below.
-/

namespace TwoPass

variable {setting : Setting} {source more : List Text} {lines rest : List Line} {line : Line}
  {n m : Nat} {position : Nat} {text : Text}

/-! ## The counter at a line -/

/-- The bytes of the lines from `m` on and before `n`.  Lines without code have none. -/
def bytesBetween (lines : List Line) (m n : Nat) : Nat :=
  (((lines.map Line.size).take n).drop m).sum

/-- At line `n` the counter stands at `position`: the address of the last `ORG` before the line,
moved on by the lines in between. -/
def Located (source : List Text) (lines : List Line) (n position : Nat) : Prop :=
  ∃ m token origin, m < n ∧ Reads source m (.origin token) ∧ Literal.value? token = some origin ∧
    (∀ k, m < k → k < n → ∀ other, ¬Reads source k (.origin other)) ∧
    position = origin.toNat + bytesBetween lines (m + 1) n

theorem bytesBetween_self (lines : List Line) (n : Nat) : bytesBetween lines n n = 0 := by
  simp [bytesBetween]

theorem bytesBetween_succ (hget : lines[n]? = some line) (hle : m ≤ n) :
    bytesBetween lines m (n + 1) = bytesBetween lines m n + line.size := by
  obtain ⟨hn, rfl⟩ := List.getElem?_eq_some_iff.mp hget
  have hlength : m ≤ ((lines.map Line.size).take n).length := by
    rw [List.length_take, List.length_map]
    omega
  unfold bytesBetween
  rw [List.take_add_one, List.getElem?_map, List.getElem?_eq_getElem hn,
    List.drop_append_of_le_length hlength, List.sum_append]
  simp

theorem bytesBetween_append (hn : n ≤ lines.length) :
    bytesBetween (lines ++ rest) m n = bytesBetween lines m n := by
  unfold bytesBetween
  rw [List.map_append, List.take_append_of_le_length (by simpa using hn)]

theorem located_of_origin {token : Text} {origin : UInt32}
    (hreads : Reads source n (.origin token)) (hvalue : Literal.value? token = some origin) :
    Located source lines (n + 1) origin.toNat := by
  refine ⟨n, token, origin, Nat.lt_succ_self n, hreads, hvalue, ?_, ?_⟩
  · intro k hlow hhigh
    omega
  · rw [bytesBetween_self, Nat.add_zero]

theorem Located.next (hlocated : Located source lines n position) (hget : lines[n]? = some line)
    (hplain : ∀ token, ¬Reads source n (.origin token)) :
    Located source lines (n + 1) (position + line.size) := by
  obtain ⟨m, token, origin, hm, hreads, hvalue, hlast, rfl⟩ := hlocated
  refine ⟨m, token, origin, by omega, hreads, hvalue, ?_, ?_⟩
  · intro k hlow hhigh
    rcases Nat.lt_succ_iff_lt_or_eq.mp hhigh with hbefore | rfl
    · exact hlast k hlow hbefore
    · exact hplain
  · rw [bytesBetween_succ hget hm, Nat.add_assoc]

/-- The counter at a line depends on the lines before it only. -/
theorem located_append (hn : n ≤ source.length) (hlength : lines.length = source.length) :
    Located (source ++ more) (lines ++ rest) n position ↔ Located source lines n position := by
  unfold Located
  rw [← hlength] at hn
  simp only [bytesBetween_append hn]
  refine exists_congr fun m => exists_congr fun token => exists_congr fun origin =>
    and_congr_right fun hm => ?_
  rw [reads_append_left (by omega)]
  refine and_congr_right fun _ => and_congr_right fun _ => and_congr_left fun _ => ?_
  refine forall_congr' fun k => forall_congr' fun _ => forall_congr' fun hk => ?_
  rw [forall_congr' fun other => not_congr (reads_append_left (by omega))]

theorem Located.of_take (hlength : lines.length = source.length) (hn : n ≤ source.length)
    (hlocated : Located (source.take n) (lines.take n) n position) :
    Located source lines n position := by
  rw [← List.take_append_drop n source, ← List.take_append_drop n lines]
  rw [located_append (by simp [hn]) (by simp [hlength])]
  exact hlocated

/-- There is one last `ORG` before a line. -/
theorem Located.unique {other : Nat} (hlocated : Located source lines n position)
    (hother : Located source lines n other) : position = other := by
  obtain ⟨m, token, origin, hm, hreads, hvalue, hlast, rfl⟩ := hlocated
  obtain ⟨m', token', origin', hm', hreads', hvalue', hlast', rfl⟩ := hother
  have hsame : m = m' := by
    rcases Nat.lt_trichotomy m m' with hlt | heq | hgt
    · exact absurd hreads' (hlast m' hlt hm' token')
    · exact heq
    · exact absurd hreads (hlast' m hgt hm token)
  subst hsame
  cases hreads.unique hreads'
  rw [hvalue] at hvalue'
  cases hvalue'
  rfl

/-- Lines without an `ORG` and without bytes leave the counter where it is. -/
theorem Located.skip (hlocated : Located source lines n position) {k : Nat} (hle : n ≤ k)
    (hlines : ∀ j, n ≤ j → j < k → ∃ line, lines[j]? = some line ∧ line.size = 0 ∧
      ∀ token, ¬Reads source j (.origin token)) :
    Located source lines k position := by
  induction hle with
  | refl => exact hlocated
  | @step k hle ih =>
      have hbefore : Located source lines k position :=
        ih fun j hlow hhigh => hlines j hlow (by omega)
      obtain ⟨line, hget, hsize, hplain⟩ := hlines k hle (Nat.lt_succ_self k)
      have hnext := hbefore.next hget hplain
      rwa [hsize] at hnext

theorem located_congr {others : List Line} (hsizes : others.map Line.size = lines.map Line.size) :
    Located source others n position ↔ Located source lines n position := by
  unfold Located bytesBetween
  rw [hsizes]

/-! ## The counter of the first pass -/

namespace Progress

variable {progress next : Progress} {statement : Statement} {address : UInt32}

/-- Whatever has been taken so far, the counter holds the sum. -/
theorem Reached.located (hreached : Reached setting source lines progress)
    (htarget : progress.target = some address) :
    ∃ position, Located source lines source.length position ∧ address = position.toUInt32 := by
  induction hreached generalizing address with
  | start => cases htarget
  | @step source lines progress next text line hreached hstep ih =>
      have hlength := hreached.length_eq
      have hget : (lines ++ [line])[source.length]? = some line := by
        rw [← hlength, List.getElem?_concat_length]
      obtain ⟨statement, hparse, -, hobeyed⟩ := step_cases hstep
      have hreads : Reads (source ++ [text]) source.length statement :=
        reads_append_length.mpr hparse
      rw [List.length_append, List.length_singleton]
      -- A statement other than `ORG` moves the counter by the size of its line.
      have hmove : ∀ before, progress.target = some before →
          (∀ token, statement ≠ .origin token) → address = before + line.size.toUInt32 →
          ∃ position, Located (source ++ [text]) (lines ++ [line]) (source.length + 1) position ∧
            address = position.toUInt32 := by
        intro before hbefore hother hadvance
        obtain ⟨position, hlocated, rfl⟩ := ih hbefore
        refine ⟨position + line.size, ?_, ?_⟩
        · have hhere : Located (source ++ [text]) (lines ++ [line]) source.length position :=
            (located_append (Nat.le_refl _) hlength).mpr hlocated
          exact hhere.next hget fun token hreads' => hother token (hreads.unique hreads')
        · rw [hadvance]
          exact (UInt32.ofNat_add position line.size).symm
      cases hobeyed with
      | blank => exact hmove address htarget (by simp) (by simp [Line.empty])
      | label => exact hmove address htarget (by simp) (by simp [Line.empty])
      | constant => exact hmove address htarget (by simp) (by simp [Line.empty])
      | finish => exact hmove address htarget (by simp) (by simp [Line.empty])
      | origin _ hvalue _ =>
          cases htarget
          exact ⟨address.toNat, located_of_origin hreads hvalue, by simp⟩
      | @formBytes tokens before bytes hbefore _ =>
          cases htarget
          exact hmove before hbefore (by simp) rfl
      | @instruction mnemonic operands before instruction hbefore _ =>
          cases htarget
          exact hmove before hbefore (by simp) rfl

/-- A line was assembled where the counter stood. -/
theorem Reached.located_line (hreached : Reached setting source lines progress)
    (hget : lines[n]? = some line) (haddress : line.address = some address) :
    ∃ position, Located source lines n position ∧ address = position.toUInt32 := by
  have hlength := hreached.length_eq
  have hn : n < source.length := by
    rw [← hlength]
    exact (List.getElem?_eq_some_iff.mp hget).1
  obtain ⟨statement, before, after, -, hbefore, hobeyed⟩ := hreached.obeyed_at hget
  obtain ⟨htarget, -⟩ := hobeyed.target_of_address haddress
  obtain ⟨position, hlocated, hposition⟩ := hbefore.located htarget
  rw [List.length_take, Nat.min_eq_left (Nat.le_of_lt hn)] at hlocated
  exact ⟨position, hlocated.of_take hlength (Nat.le_of_lt hn), hposition⟩

end Progress

/-! ## The label table -/

/-- The name that a source line defines as a label. -/
def labelOf? (text : Text) : Option Text :=
  match Statement.parse text with
  | .ok (.label name) => some name
  | _ => none

/-- The lines that define labels, with the names that they define. -/
def labelLines (source : List Text) : List (Nat × Text) :=
  source.zipIdx.filterMap fun entry => (labelOf? entry.1).map (entry.2, ·)

/-- A line that defines a label, and the entry of the label: the counter at the line. -/
def Marks (source : List Text) (lines : List Line) (entry : Nat × Text) (label : Text × UInt32) :
    Prop :=
  label.1 = entry.2 ∧ Reads source entry.1 (.label entry.2) ∧
    ∃ position, Located source lines entry.1 position ∧ label.2 = position.toUInt32

theorem labelLines_concat (source : List Text) (text : Text) :
    labelLines (source ++ [text]) =
      labelLines source ++ ((labelOf? text).map (source.length, ·)).toList := by
  unfold labelLines
  rw [List.zipIdx_append, List.filterMap_append, Nat.zero_add]
  cases hname : labelOf? text <;> simp [hname]

theorem Marks.append {entry : Nat × Text} {label : Text × UInt32}
    (hmarks : Marks source lines entry label) (hlength : lines.length = source.length) :
    Marks (source ++ more) (lines ++ rest) entry label := by
  obtain ⟨hname, hreads, position, hlocated, hposition⟩ := hmarks
  have hlt := hreads.lt_length
  exact ⟨hname, (reads_append_left hlt).mpr hreads, position,
    (located_append (Nat.le_of_lt hlt) hlength).mpr hlocated, hposition⟩

namespace Progress

variable {progress next : Progress} {statement : Statement} {address : UInt32} {name : Text}

/-- Only a label statement changes the label table, to which it adds the counter under a new
name. -/
theorem Obeyed.labels (hobeyed : Obeyed setting progress statement line next) :
    (∃ name address, statement = .label name ∧ progress.target = some address ∧
      progress.symbols.label? name = none ∧
      next.symbols.labels = progress.symbols.labels ++ [(name, address)]) ∨
    ((∀ name, statement ≠ .label name) ∧ next.symbols.labels = progress.symbols.labels) := by
  cases hobeyed with
  | label htarget hfresh => exact .inl ⟨_, _, rfl, htarget, hfresh, rfl⟩
  | blank | constant | origin | finish | formBytes | instruction =>
      exact .inr ⟨fun _ => Statement.noConfusion, rfl⟩

/-- The label table has one entry for each line that defines a label, in the order of the lines. -/
theorem Reached.labels (hreached : Reached setting source lines progress) :
    List.Forall₂ (Marks source lines) (labelLines source) progress.symbols.labels := by
  induction hreached with
  | start => exact .nil
  | @step source lines progress next text line hreached hstep ih =>
      have hlength := hreached.length_eq
      obtain ⟨statement, hparse, -, hobeyed⟩ := step_cases hstep
      have hold : List.Forall₂ (Marks (source ++ [text]) (lines ++ [line])) (labelLines source)
          progress.symbols.labels := ih.imp fun _ _ hmarks => hmarks.append hlength
      rw [labelLines_concat]
      rcases hobeyed.labels with ⟨name, address, rfl, htarget, -, hnext⟩ | ⟨hother, hnext⟩
      · have hname : labelOf? text = some name := by simp [labelOf?, hparse]
        obtain ⟨position, hlocated, hposition⟩ := hreached.located htarget
        rw [hname, hnext]
        refine List.rel_append hold (.cons ⟨rfl, reads_append_length.mpr hparse, position, ?_,
          hposition⟩ .nil)
        exact (located_append (Nat.le_refl _) hlength).mpr hlocated
      · have hnone : labelOf? text = none := by
          unfold labelOf?
          rw [hparse]
          split
          next name hlabel => exact absurd (Except.ok.inj hlabel) (hother name)
          next => rfl
        rw [hnone, hnext]
        simpa using hold

theorem Reached.label?_of_reads (hreached : Reached setting source lines progress)
    (hreads : Reads source n (.label name)) :
    ∃ position, Located source lines n position ∧
      progress.symbols.label? name = some position.toUInt32 := by
  induction hreached with
  | start => exact absurd hreads.lt_length (Nat.not_lt_zero n)
  | @step source lines progress next text line hreached hstep ih =>
      have hlength := hreached.length_eq
      obtain ⟨statement, hparse, -, hobeyed⟩ := step_cases hstep
      have hlt := hreads.lt_length
      rw [List.length_append, List.length_singleton] at hlt
      rcases Nat.lt_succ_iff_lt_or_eq.mp hlt with hbefore | rfl
      · -- Labels that are defined stay defined.
        obtain ⟨position, hlocated, hlabel⟩ := ih ((reads_append_left hbefore).mp hreads)
        refine ⟨position, (located_append (Nat.le_of_lt hbefore) hlength).mpr hlocated, ?_⟩
        rw [Symbols.label?] at hlabel ⊢
        rcases hobeyed.labels with ⟨_, _, -, -, -, hnext⟩ | ⟨-, hnext⟩
        · rw [hnext, List.lookup_append, hlabel, Option.some_or]
        · rw [hnext, hlabel]
      · cases (reads_append_length.mpr hparse).unique hreads
        rcases hobeyed.labels with ⟨_, address, hname, htarget, hfresh, hnext⟩ | ⟨hother, -⟩
        · cases hname
          obtain ⟨position, hlocated, rfl⟩ := hreached.located htarget
          refine ⟨position, (located_append (Nat.le_refl _) hlength).mpr hlocated, ?_⟩
          rw [Symbols.label?] at hfresh ⊢
          rw [hnext, List.lookup_append, hfresh, Option.none_or]
          simp
        · exact absurd rfl (hother name)

/-- A name is in the label table exactly if some line defines it. -/
theorem Reached.label?_eq_none (hreached : Reached setting source lines progress) :
    progress.symbols.label? name = none ↔ ∀ n, ¬Reads source n (.label name) := by
  constructor
  · intro hnone n hreads
    obtain ⟨position, -, hlabel⟩ := hreached.label?_of_reads hreads
    rw [hnone] at hlabel
    cases hlabel
  · intro hnowhere
    rw [Option.eq_none_iff_forall_ne_some]
    intro address hlabel
    rw [Symbols.label?, List.lookup_eq_some_iff] at hlabel
    obtain ⟨before, after, hsplit, -⟩ := hlabel
    have hmem : (name, address) ∈ progress.symbols.labels := by rw [hsplit]; simp
    obtain ⟨i, hget⟩ := List.getElem?_of_mem hmem
    obtain ⟨entry, -, hname, hreads, -⟩ := Outcome.getElem?_of_forall₂_right hreached.labels hget
    rw [← hname] at hreads
    exact hnowhere entry.1 hreads

end Progress

/-! ## Whole programs -/

/-- Whether a statement makes code. -/
def Statement.isCode : Statement → Bool
  | .formBytes _ | .instruction _ _ => true
  | _ => false

theorem Progress.Obeyed.isCode {progress next : Progress} {statement : Statement}
    (hobeyed : Obeyed setting progress statement line next) :
    (line.address.isSome ↔ statement.isCode = true) ∧
      (¬statement.isCode = true → line = .empty) := by
  cases hobeyed with
  | blank | label | constant | origin | finish =>
      exact ⟨by simp [Line.empty, Statement.isCode], fun _ => rfl⟩
  | formBytes | instruction =>
      exact ⟨by simp [Line.data, Instruction.toLine, Statement.isCode],
        fun hother => absurd rfl hother⟩

namespace Program

variable {program : Program} {symbols : Symbols} {linked : List Line}

theorem map_size_of_link
    (hlinked : List.Forall₂ (fun line after => line.link symbols = .ok after) lines linked) :
    linked.map Line.size = lines.map Line.size := by
  induction hlinked with
  | nil => rfl
  | cons hlink _ ih =>
      rw [List.map_cons, List.map_cons, ih, Line.link_frame hlink]

theorem toNat_toUInt32 (hshort : position < UInt32.size) : position.toUInt32.toNat = position :=
  UInt32.toNat_ofNat_of_lt' hshort

/-- Every line of a program keeps the kind of its statement. -/
theorem isCode_of_assemble (hassemble : assemble setting source = .ok program)
    (hget : program.lines[n]? = some line) :
    ∃ statement, Reads source n statement ∧ (line.address.isSome ↔ statement.isCode = true) ∧
      (¬statement.isCode = true → line = .empty) := by
  obtain ⟨draft, progress, -, hreached, -, -, hlinked⟩ := assemble_cases hassemble
  obtain ⟨before, hbefore, hlink⟩ := Outcome.getElem?_of_forall₂_right hlinked hget
  obtain ⟨statement, known, next, hreads, -, hobeyed⟩ := hreached.obeyed_at hbefore
  obtain ⟨haddress, hempty⟩ := hobeyed.isCode
  refine ⟨statement, hreads, ?_, ?_⟩
  · rw [Line.link_frame hlink]
    exact haddress
  · intro hother
    have hsettled : before.link progress.symbols = .ok before :=
      Line.link_of_settled _ _ (by rw [hempty hother]; rfl)
    rw [hlink] at hsettled
    rw [Except.ok.inj hsettled, hempty hother]

theorem located_of_assemble (hassemble : assemble setting source = .ok program)
    (hget : program.lines[n]? = some line) {address : UInt32}
    (haddress : line.address = some address) :
    ∃ position, Located source program.lines n position ∧ address = position.toUInt32 := by
  obtain ⟨draft, progress, -, hreached, -, -, hlinked⟩ := assemble_cases hassemble
  obtain ⟨before, hbefore, hlink⟩ := Outcome.getElem?_of_forall₂_right hlinked hget
  rw [Line.link_frame hlink] at haddress
  obtain ⟨position, hlocated, hposition⟩ := hreached.located_line hbefore haddress
  exact ⟨position, (located_congr (map_size_of_link hlinked)).mpr hlocated, hposition⟩

theorem labels_of_assemble (hassemble : assemble setting source = .ok program) :
    List.Forall₂ (Marks source program.lines) (labelLines source) program.symbols.labels := by
  obtain ⟨draft, progress, -, hreached, -, hsymbols, hlinked⟩ := assemble_cases hassemble
  rw [hsymbols]
  refine hreached.labels.imp ?_
  rintro entry label ⟨hname, hreads, position, hlocated, hposition⟩
  exact ⟨hname, hreads, position, (located_congr (map_size_of_link hlinked)).mpr hlocated,
    hposition⟩

/-- From a label on, the counter stays where it is up to the next line of code or the next `ORG`. -/
theorem located_skip_of_assemble (hassemble : assemble setting source = .ok program) {name : Text}
    (hreads : Reads source n (.label name)) (hlocated : Located source program.lines n position)
    {k : Nat} (hlater : n < k) (hk : k < program.lines.length)
    (hbetween : ∀ j between, n < j → j < k → program.lines[j]? = some between →
      between.address = none ∧ ∀ token, ¬Reads source j (.origin token)) :
    Located source program.lines k position := by
  refine hlocated.skip (Nat.le_of_lt hlater) ?_
  intro j hlow hhigh
  have hget : program.lines[j]? = some program.lines[j] := List.getElem?_eq_getElem (by omega)
  obtain ⟨statement, hstatement, haddress, hempty⟩ := isCode_of_assemble hassemble hget
  refine ⟨_, hget, ?_⟩
  rcases Nat.eq_or_lt_of_le hlow with rfl | hinside
  · -- The line of the label itself has no bytes.
    cases hreads.unique hstatement
    rw [hempty (by simp [Statement.isCode])]
    exact ⟨rfl, fun token horigin => by cases hreads.unique horigin⟩
  · obtain ⟨hnone, hplain⟩ := hbetween j _ hinside hhigh hget
    rw [hempty (by rw [← haddress, hnone]; decide)]
    exact ⟨rfl, hplain⟩

/-- The layout of an assembled program.  It has one line for each source line; lines of data and
instructions have addresses, and all others are empty.  The address of a line of code, and the
address of a label, is that of the last `ORG` plus the sizes of the lines in between; so a label
stands for the next line of code if there is no `ORG` in between.  The second pass changes nothing
but operands. -/
theorem layout_of_assemble (hassemble : assemble setting source = .ok program) :
    program.lines.length = source.length ∧
    (∀ n line, program.lines[n]? = some line → ∃ statement, Reads source n statement ∧
      (line.address.isSome ↔ statement.isCode = true) ∧
      (¬statement.isCode = true → line = .empty)) ∧
    (∀ n line address, program.lines[n]? = some line → line.address = some address →
      ∃ position, Located source program.lines n position ∧ address = position.toUInt32 ∧
        (position < UInt32.size → address.toNat = position)) ∧
    List.Forall₂ (fun entry label => label.1 = entry.2 ∧
        ∃ position, Located source program.lines entry.1 position ∧
          label.2 = position.toUInt32 ∧ (position < UInt32.size → label.2.toNat = position))
      (labelLines source) program.symbols.labels ∧
    (∀ n name, Reads source n (.label name) →
      ∃ target, program.symbols.label? name = some target ∧
        ∀ k line address, n < k → program.lines[k]? = some line → line.address = some address →
          (∀ j between, n < j → j < k → program.lines[j]? = some between →
            between.address = none ∧ ∀ token, ¬Reads source j (.origin token)) →
          address = target) ∧
    ∃ draft, layOut setting source = .ok draft ∧ draft.symbols.labels = program.symbols.labels ∧
      List.Forall₂ (fun before after =>
          after = { before with operands := after.operands, pending := after.pending })
        draft.lines program.lines := by
  obtain ⟨draft, progress, hlayOut, hreached, hknown, hsymbols, hlinked⟩ :=
    assemble_cases hassemble
  refine ⟨?_, ?_, ?_, ?_, ?_, draft, hlayOut, ?_, ?_⟩
  · rw [← hlinked.length_eq, hreached.length_eq]
  · intro n line hget
    exact isCode_of_assemble hassemble hget
  · intro n line address hget haddress
    obtain ⟨position, hlocated, rfl⟩ := located_of_assemble hassemble hget haddress
    exact ⟨position, hlocated, rfl, toNat_toUInt32⟩
  · refine (labels_of_assemble hassemble).imp ?_
    rintro entry label ⟨hname, -, position, hlocated, hposition⟩
    refine ⟨hname, position, hlocated, hposition, fun hshort => ?_⟩
    rw [hposition, toNat_toUInt32 hshort]
  · intro n name hreads
    obtain ⟨position, hlocated, hlabel⟩ := hreached.label?_of_reads hreads
    have hfinal : Located source program.lines n position :=
      (located_congr (map_size_of_link hlinked)).mpr hlocated
    refine ⟨position.toUInt32, by rw [hsymbols, hlabel], ?_⟩
    intro k line address hlater hget haddress hbetween
    obtain ⟨position', hlocated', rfl⟩ := located_of_assemble hassemble hget haddress
    have hk : k < program.lines.length := (List.getElem?_eq_some_iff.mp hget).1
    have hskip := located_skip_of_assemble hassemble hreads hfinal hlater hk hbetween
    rw [hskip.unique hlocated']
  · rw [hknown, hsymbols]
  · exact hlinked.imp fun before after hlink => by rw [Line.link_frame hlink]

theorem layout_of_sampleProgram :
    assemble sampleSetting sampleSource = .ok sampleProgram ∧
      ∃ position, Located sampleSource sampleProgram.lines 6 position ∧
        (0x107 : UInt32) = position.toUInt32 ∧
        (position < UInt32.size → (0x107 : UInt32).toNat = position) :=
  ⟨assemble_sampleSource,
    (layout_of_assemble assemble_sampleSource).2.2.1 6 sampleProgram.lines[6] 0x107 rfl rfl⟩

end Program

end TwoPass
