import TwoPass.Proofs.ObjectImage
import TwoPass.Proofs.SourceOrder

/-!
# Programs of one segment

With a single `ORG` the lines of code follow each other without a gap: each one starts where the one
before it has ended.  `Consecutive` says this of lines.  It holds in words of 32 bits however long
the program is, since the counter wraps around where the sum of the sizes does
(`consecutive_of_assemble`).

Merging such lines never closes a run before the end.  All bytes are in the growing run
(`Merge.stretch`), there is nothing that it could overlap, and the only line that can be refused is
one that runs past the address space (`Run.single_ofLines`).
-/

namespace TwoPass

variable {setting : Setting} {source : List Text} {program : Program} {lines : List Line}
  {line : Line} {start address : UInt32} {n m : Nat}

/-! ## Lines that follow each other -/

/-- Lines of code without a gap: each one starts where the one before it has ended, and the first
one at the given address. -/
def Consecutive (address : UInt32) : List Line → Prop
  | [] => True
  | line :: rest =>
    (∀ start, line.address = some start → start = address) ∧
      Consecutive (address + line.size.toUInt32) rest

/-- Lines follow each other if each address is the first one plus the bytes before the line. -/
theorem consecutive_of_offsets
    (haddresses : ∀ n line start, lines[n]? = some line → line.address = some start →
      start = address + (bytesBetween lines 0 n).toUInt32) :
    Consecutive address lines := by
  induction lines generalizing address with
  | nil => trivial
  | cons line rest ih =>
      constructor
      · intro start hstart
        have hfirst := haddresses 0 line start rfl hstart
        rw [bytesBetween_self] at hfirst
        simpa using hfirst
      · apply ih
        intro n later start hget hstart
        have hbytes : bytesBetween (line :: rest) 0 (n + 1) =
            line.size + bytesBetween rest 0 n := by
          simp [bytesBetween]
        have hlater := haddresses (n + 1) later start hget hstart
        rw [hbytes, Nat.toUInt32, UInt32.ofNat_add, ← UInt32.add_assoc] at hlater
        exact hlater

/-- Lines without bytes at the front do not count. -/
theorem bytesBetween_of_silent (hle : m ≤ n)
    (hsilent : ∀ j line, j < m → lines[j]? = some line → line.size = 0) :
    bytesBetween lines 0 n = bytesBetween lines m n := by
  have hfront : (((lines.map Line.size).take n).take m).sum = 0 := by
    rw [List.sum_eq_zero_iff_forall_eq_nat, List.take_take, Nat.min_eq_left hle]
    intro size hsize
    obtain ⟨j, hj, rfl⟩ := List.mem_take_iff_getElem.mp hsize
    rw [List.length_map, Nat.lt_min] at hj
    rw [List.getElem_map]
    exact hsilent j _ hj.1 (List.getElem?_eq_getElem hj.2)
  have hsplit := congrArg List.sum (List.take_append_drop m ((lines.map Line.size).take n))
  rw [List.sum_append, hfront, Nat.zero_add] at hsplit
  unfold bytesBetween
  rw [List.drop_zero, hsplit]

/-! ## Merging them -/

/-- A line that takes the bytes that its size says, and that has an address if there are any. -/
def Line.Exact (line : Line) : Prop :=
  (line.address = none ∧ line.size = 0) ∨
    ∃ piece, line.piece? = some piece ∧ line.pending = [] ∧ piece.bytes ≠ [] ∧
      piece.bytes.length = line.size

/-- What becomes of lines that follow each other from an address on: one case for each result. -/
inductive Single (start : UInt32) (lines : List Line) : Except ObjectError (List Run) → Prop
  | noCode (hnone : ∀ line ∈ lines, line.address = none) : Single start lines (.error .noCode)
  | beyond {line : Line} {address : UInt32} (hline : line ∈ lines)
      (haddress : line.address = some address) (hbeyond : 0x10000 < address.toNat + line.size) :
      Single start lines (.error (.addressOverflow address))
  | run {groups : List (List UInt8)} (hcode : ∃ line ∈ lines, line.address.isSome)
      (hwithin : ∀ line ∈ lines, ∀ address, line.address = some address →
        address.toNat + line.size ≤ 0x10000)
      (hbytes : (lines.filter fun line => line.address.isSome).mapM Line.bytes = .ok groups) :
      Single start lines (.ok [⟨start, groups.flatten⟩])

namespace Merge

variable {done bytes : List UInt8} {index : Nat}

/-- A merge that has taken bytes without a gap from an address on. -/
def stretch (start : UInt32) (bytes : List UInt8) : Merge where
  growing := if bytes = [] then none else some ⟨start, bytes⟩

theorem extend_stretch (hbytes : bytes ≠ []) :
    (stretch start done).extend (start + done.length.toUInt32) bytes =
      .ok (stretch start (done ++ bytes)) := by
  by_cases hdone : done = []
  · subst hdone
    simp [stretch, extend, hbytes]
  · simp [stretch, extend, hdone, Run.finish]

theorem close_stretch (start : UInt32) (hbytes : bytes ≠ []) :
    (stretch start bytes).close = .ok [⟨start, bytes⟩] := by
  simp [stretch, close, hbytes, Run.add, Run.insert]

/-- One line at the end of the stretch: it has no code, it runs past the address space, or it makes
the stretch longer. -/
theorem addLine_stretch (hexact : line.Exact)
    (hnext : ∀ address, line.address = some address → address = start + done.length.toUInt32) :
    (line.address = none ∧ line.size = 0 ∧
      (stretch start done).addLine index line = .ok (stretch start done)) ∨
    (∃ address, line.address = some address ∧ 0x10000 < address.toNat + line.size ∧
      (stretch start done).addLine index line = .error (.addressOverflow address)) ∨
    ∃ address bytes, line.address = some address ∧ line.bytes = .ok bytes ∧
      bytes.length = line.size ∧ address.toNat + line.size ≤ 0x10000 ∧
      (stretch start done).addLine index line = .ok (stretch start (done ++ bytes)) := by
  rcases hexact with ⟨haddress, hsize⟩ | ⟨piece, hpiece, hpending, hsome, hlength⟩
  · exact .inl ⟨haddress, hsize, by simp [addLine, haddress]⟩
  · obtain ⟨haddress, hbytes⟩ := Line.piece?_eq_some.mp hpiece
    by_cases hbeyond : 0x10000 < piece.start.toNat + line.size
    · refine .inr (.inl ⟨piece.start, haddress, hbeyond, ?_⟩)
      rw [addLine_of_piece hpiece hpending, hlength, if_pos hbeyond]
    · refine .inr (.inr ⟨piece.start, piece.bytes, haddress, hbytes, hlength,
        Nat.not_lt.mp hbeyond, ?_⟩)
      rw [addLine_of_piece hpiece hpending, hlength, if_neg hbeyond, hnext _ haddress,
        extend_stretch hsome]

/-- Lines that follow each other make the stretch longer, up to a line that runs past the address
space. -/
theorem addLines_stretch (hexact : ∀ line ∈ lines, line.Exact)
    (hconsecutive : Consecutive (start + done.length.toUInt32) lines) :
    (∃ groups, (lines.filter fun line => line.address.isSome).mapM Line.bytes = .ok groups ∧
      (∀ line ∈ lines, ∀ address, line.address = some address →
        address.toNat + line.size ≤ 0x10000) ∧
      (stretch start done).addLines index lines = .ok (stretch start (done ++ groups.flatten))) ∨
    ∃ line ∈ lines, ∃ address, line.address = some address ∧
      0x10000 < address.toNat + line.size ∧
      (stretch start done).addLines index lines = .error (.addressOverflow address) := by
  induction lines generalizing done index with
  | nil => exact .inl ⟨[], rfl, by simp, by simp [addLines]⟩
  | cons line rest ih =>
      obtain ⟨hline, hrest⟩ := List.forall_mem_cons.mp hexact
      obtain ⟨hnext, hlater⟩ := hconsecutive
      rcases addLine_stretch hline hnext with ⟨haddress, hsize, hadd⟩ |
        ⟨address, haddress, hbeyond, hadd⟩ |
        ⟨address, bytes, haddress, hbytes, hlength, hfits, hadd⟩
      · have hsame : start + done.length.toUInt32 + line.size.toUInt32 =
            start + done.length.toUInt32 := by simp [hsize]
        rw [hsame] at hlater
        rw [addLines, hadd]
        rcases ih hrest hlater with ⟨groups, hgroups, hwithin, hend⟩ | ⟨later, hmem, hbeyond⟩
        · refine .inl ⟨groups, ?_, List.forall_mem_cons.mpr ⟨?_, hwithin⟩, hend⟩
          · rwa [List.filter_cons_of_neg (by simp [haddress])]
          · simp [haddress]
        · exact .inr ⟨later, List.mem_cons_of_mem _ hmem, hbeyond⟩
      · exact .inr ⟨line, List.mem_cons_self, address, haddress, hbeyond, by rw [addLines, hadd]⟩
      · have hmoved : start + (done ++ bytes).length.toUInt32 =
            start + done.length.toUInt32 + line.size.toUInt32 := by
          rw [List.length_append, hlength, Nat.toUInt32, UInt32.ofNat_add, ← UInt32.add_assoc]
        rw [← hmoved] at hlater
        rw [addLines, hadd]
        rcases ih hrest hlater with ⟨groups, hgroups, hwithin, hend⟩ | ⟨later, hmem, hbeyond⟩
        · refine .inl ⟨bytes :: groups, ?_, List.forall_mem_cons.mpr ⟨?_, hwithin⟩, ?_⟩
          · rw [List.filter_cons_of_pos (by simp [haddress]), Outcome.mapM_cons_of_ok hbytes,
              hgroups]
            rfl
          · intro other hother
            cases haddress.symm.trans hother
            exact hfits
          · rw [List.flatten_cons, ← List.append_assoc]
            exact hend
        · exact .inr ⟨later, List.mem_cons_of_mem _ hmem, hbeyond⟩

end Merge

/-- Lines of code have bytes. -/
theorem flatten_bytes_ne_nil {groups : List (List UInt8)} (hexact : ∀ line ∈ lines, line.Exact)
    (hcode : ∃ line ∈ lines, line.address.isSome)
    (hbytes : (lines.filter fun line => line.address.isSome).mapM Line.bytes = .ok groups) :
    groups.flatten ≠ [] := by
  obtain ⟨line, hline, hsome⟩ := hcode
  have hfiltered : line ∈ lines.filter fun line => line.address.isSome :=
    List.mem_filter.mpr ⟨hline, hsome⟩
  obtain ⟨i, hget⟩ := List.getElem?_of_mem hfiltered
  obtain ⟨group, hgroup, hbytesOf⟩ :=
    Outcome.getElem?_of_forall₂ (Outcome.mapM_eq_ok.mp hbytes) hget
  rcases hexact line hline with ⟨hnone, -⟩ | ⟨piece, hpiece, -, hne, -⟩
  · simp [hnone] at hsome
  · cases (Line.piece?_eq_some.mp hpiece).2.symm.trans hbytesOf
    intro hnil
    exact hne (List.flatten_eq_nil_iff.mp hnil _ (List.mem_of_getElem? hgroup))

/-- Lines that follow each other are one run. -/
theorem Run.single_ofLines (hexact : ∀ line ∈ lines, line.Exact)
    (hconsecutive : Consecutive start lines) : Single start lines (Run.ofLines lines) := by
  have hstart : ({} : Merge) = Merge.stretch start [] := by simp [Merge.stretch]
  have hoffset : Consecutive (start + ([] : List UInt8).length.toUInt32) lines := by
    simpa using hconsecutive
  unfold Run.ofLines
  rw [hstart]
  rcases Merge.addLines_stretch hexact hoffset with ⟨groups, hbytes, hwithin, hend⟩ |
    ⟨line, hline, address, haddress, hbeyond, hend⟩
  · rw [hend, List.nil_append]
    by_cases hcode : ∃ line ∈ lines, line.address.isSome
    · rw [Except.bind, Merge.close_stretch start (flatten_bytes_ne_nil hexact hcode hbytes)]
      exact .run hcode hwithin hbytes
    · have hnone : ∀ line ∈ lines, line.address = none := by
        intro line hline
        by_contra hother
        exact hcode ⟨line, hline, Option.isSome_iff_ne_none.mpr hother⟩
      have hfilter : (lines.filter fun line => line.address.isSome) = [] := by
        rw [List.filter_eq_nil_iff]
        intro line hline
        simp [hnone line hline]
      rw [hfilter] at hbytes
      cases hbytes
      exact .noCode hnone
  · rw [hend]
    exact .beyond hline haddress hbeyond

/-! ## Whole programs -/

/-- The address that a source with one `ORG` sets. -/
def OnlyOrigin (source : List Text) (origin : UInt32) : Prop :=
  ∃ n token, Reads source n (.origin token) ∧ Literal.value? token = some origin ∧
    ∀ m other, Reads source m (.origin other) → m = n

namespace Program

variable {origin : UInt32}

theorem exact_of_assemble (hbuilt : setting.table.Built)
    (hassemble : assemble setting source = .ok program) : ∀ line ∈ program.lines, line.Exact := by
  intro line hline
  rcases line_of_assemble hbuilt hassemble hline with rfl | ⟨hpending, address, _, _, haddress, -⟩
  · exact .inl ⟨rfl, rfl⟩
  · obtain ⟨bytes, -, hpiece, hsome, hlength⟩ := piece_of_assemble hbuilt hassemble hline haddress
    exact .inr ⟨_, hpiece, hpending, hsome, hlength⟩

/-- Code comes after an `ORG`, and if no other is allowed, after the only one. -/
theorem exists_onlyOrigin (hsingle : setting.multipleOrigins = false)
    (hassemble : assemble setting source = .ok program) (hget : program.lines[n]? = some line)
    (haddress : line.address = some address) : ∃ origin, OnlyOrigin source origin := by
  obtain ⟨draft, -, hlayOut, -⟩ := assemble_cases hassemble
  obtain ⟨position, ⟨m, token, origin, -, hreads, hvalue, -⟩, -⟩ :=
    located_of_assemble hassemble hget haddress
  refine ⟨origin, m, token, hreads, hvalue, ?_⟩
  intro k other hother
  exact (orderly_of_layOut hlayOut).one_origin hsingle k m other token hother hreads

/-- There are no bytes before the only `ORG`. -/
theorem size_eq_zero_of_assemble (hassemble : assemble setting source = .ok program)
    (honly : ∀ m other, Reads source m (.origin other) → n ≤ m) {j : Nat} (hj : j ≤ n)
    (hget : program.lines[j]? = some line) : line.size = 0 := by
  obtain ⟨statement, -, hcode, hempty⟩ := isCode_of_assemble hassemble hget
  cases haddress : line.address with
  | none =>
      rw [hempty (by rw [← hcode, haddress]; decide)]
      rfl
  | some address =>
      obtain ⟨position, ⟨m, token, _, hm, hreads, -⟩, -⟩ :=
        located_of_assemble hassemble hget haddress
      exact absurd (honly m token hreads) (by omega)

/-- The lines of a program with one `ORG` follow each other from its address on. -/
theorem consecutive_of_assemble (hassemble : assemble setting source = .ok program)
    (horigin : OnlyOrigin source origin) : Consecutive origin program.lines := by
  obtain ⟨first, token, hfirst, hvalue, honly⟩ := horigin
  apply consecutive_of_offsets
  intro n line start hget hstart
  obtain ⟨position, ⟨m, token', origin', hm, hreads, hvalue', -, rfl⟩, rfl⟩ :=
    located_of_assemble hassemble hget hstart
  cases honly m token' hreads
  cases hfirst.unique hreads
  cases hvalue.symm.trans hvalue'
  have hsilent : bytesBetween program.lines 0 n = bytesBetween program.lines (first + 1) n := by
    apply bytesBetween_of_silent hm
    intro j line hj hget
    have hafter : ∀ k other, Reads source k (.origin other) → first ≤ k :=
      fun k other hother => Nat.le_of_eq (honly k other hother).symm
    exact size_eq_zero_of_assemble hassemble hafter (Nat.le_of_lt_succ hj) hget
  rw [hsilent, Nat.toUInt32, UInt32.ofNat_add, UInt32.ofNat_toNat]

theorem single_of_assemble (hbuilt : setting.table.Built)
    (hsingle : setting.multipleOrigins = false)
    (hassemble : assemble setting source = .ok program) :
    ∃ start, Single start program.lines (Run.ofLines program.lines) ∧
      ((∃ line ∈ program.lines, line.address.isSome) → OnlyOrigin source start) := by
  have hexact := exact_of_assemble hbuilt hassemble
  by_cases hcode : ∃ line ∈ program.lines, line.address.isSome
  · obtain ⟨line, hline, hsome⟩ := hcode
    obtain ⟨n, hget⟩ := List.getElem?_of_mem hline
    obtain ⟨address, haddress⟩ := Option.isSome_iff_exists.mp hsome
    obtain ⟨start, hstart⟩ := exists_onlyOrigin hsingle hassemble hget haddress
    exact ⟨start, Run.single_ofLines hexact (consecutive_of_assemble hassemble hstart),
      fun _ => hstart⟩
  · -- Without code, the lines follow each other from any address on.
    have hconsecutive : Consecutive 0 program.lines := by
      apply consecutive_of_offsets
      intro n line start hget hstart
      exact absurd ⟨line, List.mem_of_getElem? hget, by rw [hstart]; rfl⟩ hcode
    exact ⟨0, Run.single_ofLines hexact hconsecutive, fun hsome => absurd hsome hcode⟩

/-- The object code of a program of one segment.  No two lines of it overlap: it is missing if there
is no code, it is refused if a line of code ends above the address space, and otherwise it is a
single run, which starts at the address of the `ORG` and holds the bytes of all lines of code in the
order of the source. -/
theorem run_of_singleOrigin (hbuilt : setting.table.Built)
    (hsingle : setting.multipleOrigins = false)
    (hassemble : assemble setting source = .ok program) :
    (∀ other start, Run.ofLines program.lines ≠ .error (.overlap other start)) ∧
    (Run.ofLines program.lines = .error .noCode ↔
      ∀ line ∈ program.lines, line.address = none) ∧
    ((∃ address, Run.ofLines program.lines = .error (.addressOverflow address)) ↔
      ∃ line ∈ program.lines, ∃ address, line.address = some address ∧
        0x10000 < address.toNat + line.size) ∧
    ((∃ line ∈ program.lines, line.address.isSome) →
      (∀ line ∈ program.lines, ∀ address, line.address = some address →
        address.toNat + line.size ≤ 0x10000) →
      ∃ origin groups, OnlyOrigin source origin ∧
        (program.lines.filter fun line => line.address.isSome).mapM Line.bytes = .ok groups ∧
        Run.ofLines program.lines = .ok [⟨origin, groups.flatten⟩]) := by
  obtain ⟨start, hresult, hstart⟩ := single_of_assemble hbuilt hsingle hassemble
  generalize Run.ofLines program.lines = result at hresult ⊢
  -- Of the three conditions one holds, and it excludes the other two.
  cases hresult with
  | noCode hnone =>
      refine ⟨by simp, ⟨fun _ => hnone, fun _ => rfl⟩, ⟨by simp, ?_⟩, ?_⟩
      · rintro ⟨line, hline, address, haddress, -⟩
        simp [hnone line hline] at haddress
      · rintro ⟨line, hline, hsome⟩
        simp [hnone line hline] at hsome
  | @beyond line address hline haddress hbeyond =>
      refine ⟨by simp, ⟨by simp, ?_⟩, ⟨fun _ => ⟨line, hline, address, haddress, hbeyond⟩, ?_⟩, ?_⟩
      · intro hnone
        simp [hnone line hline] at haddress
      · exact fun _ => ⟨address, rfl⟩
      · intro _ hwithin
        exact absurd (hwithin line hline address haddress) (Nat.not_le.mpr hbeyond)
  | @run groups hcode hwithin hbytes =>
      refine ⟨by simp, ⟨by simp, ?_⟩, ⟨by simp, ?_⟩, ?_⟩
      · intro hnone
        obtain ⟨line, hline, hsome⟩ := hcode
        simp [hnone line hline] at hsome
      · rintro ⟨line, hline, address, haddress, hbeyond⟩
        exact absurd (hwithin line hline address haddress) (Nat.not_le.mpr hbeyond)
      · exact fun _ _ => ⟨start, groups, hstart hcode, hbytes, rfl⟩

/-- Without its second `ORG`, the sample is a single run. -/
theorem run_of_singleOrigin_sampleSource :
    ∃ program, assemble { sampleSetting with multipleOrigins := false } (sampleSource.eraseIdx 7) =
        .ok program ∧
      Run.ofLines program.lines =
        .ok [⟨0x100, [0x12, 0x20, 0x0F, 3, 0x7E, 1, 0, 0x20, 0xF7, 1, 2]⟩] ∧
      OnlyOrigin (sampleSource.eraseIdx 7) 0x100 := by
  have hbuilt : ({ sampleSetting with multipleOrigins := false } : Setting).table.Built :=
    built_sampleSetting
  have hruns : ∃ program,
      assemble { sampleSetting with multipleOrigins := false } (sampleSource.eraseIdx 7) =
        .ok program ∧
      Run.ofLines program.lines =
        .ok [⟨0x100, [0x12, 0x20, 0x0F, 3, 0x7E, 1, 0, 0x20, 0xF7, 1, 2]⟩] := by
    -- The data of the second segment follow the last instruction.
    refine ⟨⟨(sampleProgram.lines.eraseIdx 7).set 7
      ⟨some 0x109, some (.short 1), none, [2], [], 2⟩, sampleProgram.symbols⟩, ?_, ?_⟩
    · decide +kernel
    · decide +kernel
  obtain ⟨program, hassemble, hruns⟩ := hruns
  obtain ⟨hcode, hwithin, -⟩ := (exists_runs_iff hbuilt hassemble).mp ⟨_, hruns⟩
  obtain ⟨-, -, -, hrun⟩ := run_of_singleOrigin hbuilt rfl hassemble
  obtain ⟨origin, groups, horigin, -, hsame⟩ := hrun hcode hwithin
  have hstart : (0x100 : UInt32) = origin := by
    simp only [hruns, Except.ok.injEq, List.cons.injEq, Run.mk.injEq] at hsame
    exact hsame.1.1
  exact ⟨program, hassemble, hruns, hstart ▸ horigin⟩

end Program

end TwoPass
