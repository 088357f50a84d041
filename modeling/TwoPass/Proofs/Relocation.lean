import TwoPass.Proofs.Addresses

/-!
# Moving a program

A source with a single `ORG` can be placed at another address.  Nothing but the addresses changes,
and the operands that stand for them: a branch keeps its distance, an absolute jump moves with its
label.

The first pass never looks at the counter except to hand it on, so the two runs differ by a constant
throughout (`Progress.shift`).  The counter is a word of 32 bits, and since both runs wrap around in
the same way, `Reached.shift` needs no condition.

The second pass computes with integers, and there it matters that the shift of a word is the shift
of its number (`Shifts`).  A single `ORG` and a source that does not run past the last word give
this for all addresses and labels (`shifts_of_located`).
-/

namespace TwoPass

variable {setting : Setting} {source : List Text} {lines : List Line} {line : Line}
  {offset origin : UInt32} {distance : Int}

/-! ## Shifting what the first pass knows -/

namespace Symbols

variable {symbols : Symbols} {name : Text}

/-- All labels moved by an offset. -/
def shift (offset : UInt32) (symbols : Symbols) : Symbols :=
  { symbols with labels := symbols.labels.map fun label => (label.1, label.2 + offset) }

theorem label?_shift (symbols : Symbols) (name : Text) :
    (symbols.shift offset).label? name = (symbols.label? name).map (· + offset) := by
  unfold label? shift
  induction symbols.labels with
  | nil => rfl
  | cons label rest ih =>
      rw [List.map_cons, List.lookup_cons, ih]
      by_cases hname : name = label.1
      · rw [hname, List.lookup_cons]
        simp
      · have hother : (name == label.1) = false := beq_false_of_ne hname
        rw [hother, List.lookup_cons, hother]

/-- Encoding an instruction asks for constants only. -/
theorem encode_shift (table : Table) (symbols : Symbols) (mnemonic : Text) (tokens : List Text) :
    Instruction.encode table (symbols.shift offset) mnemonic tokens =
      Instruction.encode table symbols mnemonic tokens :=
  rfl

end Symbols

/-- A line moved by an offset. -/
def Line.shift (offset : UInt32) (line : Line) : Line :=
  { line with address := line.address.map (· + offset) }

namespace Progress

variable {progress next : Progress} {statement : Statement}

/-- What the first pass knows, with the counter and all labels moved by an offset. -/
def shift (offset : UInt32) (progress : Progress) : Progress :=
  { progress with
    symbols := progress.symbols.shift offset
    target := progress.target.map (· + offset) }

/-- One step: every statement but `ORG` does the same at another address. -/
theorem Obeyed.shift (hobeyed : Obeyed setting progress statement line next)
    (hplain : ∀ token, statement ≠ .origin token) :
    Obeyed setting (progress.shift offset) statement (line.shift offset) (next.shift offset) := by
  have htargets : ∀ address, progress.target = some address →
      (progress.shift offset).target = some (address + offset) := by
    intro address htarget
    show progress.target.map (· + offset) = _
    rw [htarget, Option.map_some]
  have hmoves : ∀ (address : UInt32) (size : Nat),
      address + size.toUInt32 + offset = address + offset + size.toUInt32 := by
    intro address size
    rw [UInt32.add_assoc, UInt32.add_comm size.toUInt32 offset, ← UInt32.add_assoc]
  cases hobeyed with
  | blank => exact .blank
  | @label name address htarget hfresh =>
      have hfresh' : (progress.symbols.shift offset).label? name = none := by
        rw [Symbols.label?_shift, hfresh, Option.map_none]
      have hlabel : Obeyed setting (progress.shift offset) (.label name) .empty _ :=
        .label (htargets address htarget) hfresh'
      have hlabels : (progress.symbols.labels ++ [(name, address)]).map
          (fun label => (label.1, label.2 + offset)) =
            (progress.shift offset).symbols.labels ++ [(name, address + offset)] :=
        List.map_append
      unfold Progress.shift Symbols.shift
      rw [hlabels]
      exact hlabel
  | constant hvalue hfresh => exact .constant hvalue hfresh
  | @origin token => exact absurd rfl (hplain token)
  | finish => exact .finish
  | @formBytes tokens address bytes htarget hbytes =>
      have hdata : Obeyed setting (progress.shift offset) (.formBytes tokens) _ _ :=
        .formBytes (htargets address htarget) hbytes
      rw [← hmoves] at hdata
      exact hdata
  | @instruction mnemonic operands address instruction htarget hencode =>
      have hplaced : Obeyed setting (progress.shift offset) (.instruction mnemonic operands) _ _ :=
        .instruction (htargets address htarget) ((Symbols.encode_shift ..).trans hencode)
      rw [← hmoves] at hplaced
      exact hplaced

end Progress

/-! ## Another `ORG` -/

/-- The address that an `ORG` line gives, as it is written. -/
def originOf? (text : Text) : Option Text :=
  match Statement.parse text with
  | .ok (.origin token) => some token
  | _ => none

/-- A source in which the given line takes the place of `ORG`. -/
def replaceOrigin (text : Text) (source : List Text) : List Text := source.map replaced
where
  /-- The given line instead of `ORG`, and every other line as it is. -/
  replaced (old : Text) : Text := if (originOf? old).isSome then text else old

theorem originOf?_eq_some {text token : Text} :
    originOf? text = some token ↔ Statement.parse text = .ok (.origin token) := by
  unfold originOf?
  split
  next other hparse => simp [hparse]
  next hother =>
    simp only [reduceCtorEq, false_iff]
    exact hother token

/-- Whole runs: a source whose `ORG` gives another address leads to the shifted state. -/
theorem Progress.Reached.shift {progress : Progress} {text token : Text}
    (hreached : Reached setting source lines progress) (hother : originOf? text = some token)
    (hvalue : Literal.value? token = some (origin + offset)) (hlimit : origin + offset ≤ wordMax)
    (horigins : ∀ old ∈ source, ∀ token word, originOf? old = some token →
      Literal.value? token = some word → word = origin) :
    Reached setting (replaceOrigin text source) (lines.map (Line.shift offset))
      (progress.shift offset) := by
  induction hreached with
  | start => exact .start
  | @step source lines progress next old line _ hstep ih =>
      obtain ⟨statement, hparse, hended, hobeyed⟩ := step_cases hstep
      have hbefore := ih fun old hold => horigins old (List.mem_append_left _ hold)
      unfold replaceOrigin at hbefore ⊢
      rw [List.map_append, List.map_append]
      refine hbefore.step ?_
      by_cases horigin : ∃ token, statement = .origin token
      · obtain ⟨oldToken, rfl⟩ := horigin
        have hold : originOf? old = some oldToken := originOf?_eq_some.mpr hparse
        rw [replaceOrigin.replaced, hold, Option.isSome_some, if_pos rfl]
        cases hobeyed with
        | @origin _ word hallowed holdValue _ =>
            obtain rfl := horigins old (by simp) oldToken word hold holdValue
            have hallowed' : (progress.shift offset).target = none ∨
                setting.multipleOrigins = true := by
              rcases hallowed with hnone | hmany
              · exact .inl (by show progress.target.map _ = none; rw [hnone, Option.map_none])
              · exact .inr hmany
            have hmoved : Obeyed setting (progress.shift offset) (.origin token) .empty _ :=
              .origin hallowed' hvalue hlimit
            exact hmoved.step (originOf?_eq_some.mp hother) (hended.imp (by simp) id)
      · have hnone : originOf? old = none := by
          rw [Option.eq_none_iff_forall_ne_some]
          intro token htoken
          rw [originOf?_eq_some, hparse] at htoken
          exact horigin ⟨token, Except.ok.inj htoken⟩
        rw [replaceOrigin.replaced, hnone, Option.isSome_none, if_neg Bool.false_ne_true]
        exact (hobeyed.shift (not_exists.mp horigin)).step hparse hended

/-! ## Shifting numbers -/

/-- The shift of a word does not wrap around: it moves the number of the word by a distance. -/
def Shifts (offset : UInt32) (distance : Int) (word : UInt32) : Prop :=
  ((word + offset).toNat : Int) = word.toNat + distance

theorem bytesBetween_le (lines : List Line) (m n : Nat) :
    bytesBetween lines m n ≤ (lines.map Line.size).sum := by
  have hsplit : ∀ (sizes : List Nat) k, (sizes.take k).sum + (sizes.drop k).sum = sizes.sum := by
    intro sizes k
    rw [← List.sum_append, List.take_append_drop]
  have htake := hsplit (lines.map Line.size) n
  have hdrop := hsplit ((lines.map Line.size).take n) m
  unfold bytesBetween
  omega

/-- Words that are some bytes after the `ORG` stay as many bytes after the other one. -/
theorem shifts_of_add {target : UInt32} {total bytes : Nat} (htarget : origin + offset = target)
    (hdistance : (target.toNat : Int) = origin.toNat + distance)
    (hshort : max origin.toNat target.toNat + total < UInt32.size) (hbytes : bytes ≤ total) :
    Shifts offset distance (origin.toNat + bytes).toUInt32 := by
  have hword : (origin.toNat + bytes).toUInt32.toNat = origin.toNat + bytes :=
    Program.toNat_toUInt32 (by omega)
  have hmoved : (origin.toNat + bytes).toUInt32 + offset = (target.toNat + bytes).toUInt32 := by
    calc (origin.toNat + bytes).toUInt32 + offset
        = origin + bytes.toUInt32 + offset := by
          rw [Nat.toUInt32, UInt32.ofNat_add, UInt32.ofNat_toNat]
      _ = origin + offset + bytes.toUInt32 := by
          rw [UInt32.add_assoc, UInt32.add_comm bytes.toUInt32 offset, ← UInt32.add_assoc]
      _ = (target.toNat + bytes).toUInt32 := by
          rw [htarget, Nat.toUInt32, UInt32.ofNat_add, UInt32.ofNat_toNat]
  unfold Shifts
  rw [hmoved, Program.toNat_toUInt32 (by omega), hword]
  omega

/-- The counter, wherever it stands, shifts as the only `ORG` does. -/
theorem shifts_of_located {token : Text} {target : UInt32} {n position : Nat}
    (horigin : source.filterMap originOf? = [token]) (hvalue : Literal.value? token = some origin)
    (htarget : origin + offset = target)
    (hdistance : (target.toNat : Int) = origin.toNat + distance)
    (hshort : max origin.toNat target.toNat + (lines.map Line.size).sum < UInt32.size)
    (hlocated : Located source lines n position) : Shifts offset distance position.toUInt32 := by
  obtain ⟨m, other, word, -, hreads, hword, -, rfl⟩ := hlocated
  obtain ⟨text, hget, hparse⟩ := reads_iff.mp hreads
  have hmem : other ∈ source.filterMap originOf? :=
    List.mem_filterMap.mpr ⟨text, List.mem_of_getElem? hget, originOf?_eq_some.mpr hparse⟩
  rw [horigin, List.mem_singleton] at hmem
  subst hmem
  obtain rfl : word = origin := Option.some.inj (hword.symm.trans hvalue)
  exact shifts_of_add htarget hdistance hshort (bytesBetween_le lines _ _)

/-! ## Filling in the labels -/

namespace Line

variable {symbols : Symbols} {name : Text} {number : Int} {address : UInt32}

/-- What a label stands for after the shift: absolute numbers move, distances stay. -/
theorem labelNumber_shift (haddress : line.address = some address)
    (hsize : line.size < UInt32.size) (hmoves : Shifts offset distance address)
    (hlabels : ∀ target, symbols.label? name = some target →
      Shifts offset distance target ∧ (target.toNat : Int) + distance ≤ 0xFFFF)
    (hnumber : line.labelNumber symbols name = .ok number) :
    (line.shift offset).labelNumber (symbols.shift offset) name =
      .ok (if line.mode = some .extended then number + distance else number) := by
  obtain ⟨target, htarget, hcases⟩ := (labelNumber_eq_ok_of_size haddress hsize).mp hnumber
  obtain ⟨hshifts, hlimit⟩ := hlabels target htarget
  have htarget' : (symbols.shift offset).label? name = some (target + offset) := by
    rw [Symbols.label?_shift, htarget, Option.map_some]
  have haddress' : (line.shift offset).address = some (address + offset) := by
    show line.address.map (· + offset) = _
    rw [haddress, Option.map_some]
  unfold Shifts at hmoves hshifts
  apply (labelNumber_eq_ok_of_size haddress' hsize).mpr
  refine ⟨target + offset, htarget', ?_⟩
  rcases hcases with ⟨hmode, -, rfl⟩ | ⟨hmode, hnumber, hrange⟩
  · rw [if_pos hmode]
    refine .inl ⟨hmode, UInt32.le_iff_toNat_le.mpr ?_, hshifts.symm⟩
    show (target + offset).toNat ≤ 0xFFFF
    omega
  · rw [if_neg hmode]
    refine .inr ⟨hmode, ?_, hrange⟩
    show number = ((target + offset).toNat : Int) - ((address + offset).toNat + line.size)
    omega

/-- Whether the operand at a position waits for a label. -/
def waitsAt (line : Line) (position : Nat) : Bool := line.pending.any (·.1 == position)

theorem waitsAt_toLine (instruction : Instruction) (address : UInt32) (position : Nat) :
    (instruction.toLine address).waitsAt position = true ↔
      ∃ name, instruction.operands[position]? = some (.label name) := by
  unfold waitsAt
  rw [List.any_eq_true]
  constructor
  · rintro ⟨⟨i, name⟩, hmem, heq⟩
    obtain ⟨j, hj, hget⟩ := Instruction.mem_pendingFrom.mp hmem
    obtain rfl : position = j := by rw [← eq_of_beq heq, hj, Nat.zero_add]
    exact ⟨name, hget⟩
  · rintro ⟨name, hget⟩
    refine ⟨(position, name), ?_, beq_self_eq_true position⟩
    exact Instruction.mem_pendingFrom.mpr ⟨position, (Nat.zero_add position).symm, hget⟩

/-- What becomes of an operand: the address of a label moves with it, all others stay. -/
def movedOperand (distance : Int) (placed : Line) (position : Nat) (number : Int) : Int :=
  if placed.mode = some .extended ∧ placed.waitsAt position = true then number + distance
  else number

/-- `moved` is `line` at an address some distance away.  `placed` is the line as the first pass has
left it, which tells the operands that have waited for a label. -/
structure Moved (distance : Int) (placed line moved : Line) : Prop where
  opcode_eq : moved.opcode = line.opcode
  mode_eq : moved.mode = line.mode
  size_eq : moved.size = line.size
  pending_eq : moved.pending = line.pending
  address_eq : moved.address.map (fun address => (address.toNat : Int)) =
    line.address.map fun address => (address.toNat : Int) + distance
  operands_eq : moved.operands = line.operands.mapIdx (movedOperand distance placed)

theorem address_shift (hmoves : ∀ address, line.address = some address →
      Shifts offset distance address) :
    (line.shift offset).address.map (fun address => (address.toNat : Int)) =
      line.address.map fun address => (address.toNat : Int) + distance := by
  unfold shift
  cases haddress : line.address with
  | none => rfl
  | some address => exact congrArg some (hmoves address haddress)

theorem moved_of_settled (hsettled : line.pending = [])
    (hmoves : ∀ address, line.address = some address → Shifts offset distance address) :
    Moved distance line line (line.shift offset) where
  opcode_eq := rfl
  mode_eq := rfl
  size_eq := rfl
  pending_eq := rfl
  address_eq := address_shift hmoves
  operands_eq := by
    apply List.ext_getElem?
    intro position
    have hstays : movedOperand distance line position = id := by
      funext number
      simp [movedOperand, waitsAt, hsettled]
    rw [List.getElem?_mapIdx, hstays, Option.map_id_apply]
    rfl

/-- Filling in a shifted instruction. -/
theorem moved_of_link {instruction : Instruction} {after : Line}
    (hsize : instruction.size < UInt32.size) (hmoves : Shifts offset distance address)
    (hlabels : ∀ name target, symbols.label? name = some target →
      Shifts offset distance target ∧ (target.toNat : Int) + distance ≤ 0xFFFF)
    (hlink : (instruction.toLine address).link symbols = .ok after) :
    ∃ moved, ((instruction.toLine address).shift offset).link (symbols.shift offset) = .ok moved ∧
      Moved distance (instruction.toLine address) after moved := by
  have hshift : (instruction.toLine address).shift offset =
      instruction.toLine (address + offset) := rfl
  rw [link_toLine] at hlink
  obtain ⟨numbers, hnumbers, rfl⟩ := Outcome.map_eq_ok.mp hlink
  have hmoved : instruction.operands.mapM
      (Operand.number (symbols.shift offset) (instruction.toLine (address + offset))) =
        .ok (numbers.mapIdx (movedOperand distance (instruction.toLine address))) := by
    apply Outcome.mapM_eq_ok_mapIdx hnumbers
    intro position operand number hget hnumber
    unfold movedOperand
    cases operand with
    | value word =>
        have hvalue : ¬(instruction.toLine address).waitsAt position = true := by
          rw [waitsAt_toLine, hget]
          simp
        rw [if_neg fun hboth => hvalue hboth.2]
        exact hnumber
    | label name =>
        have hwaits : (instruction.toLine address).waitsAt position = true :=
          (waitsAt_toLine ..).mpr ⟨name, hget⟩
        rw [Operand.number] at hnumber ⊢
        rw [← hshift, labelNumber_shift rfl hsize hmoves (hlabels name) hnumber]
        simp [hwaits]
  rw [hshift, link_toLine, hmoved]
  refine ⟨_, rfl, rfl, rfl, rfl, rfl, ?_, rfl⟩
  exact congrArg some hmoves

end Line

/-! ## Whole programs -/

namespace Program

section Shifted

variable {progress : Progress} {token : Text} {target : UInt32} {n : Nat}
  (hreached : Progress.Reached setting source lines progress)
  (horigin : source.filterMap originOf? = [token]) (hvalue : Literal.value? token = some origin)
  (htarget : origin + offset = target) (hdistance : (target.toNat : Int) = origin.toNat + distance)
  (hshort : max origin.toNat target.toNat + (lines.map Line.size).sum < UInt32.size)

include hreached horigin hvalue htarget hdistance hshort

theorem shifts_of_address {address : UInt32} (hget : lines[n]? = some line)
    (haddress : line.address = some address) : Shifts offset distance address := by
  obtain ⟨position, hlocated, rfl⟩ := hreached.located_line hget haddress
  exact shifts_of_located horigin hvalue htarget hdistance hshort hlocated

theorem shifts_of_label {label : Text × UInt32} (hlabel : label ∈ progress.symbols.labels) :
    Shifts offset distance label.2 := by
  obtain ⟨i, hget⟩ := List.getElem?_of_mem hlabel
  obtain ⟨entry, -, -, -, position, hlocated, hposition⟩ :=
    Outcome.getElem?_of_forall₂_right hreached.labels hget
  rw [hposition]
  exact shifts_of_located horigin hvalue htarget hdistance hshort hlocated

/-- Every line of the first pass can be filled in after the shift if it could before. -/
theorem exists_moved {placed after : Line} (hget : lines[n]? = some placed)
    (hlimits : ∀ label ∈ progress.symbols.labels, (label.2.toNat : Int) + distance ≤ 0xFFFF)
    (hlink : placed.link progress.symbols = .ok after) :
    ∃ moved, (placed.shift offset).link (progress.symbols.shift offset) = .ok moved ∧
      Line.Moved distance placed after moved := by
  have hmoves : ∀ address, placed.address = some address → Shifts offset distance address :=
    fun address => shifts_of_address hreached horigin hvalue htarget hdistance hshort hget
  have hsettled : placed.pending = [] →
      ∃ moved, (placed.shift offset).link (progress.symbols.shift offset) = .ok moved ∧
        Line.Moved distance placed after moved := by
    intro hpending
    rw [Line.link_of_settled _ _ hpending] at hlink
    cases hlink
    exact ⟨placed.shift offset, Line.link_of_settled _ _ hpending,
      Line.moved_of_settled hpending hmoves⟩
  obtain ⟨statement, _, _, -, -, hobeyed⟩ := hreached.obeyed_at hget
  cases hobeyed with
  | blank | label | constant | origin | finish | formBytes => exact hsettled rfl
  | @instruction mnemonic operands address instruction =>
      have hsize : instruction.size < UInt32.size := by
        have hbytes := bytesBetween_succ hget (Nat.le_refl n)
        rw [bytesBetween_self, Nat.zero_add] at hbytes
        have htotal := bytesBetween_le lines n (n + 1)
        rw [hbytes] at htotal
        exact Nat.lt_of_le_of_lt (Nat.le_trans htotal (Nat.le_add_left _ _)) hshort
      refine Line.moved_of_link hsize (hmoves address rfl) ?_ hlink
      intro name label hlabel
      obtain ⟨before, later, hsplit, -⟩ := List.lookup_eq_some_iff.mp hlabel
      have hmem : (name, label) ∈ progress.symbols.labels := by rw [hsplit]; simp
      exact ⟨shifts_of_label hreached horigin hvalue htarget hdistance hshort hmem,
        hlimits _ hmem⟩

/-- The second pass over the shifted lines: each is filled in to the line that belongs to it. -/
theorem exists_moved_lines {linked : List Line}
    (hlimits : ∀ label ∈ progress.symbols.labels, (label.2.toNat : Int) + distance ≤ 0xFFFF)
    (hlinked : List.Forall₂ (fun line after => line.link progress.symbols = .ok after)
      lines linked) :
    ∃ moved, List.Forall₂ (fun line after => line.link (progress.symbols.shift offset) = .ok after)
        (lines.map (Line.shift offset)) moved ∧
      ∀ (n : Nat) placed line after, lines[n]? = some placed → linked[n]? = some line →
        moved[n]? = some after → Line.Moved distance placed line after := by
  have hmoves : ∀ (n : Nat) placed line, lines[n]? = some placed → linked[n]? = some line →
      ∃ after, (placed.shift offset).link (progress.symbols.shift offset) = .ok after ∧
        Line.Moved distance placed line after := by
    intro n placed line hplaced hline
    obtain ⟨line', hline', hlink⟩ := Outcome.getElem?_of_forall₂ hlinked hplaced
    cases hline.symm.trans hline'
    exact exists_moved hreached horigin hvalue htarget hdistance hshort hplaced hlimits hlink
  have hall : ∀ shifted ∈ lines.map (Line.shift offset),
      ∃ after, shifted.link (progress.symbols.shift offset) = .ok after := by
    intro shifted hmem
    obtain ⟨placed, hplaced, rfl⟩ := List.mem_map.mp hmem
    obtain ⟨n, hget⟩ := List.getElem?_of_mem hplaced
    obtain ⟨line, hline, -⟩ := Outcome.getElem?_of_forall₂ hlinked hget
    obtain ⟨after, hafter, -⟩ := hmoves n placed line hget hline
    exact ⟨after, hafter⟩
  obtain ⟨moved, hmoved⟩ := Outcome.exists_mapM_eq_ok hall
  have hmovedLinked := Outcome.mapM_eq_ok.mp hmoved
  refine ⟨moved, hmovedLinked, ?_⟩
  intro n placed line after hplaced hline hafter
  obtain ⟨after', hlink, hrelated⟩ := hmoves n placed line hplaced hline
  obtain ⟨shifted, hget, hlink'⟩ := Outcome.getElem?_of_forall₂_right hmovedLinked hafter
  rw [List.getElem?_map, hplaced, Option.map_some, Option.some.injEq] at hget
  subst hget
  cases hlink.symm.trans hlink'
  exact hrelated

end Shifted

theorem eq_origin_of_mem {token : Text} (horigin : source.filterMap originOf? = [token])
    (hvalue : Literal.value? token = some origin) :
    ∀ old ∈ source, ∀ other word, originOf? old = some other →
      Literal.value? other = some word → word = origin := by
  intro old hold other word hother hword
  have hmem : other ∈ source.filterMap originOf? := List.mem_filterMap.mpr ⟨old, hold, hother⟩
  rw [horigin, List.mem_singleton] at hmem
  rw [hmem, hvalue] at hword
  exact (Option.some.inj hword).symm

variable {program : Program} {token other text : Text} {target : UInt32}

/-- Moving a program.  Let a source with a single `ORG` assemble, and let another line give another
address there.  If no label moves past the last address of 16 bits, and the counter runs past the
last word in neither source, then the changed source assembles as well.  All addresses and labels
move by the same distance, and so do the operands that stand for the address of a label; constants
and all else stay as they are. -/
theorem relocated_of_assemble (hassemble : assemble setting source = .ok program)
    (horigin : source.filterMap originOf? = [token]) (hvalue : Literal.value? token = some origin)
    (hother : originOf? text = some other) (hotherValue : Literal.value? other = some target)
    (hlimit : target.toNat ≤ 0xFFFF)
    (hdistance : (target.toNat : Int) = origin.toNat + distance)
    (hlabels : ∀ label ∈ program.symbols.labels, (label.2.toNat : Int) + distance ≤ 0xFFFF)
    (hshort : max origin.toNat target.toNat + (program.lines.map Line.size).sum < UInt32.size) :
    ∃ draft moved, layOut setting source = .ok draft ∧
      assemble setting (replaceOrigin text source) = .ok moved ∧
      moved.symbols.constants = program.symbols.constants ∧
      List.Forall₂ (fun label after => after.1 = label.1 ∧
          (after.2.toNat : Int) = label.2.toNat + distance)
        program.symbols.labels moved.symbols.labels ∧
      moved.lines.length = program.lines.length ∧
      ∀ (n : Nat) placed line after, draft.lines[n]? = some placed → program.lines[n]? = some line →
        moved.lines[n]? = some after → Line.Moved distance placed line after := by
  obtain ⟨lines, progress, hreached, hended, hsymbols, hlinked⟩ := assemble_eq_ok.mp hassemble
  rw [map_size_of_link hlinked] at hshort
  rw [hsymbols] at hlabels ⊢
  have htarget : origin + (target - origin) = target := by
    rw [UInt32.add_comm, UInt32.sub_add_cancel]
  have hshifted := hreached.shift hother (by rw [htarget, hotherValue])
    (by rw [htarget]; exact UInt32.le_iff_toNat_le.mpr hlimit) (eq_origin_of_mem horigin hvalue)
  obtain ⟨moved, hmoved, hrelated⟩ :=
    exists_moved_lines hreached horigin hvalue htarget hdistance hshort hlabels hlinked
  refine ⟨⟨lines, progress.symbols⟩, ⟨moved, progress.symbols.shift (target - origin)⟩,
    layOut_of_reached hreached hended,
    assemble_eq_ok.mpr ⟨_, _, hshifted, hended, rfl, hmoved⟩, rfl, ?_, ?_, hrelated⟩
  · apply List.forall₂_map_right_iff.mpr
    apply List.forall₂_same.mpr
    intro label hlabel
    exact ⟨rfl, shifts_of_label hreached horigin hvalue htarget hdistance hshort hlabel⟩
  · rw [← hmoved.length_eq, List.length_map, hlinked.length_eq]

/-- A source with a single `ORG`, an absolute jump and a branch. -/
def loopSource : List Text :=
  [" ORG $0100".toList, "LOOP".toList, " JMP LOOP".toList, " BRA LOOP".toList, " END".toList]

/-- The setting of the sample, with a single `ORG` only. -/
def singleOriginSetting : Setting := { sampleSetting with multipleOrigins := false }

theorem relocated_of_loopSource :
    loopSource.filterMap originOf? = ["$0100".toList] ∧
    ∃ program draft moved, assemble singleOriginSetting loopSource = .ok program ∧
      layOut singleOriginSetting loopSource = .ok draft ∧
      assemble singleOriginSetting (replaceOrigin " ORG $00F0".toList loopSource) = .ok moved ∧
      ∀ (n : Nat) placed line after, draft.lines[n]? = some placed →
        program.lines[n]? = some line → moved.lines[n]? = some after →
        Line.Moved (-0x10) placed line after := by
  have hassemble : assemble singleOriginSetting loopSource = .ok ⟨[{}, {},
      ⟨some 0x100, some (.short 0x7E), some .extended, [0x100], [], 3⟩,
      ⟨some 0x103, some (.short 0x20), some .relative, [-5], [], 2⟩, {}],
      ⟨[("LOOP".toList, 0x100)], []⟩⟩ := by
    decide +kernel
  have horigin : loopSource.filterMap originOf? = ["$0100".toList] := by decide +kernel
  have hvalue : Literal.value? "$0100".toList = some 0x100 := by decide +kernel
  have hother : originOf? " ORG $00F0".toList = some "$00F0".toList := by decide +kernel
  have hotherValue : Literal.value? "$00F0".toList = some 0xF0 := by decide +kernel
  obtain ⟨draft, moved, hdraft, hmoved, -, -, -, hrelated⟩ :=
    relocated_of_assemble hassemble horigin hvalue hother hotherValue (by decide)
      (show ((0xF0 : UInt32).toNat : Int) = (0x100 : UInt32).toNat + (-0x10) by decide)
      (by decide) (by decide)
  exact ⟨horigin, _, draft, moved, hassemble, hdraft, hmoved, hrelated⟩

end Program

end TwoPass
