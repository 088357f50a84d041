import TwoPass.Code.Link
import TwoPass.Proofs.Reachable

/-!
# What the second pass does

`link_toLine` is the law of a single line: placing an instruction at an address and filling in its
labels gives the numbers of its operands in their order, however values and labels are mixed.  For
whole programs, `Program.link_eq_ok` and `Program.link_eq_error` describe the pass without its loop:
it succeeds if every line can be filled in, and stops at the first line that cannot.
-/

namespace TwoPass

variable {symbols : Symbols}

/-! ## A single line -/

/-- The number that an operand becomes in a line: a label is looked up, a value stands for
itself. -/
def Operand.number (symbols : Symbols) (line : Line) : Operand → Except Fault Int
  | .value word => .ok ((word.toNat : Int).bmod UInt32.size)
  | .label name => line.labelNumber symbols name

/-- A word that fits two bytes is the number itself. -/
theorem Operand.number_value {line : Line} {word : UInt32} (hlimit : word ≤ wordMax) :
    (Operand.value word).number symbols line = .ok (word.toNat : Int) := by
  have hsmall : word.toNat ≤ 0xFFFF := UInt32.le_iff_toNat_le.mp hlimit
  rw [Operand.number, Int.bmod_eq_of_le] <;> simp only [UInt32.size] <;> omega

/-- The labels among some operands wait under their positions. -/
theorem Instruction.mem_pendingFrom {operands : List Operand} {first position : Nat} {name : Text} :
    (position, name) ∈ pendingFrom first operands ↔
      ∃ i, position = first + i ∧ operands[i]? = some (.label name) := by
  induction operands generalizing first with
  | nil => simp [pendingFrom]
  | cons operand rest ih =>
      -- The first operand has the first position, and all others come after it.
      have hsplit : (∃ i, position = first + i ∧ (operand :: rest)[i]? = some (.label name)) ↔
          (position = first ∧ operand = .label name) ∨
            (position, name) ∈ pendingFrom (first + 1) rest := by
        rw [ih]
        constructor
        · rintro ⟨i, hi, hget⟩
          cases i with
          | zero => exact .inl ⟨hi, by simpa using hget⟩
          | succ i => exact .inr ⟨i, by omega, hget⟩
        · rintro (⟨rfl, rfl⟩ | ⟨i, hi, hget⟩)
          · exact ⟨0, rfl, rfl⟩
          · exact ⟨i + 1, by omega, hget⟩
      rw [hsplit]
      cases operand with
      | value word => simp [pendingFrom]
      | label other => simp [pendingFrom, eq_comm]

namespace Line

theorem insertIdx_length_append (done rest : List Int) (number : Int) :
    (done ++ rest).insertIdx (min done.length (done ++ rest).length) number =
      done ++ number :: rest := by
  rw [Nat.min_eq_left (by simp)]
  induction done with
  | nil => rfl
  | cons first done ih => simpa using ih

/-- Inserting the numbers of the pending labels at their positions restores the order of the
operands.  The induction carries along the operands that are already in place. -/
theorem insertAll_pendingFrom (symbols : Symbols) (line : Line) (operands : List Operand)
    (done : List Int) :
    ((Instruction.pendingFrom done.length operands).mapM fun entry =>
        (line.labelNumber symbols entry.2).map (entry.1, ·)).map
          (insertAll (done ++ operands.filterMap Operand.number?)) =
      (operands.mapM (Operand.number symbols line)).map (done ++ ·) := by
  induction operands generalizing done with
  | nil => rfl
  | cons operand operands ih =>
      -- An operand that has its number joins those in place.
      have hplaced : ∀ number,
          ((Instruction.pendingFrom (done.length + 1) operands).mapM fun entry =>
            (line.labelNumber symbols entry.2).map (entry.1, ·)).map
            (insertAll (done ++ number :: operands.filterMap Operand.number?)) =
          (operands.mapM (Operand.number symbols line)).map (done ++ number :: ·) := by
        intro number
        simpa using ih (done ++ [number])
      cases operand with
      | value word =>
          have hnumber : (Operand.value word).number symbols line =
              .ok ((word.toNat : Int).bmod UInt32.size) := rfl
          rw [Outcome.mapM_cons_of_ok hnumber, Outcome.map_map, Instruction.pendingFrom,
            ← hplaced]
          rfl
      | label name =>
          cases hnumber : (Operand.label name).number symbols line with
          | error fault =>
              rw [Outcome.mapM_cons_of_error hnumber]
              rw [Operand.number] at hnumber
              rw [Instruction.pendingFrom, Outcome.mapM_cons_of_error (by rw [hnumber]; rfl)]
              rfl
          | ok number =>
              rw [Outcome.mapM_cons_of_ok hnumber, Outcome.map_map, ← hplaced]
              rw [Operand.number] at hnumber
              rw [Instruction.pendingFrom, Outcome.mapM_cons_of_ok (by rw [hnumber]; rfl),
                Outcome.map_map]
              congr 1
              funext entries
              rw [insertAll, List.foldl_cons]
              simp only [List.filterMap_cons, Operand.number?, insertIdx_length_append]
              rfl

/-- Filling in the labels of a placed instruction replaces every operand by its number. -/
theorem link_toLine (symbols : Symbols) (instruction : Instruction) (address : UInt32) :
    (instruction.toLine address).link symbols =
      (instruction.operands.mapM (Operand.number symbols (instruction.toLine address))).map
        fun numbers => { instruction.toLine address with operands := numbers, pending := [] } := by
  have hnumbers := insertAll_pendingFrom symbols (instruction.toLine address)
    instruction.operands []
  simp only [List.nil_append, List.length_nil] at hnumbers
  calc (instruction.toLine address).link symbols
      = (((Instruction.pendingFrom 0 instruction.operands).mapM fun entry =>
          ((instruction.toLine address).labelNumber symbols entry.2).map (entry.1, ·)).map
            (insertAll (instruction.operands.filterMap Operand.number?))).map
              fun numbers => { instruction.toLine address with
                operands := numbers, pending := [] } := by
          rw [Outcome.map_map]
          rfl
    _ = _ := by rw [hnumbers, Outcome.map_map]

/-- Only the operands of a line are touched, and nothing is pending afterwards. -/
theorem link_frame {line after : Line} (hlink : line.link symbols = .ok after) :
    after = { line with operands := after.operands, pending := [] } := by
  obtain ⟨numbers, -, rfl⟩ := Outcome.map_eq_ok.mp hlink
  rfl

theorem any_isAbsolute_iff {mode : Option Mode} :
    mode.any Mode.isAbsolute = true ↔ mode = some .extended := by
  cases mode with
  | none => simp
  | some mode => cases mode <;> simp [Mode.isAbsolute]

/-! ### Distances -/

section Distances

variable {line : Line} {target address : UInt32} {name : Text} {number : Int} {fault : Fault}

/-- A branch reaches what is at most 255 bytes away.  The least distance counts as well, because its
magnitude is taken for a negative number. -/
def Reaches (line : Line) (target : UInt32) : Prop :=
  (line.distance target).natAbs ≤ 0xFF ∨ line.distance target = Int64.minValue.toInt

instance (line : Line) (target : UInt32) : Decidable (line.Reaches target) :=
  inferInstanceAs (Decidable (_ ∨ _))

theorem magnitude_distance_le_iff :
    magnitude (line.distance target) ≤ 0xFF ↔ line.Reaches target := by
  have hlow : -2 ^ 63 ≤ line.distance target := Int.le_bmod (by decide)
  have hhigh : line.distance target < 2 ^ 63 := Int.bmod_lt (by decide)
  have hleast : Int64.minValue.toInt = -2 ^ 63 := rfl
  rw [Reaches, hleast]
  by_cases heq : line.distance target = -2 ^ 63
  · rw [heq]
    decide
  · have hmagnitude : magnitude (line.distance target) = (line.distance target).natAbs := by
      apply Int.bmod_eq_of_le <;> simp only [UInt64.size] <;> omega
    omega

/-- Up to multiples of `2 ^ 32`, a distance is what the addresses say. -/
theorem distance_bmod (line : Line) (target : UInt32) :
    (line.distance target).bmod UInt32.size =
      ((target.toNat : Int) - ((line.address.getD 0).toNat + line.size)).bmod UInt32.size := by
  have hdvd : UInt32.size ∣ UInt64.size := by decide
  calc (line.distance target).bmod UInt32.size
      = (((target.toNat : Int) - ((line.address.getD 0).toNat + line.size)).bmod
          UInt64.size).bmod UInt32.size := by
          unfold distance nextAddress
          rw [Int.sub_bmod_bmod]
    _ = _ := Int.bmod_bmod_of_dvd hdvd

theorem bmod_of_near {distance : Int} (hnear : distance.natAbs ≤ 0xFF) :
    distance.bmod UInt32.size = distance := by
  apply Int.bmod_eq_of_le <;> simp only [UInt32.size] <;> omega

/-- Whatever the distance, the number that is filled in for it is small. -/
theorem Reaches.natAbs_le (hreaches : line.Reaches target) :
    ((line.distance target).bmod UInt32.size).natAbs ≤ 0xFF := by
  rcases hreaches with hnear | hleast
  · rwa [bmod_of_near hnear]
  · rw [hleast]
    decide

/-- Lines of any real size end where their address and size say, and distances from there do not
wrap. -/
theorem distance_eq (haddress : line.address = some address) (hsize : line.size < UInt32.size) :
    line.distance target = target.toNat - (address.toNat + line.size) := by
  have hword := UInt32.toNat_lt_size address
  have htarget := UInt32.toNat_lt_size target
  simp only [UInt32.size] at hword htarget hsize
  have hnext : line.nextAddress = address.toNat + line.size := by
    unfold nextAddress
    simp only [haddress, Option.getD_some]
    apply Int.bmod_eq_of_le <;> simp only [UInt64.size] <;> omega
  rw [distance, hnext]
  apply Int.bmod_eq_of_le <;> simp only [UInt64.size] <;> omega

theorem reaches_iff (haddress : line.address = some address) (hsize : line.size < UInt32.size) :
    line.Reaches target ↔ ((target.toNat : Int) - (address.toNat + line.size)).natAbs ≤ 0xFF := by
  have hword := UInt32.toNat_lt_size address
  simp only [UInt32.size] at hword hsize
  have hleast : Int64.minValue.toInt = -2 ^ 63 := rfl
  rw [Reaches, distance_eq haddress hsize, hleast]
  omega

/-- What a label stands for: its address in extended mode, and else its distance from the end of the
line, either within its limit. -/
theorem labelNumber_eq_ok : line.labelNumber symbols name = .ok number ↔
    ∃ target, symbols.label? name = some target ∧
      ((line.mode = some .extended ∧ target ≤ wordMax ∧ number = target.toNat) ∨
        (line.mode ≠ some .extended ∧ line.Reaches target ∧
          number = (line.distance target).bmod UInt32.size)) := by
  unfold labelNumber
  cases htarget : symbols.label? name with
  | none => simp
  | some target =>
      simp only [any_isAbsolute_iff, magnitude_distance_le_iff, Option.some.injEq, exists_eq_left']
      by_cases hmode : line.mode = some .extended
      · by_cases hlimit : target ≤ wordMax <;> simp [hmode, hlimit, eq_comm]
      · by_cases hreaches : line.Reaches target <;> simp [hmode, hreaches, eq_comm]

/-- The same for a line of real size, where the distance is the number itself. -/
theorem labelNumber_eq_ok_of_size (haddress : line.address = some address)
    (hsize : line.size < UInt32.size) : line.labelNumber symbols name = .ok number ↔
    ∃ target, symbols.label? name = some target ∧
      ((line.mode = some .extended ∧ target ≤ wordMax ∧ number = target.toNat) ∨
        (line.mode ≠ some .extended ∧ number = target.toNat - (address.toNat + line.size) ∧
          number.natAbs ≤ 0xFF)) := by
  rw [labelNumber_eq_ok]
  refine exists_congr fun target => and_congr_right fun _ => or_congr_right ?_
  refine and_congr_right fun _ => ?_
  rw [reaches_iff haddress hsize, distance_eq haddress hsize]
  constructor
  · rintro ⟨hnear, rfl⟩
    rw [bmod_of_near hnear]
    exact ⟨rfl, hnear⟩
  · rintro ⟨rfl, hnear⟩
    exact ⟨hnear, (bmod_of_near hnear).symm⟩

/-- Why a label cannot be filled in. -/
theorem labelNumber_eq_error : line.labelNumber symbols name = .error fault ↔
    (symbols.label? name = none ∧ fault = .unknownLabel) ∨
      ∃ target, symbols.label? name = some target ∧
        ((line.mode = some .extended ∧ wordMax < target ∧ fault = .jumpTooFar) ∨
          (line.mode ≠ some .extended ∧ ¬ line.Reaches target ∧ fault = .branchTooFar)) := by
  unfold labelNumber
  cases htarget : symbols.label? name with
  | none => simp [eq_comm]
  | some target =>
      simp only [any_isAbsolute_iff, magnitude_distance_le_iff, Option.some.injEq, exists_eq_left',
        reduceCtorEq, false_and, false_or]
      by_cases hmode : line.mode = some .extended
      · by_cases hlimit : target ≤ wordMax
        · simp [hmode, hlimit, UInt32.not_lt.mpr hlimit]
        · simp [hmode, hlimit, UInt32.not_le.mp hlimit, eq_comm]
      · by_cases hreaches : line.Reaches target <;> simp [hmode, hreaches, eq_comm]

end Distances

/-! ## All lines -/

theorem linkFrom_eq_none {index : Nat} {lines linked : List Line} :
    linkFrom symbols index lines = (linked, none) ↔
      List.Forall₂ (fun line after => line.link symbols = .ok after) lines linked := by
  induction lines generalizing index linked with
  | nil => simp [linkFrom, eq_comm]
  | cons line lines ih =>
      rw [linkFrom, List.forall₂_cons_left_iff]
      cases hlink : line.link symbols with
      | error fault => simp
      | ok after =>
          simp only [Prod.mk.injEq, Except.ok.injEq]
          constructor
          · rintro ⟨rfl, hnone⟩
            exact ⟨after, _, rfl, ih.mp (Prod.ext rfl hnone), rfl⟩
          · rintro ⟨_, rest, rfl, hrest, rfl⟩
            rw [ih.mpr hrest]
            exact ⟨rfl, rfl⟩

/-- The pass stops at the first line that cannot be filled in. -/
theorem linkFrom_eq_some {index number : Nat} {lines : List Line} {fault : Fault} :
    (linkFrom symbols index lines).2 = some ⟨number, fault⟩ ↔
      ∃ n, number = index + n ∧ Outcome.FirstFault (link symbols) lines n fault := by
  induction lines generalizing index with
  | nil => simp [linkFrom, Outcome.not_firstFault_nil]
  | cons line lines ih =>
      rw [linkFrom]
      cases hlink : line.link symbols with
      | error other => simp [Outcome.firstFault_cons_of_error hlink, eq_comm]
      | ok after =>
          simp only [ih, Outcome.firstFault_cons_of_ok hlink]
          constructor
          · rintro ⟨n, rfl, hfirst⟩
            exact ⟨n + 1, by omega, n, rfl, hfirst⟩
          · rintro ⟨_, rfl, n, rfl, hfirst⟩
            exact ⟨n, by omega, hfirst⟩

/-! ## The order of operands -/

/-- Operands survive the second pass in their order.  An instruction that has been placed at line
`n`, whatever values and labels it has and in whatever positions, becomes a line that waits for
nothing and has one number for each operand: a value is the word read as signed, a label its address
in extended mode and its distance from the end of the line in any other.  The distance is cut to 32
bits, which only shows if the size is none that an instruction can have.  All else is as the
instruction says. -/
theorem operands_of_linkAll {lines linked : List Line} {n : Nat} {instruction : Instruction}
    {address : UInt32} (hline : lines[n]? = some (instruction.toLine address))
    (hlinked : linkAll symbols lines = (linked, none)) :
    ∃ line, linked[n]? = some line ∧ line.pending = [] ∧
      line.operands.length = instruction.operands.length ∧
      (∀ (i : Nat) (word : UInt32), instruction.operands[i]? = some (.value word) →
        line.operands[i]? = some word.toInt32.toInt) ∧
      (∀ (i : Nat) (name : Text), instruction.operands[i]? = some (.label name) →
        ∃ target number, symbols.label? name = some target ∧ line.operands[i]? = some number ∧
          (instruction.toLine address).labelNumber symbols name = .ok number ∧
          ((instruction.mode = .extended ∧ number = target.toNat) ∨
            (instruction.mode ≠ .extended ∧
              number =
                ((target.toNat : Int) - (address.toNat + instruction.size)).bmod UInt32.size ∧
              (instruction.size < UInt32.size →
                number = target.toNat - (address.toNat + instruction.size))))) ∧
      line.address = some address ∧ line.opcode = some instruction.opcode ∧
      line.mode = some instruction.mode ∧ line.size = instruction.size := by
  obtain ⟨line, hget, hlink⟩ := Outcome.getElem?_of_forall₂ (linkFrom_eq_none.mp hlinked) hline
  rw [link_toLine] at hlink
  obtain ⟨numbers, hnumbers, rfl⟩ := Outcome.map_eq_ok.mp hlink
  have hall := Outcome.mapM_eq_ok.mp hnumbers
  refine ⟨_, hget, rfl, hall.length_eq.symm, ?_, ?_, rfl, rfl, rfl, rfl⟩
  · intro i word hword
    obtain ⟨number, hnumber, hvalue⟩ := Outcome.getElem?_of_forall₂ hall hword
    have hsigned : word.toInt32.toInt = (word.toNat : Int).bmod UInt32.size :=
      BitVec.toInt_eq_toNat_bmod _
    rw [Operand.number] at hvalue
    rw [hsigned, Except.ok.inj hvalue]
    exact hnumber
  · intro i name hname
    obtain ⟨number, hnumber, hlabel⟩ := Outcome.getElem?_of_forall₂ hall hname
    obtain ⟨target, htarget, hcases⟩ := labelNumber_eq_ok.mp hlabel
    refine ⟨target, number, htarget, hnumber, hlabel, ?_⟩
    rcases hcases with ⟨hmode, -, hvalue⟩ | ⟨hmode, hreaches, hvalue⟩
    · exact .inl ⟨Option.some.inj hmode, hvalue⟩
    · refine .inr ⟨fun hextended => hmode (congrArg some hextended), ?_, fun hsize => ?_⟩
      · exact hvalue.trans (distance_bmod _ target)
      · have hnear := (reaches_iff rfl hsize).mp hreaches
        rw [hvalue, distance_eq rfl hsize]
        exact bmod_of_near hnear

/-- Two labels, each before a value.  The last value has its high bit set. -/
def mixedInstruction : Instruction where
  mode := .direct
  opcode := .short 0x12
  operands := [.label "A".toList, .value 5, .label "B".toList, .value 0xFFFFFFFF]
  size := 5

def mixedSymbols : Symbols := { labels := [("B".toList, 0x10A), ("A".toList, 0x100)] }

theorem operands_of_linkAll_mixed :
    ∃ linked, linkAll mixedSymbols [mixedInstruction.toLine 0x100] = (linked, none) ∧
      ∃ line, linked[0]? = some line ∧ line.pending = [] ∧ line.operands.length = 4 ∧
        line.operands[1]? = some 5 ∧ line.operands[3]? = some (-1) := by
  have hlinked : linkAll mixedSymbols [mixedInstruction.toLine 0x100] =
      ([⟨some 0x100, some (.short 0x12), some .direct, [-5, 5, 5, -1], [], 5⟩], none) := by
    decide +kernel
  obtain ⟨line, hget, hpending, hlength, hvalues, -⟩ := operands_of_linkAll (n := 0) rfl hlinked
  exact ⟨_, hlinked, line, hget, hpending, hlength, hvalues 1 5 rfl, hvalues 3 0xFFFFFFFF rfl⟩

-- The distance to the start of this line is the least word, whose magnitude is not positive.
example : (linkAll { labels := [("A".toList, 0)] } [({
    mode := .relative, opcode := .short 0x20, operands := [.label "A".toList],
    size := 2 ^ 63 } : Instruction).toLine 0]).1.map (·.operands) = [[0]] := by decide +kernel

end Line

/-! ## Whole programs -/

namespace Program

variable {setting : Setting} {source : List Text} {draft program : Program}

theorem link_eq_ok : draft.link = .ok program ↔
    program.symbols = draft.symbols ∧
      List.Forall₂ (fun line after => line.link draft.symbols = .ok after)
        draft.lines program.lines := by
  rw [← Line.linkFrom_eq_none]
  unfold link Line.linkAll
  cases hresult : Line.linkFrom draft.symbols 0 draft.lines with
  | mk lines stopped =>
      cases stopped with
      | none =>
          simp only [Except.ok.injEq, Prod.mk.injEq, and_true]
          constructor
          · rintro rfl
            exact ⟨rfl, rfl⟩
          · intro hparts
            obtain ⟨hsymbols, hlines⟩ := hparts
            cases program
            simp_all
      | some diagnostic => simp

theorem link_eq_error {n : Nat} {fault : Fault} : draft.link = .error ⟨n, fault⟩ ↔
    Outcome.FirstFault (Line.link draft.symbols) draft.lines n fault := by
  have hfirst : (Line.linkFrom draft.symbols 0 draft.lines).2 = some ⟨n, fault⟩ ↔
      Outcome.FirstFault (Line.link draft.symbols) draft.lines n fault := by
    rw [Line.linkFrom_eq_some]
    simp
  rw [← hfirst]
  unfold link Line.linkAll
  cases hresult : Line.linkFrom draft.symbols 0 draft.lines with
  | mk lines stopped =>
      cases stopped <;> simp

/-- A successful assembly: what the first pass has reached, and every line of it filled in. -/
theorem assemble_cases (h : assemble setting source = .ok program) :
    ∃ draft progress, layOut setting source = .ok draft ∧
      Progress.Reached setting source draft.lines progress ∧
      draft.symbols = progress.symbols ∧ program.symbols = progress.symbols ∧
      List.Forall₂ (fun line after => line.link progress.symbols = .ok after)
        draft.lines program.lines := by
  unfold assemble at h
  cases hlayOut : layOut setting source with
  | error diagnostic =>
      rw [hlayOut] at h
      cases h
  | ok draft =>
      rw [hlayOut] at h
      obtain ⟨hsymbols, hlinked⟩ := link_eq_ok.mp h
      obtain ⟨progress, hreached, hknown, -⟩ := layOut_cases hlayOut
      rw [hknown] at hsymbols hlinked
      exact ⟨draft, progress, rfl, hreached, hknown, hsymbols, hlinked⟩

/-- An assembly succeeds if the first pass reaches the end and every line can be filled in. -/
theorem assemble_eq_ok : assemble setting source = .ok program ↔
    ∃ lines progress, Progress.Reached setting source lines progress ∧ progress.ended = true ∧
      program.symbols = progress.symbols ∧
      List.Forall₂ (fun line after => line.link progress.symbols = .ok after)
        lines program.lines := by
  constructor
  · intro h
    obtain ⟨draft, progress, hlayOut, hreached, -, hsymbols, hlinked⟩ := assemble_cases h
    obtain ⟨last, hlast, -, hended⟩ := layOut_cases hlayOut
    obtain rfl : last = progress := (hlast.unique hreached).2
    exact ⟨draft.lines, last, hreached, hended, hsymbols, hlinked⟩
  · rintro ⟨lines, progress, hreached, hended, hsymbols, hlinked⟩
    rw [assemble, layOut_of_reached hreached hended]
    exact link_eq_ok.mpr ⟨hsymbols, hlinked⟩

end Program

end TwoPass
