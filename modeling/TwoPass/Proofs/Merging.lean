import Mathlib.Data.List.Perm.Basic
import TwoPass.Object.Image
import TwoPass.Proofs.Outcome

/-!
# Merging lines into runs

`Merge` keeps one run that still grows and compares a finished run with all others only when it is
closed.  The invariant `Merge.Holds` says what the state knows about the pieces of code it was fed:
they split into `old` pieces, whose cells are those of the finished runs, and `recent` pieces, whose
cells are those of the growing run.  Closing the growing run succeeds exactly if no recent piece
meets an old one, which is why no overlap is missed and none is invented.

`addLines_invariant` carries what one piece preserves through all lines; it asks nothing of them.
Main statements: `pieces_of_ofLines` (what the runs hold) and `exists_ofLines` (when there are any),
both about lines of code that are settled and not empty.
-/

namespace TwoPass

/-! ## The addresses of a run -/

namespace Run

variable {a b run : Run} {runs result : List Run} {address : Nat} {byte : UInt8}

/-- An address that a run fills. -/
def Covers (run : Run) (address : Nat) : Prop :=
  run.start.toNat ≤ address ∧ address < run.start.toNat + run.bytes.length

/-- Two runs that share no address. -/
def Apart (a b : Run) : Prop := ∀ address, a.Covers address → ¬b.Covers address

theorem Apart.symm (hapart : Apart a b) : Apart b a :=
  fun address hb ha => hapart address ha hb

/-- A run that ends within the 16-bit address space.  It may be empty. -/
def Within (run : Run) : Prop := run.start.toNat + run.bytes.length ≤ 0x10000

/-- A run that holds something and lies within the 16-bit address space. -/
structure Proper (run : Run) : Prop where
  nonempty : run.bytes ≠ []
  bounded : run.start.toNat + run.bytes.length ≤ 0x10000

theorem Proper.length_pos (hrun : run.Proper) : 0 < run.bytes.length :=
  List.length_pos_iff.mpr hrun.nonempty

theorem finish_toNat (hrun : run.Within) :
    run.finish.toNat = run.start.toNat + run.bytes.length := by
  unfold Within at hrun
  rw [finish, UInt32.toNat_add, Nat.toUInt32, UInt32.toNat_ofNat']
  omega

theorem Proper.finish_toNat (hrun : run.Proper) :
    run.finish.toNat = run.start.toNat + run.bytes.length :=
  Run.finish_toNat hrun.bounded

theorem covers_iff_byteAt : run.Covers address ↔ ∃ byte, run.byteAt address = some byte := by
  unfold Covers byteAt
  split
  next hstart =>
    simp only [List.getElem?_eq_some_iff]
    constructor
    · rintro ⟨-, hlength⟩
      exact ⟨_, by omega, rfl⟩
    · rintro ⟨_, hlength, -⟩
      omega
  next hstart => simp [hstart]

/-! ### Cells -/

theorem mem_cellsFrom {start : Nat} {bytes : List UInt8} :
    (address, byte) ∈ cellsFrom start bytes ↔
      start ≤ address ∧ bytes[address - start]? = some byte := by
  induction bytes generalizing start with
  | nil => simp [cellsFrom]
  | cons first rest ih =>
      rw [cellsFrom, List.mem_cons, ih, Prod.mk.injEq]
      constructor
      · intro hcell
        rcases hcell with ⟨rfl, rfl⟩ | ⟨hstart, hget⟩
        · simp
        · refine ⟨by omega, ?_⟩
          rw [show address - start = (address - (start + 1)) + 1 by omega]
          simpa using hget
      · intro hcell
        obtain ⟨hstart, hget⟩ := hcell
        rcases Nat.eq_or_lt_of_le hstart with rfl | hlater
        · simp only [Nat.sub_self, List.getElem?_cons_zero, Option.some.injEq] at hget
          exact .inl ⟨rfl, hget.symm⟩
        · refine .inr ⟨hlater, ?_⟩
          rw [show address - start = (address - (start + 1)) + 1 by omega] at hget
          simpa using hget

theorem mem_cells :
    (address, byte) ∈ cells runs ↔ ∃ run ∈ runs, run.byteAt address = some byte := by
  simp only [cells, List.mem_flatMap, mem_cellsFrom, byteAt]
  constructor
  · intro hcell
    obtain ⟨run, hrun, hstart, hget⟩ := hcell
    exact ⟨run, hrun, by rw [if_pos hstart, hget]⟩
  · intro hbyte
    obtain ⟨run, hrun, hget⟩ := hbyte
    split at hget
    next hstart => exact ⟨run, hrun, hstart, hget⟩
    next => cases hget

theorem cellsFrom_append (start : Nat) (first rest : List UInt8) :
    cellsFrom start (first ++ rest) =
      cellsFrom start first ++ cellsFrom (start + first.length) rest := by
  induction first generalizing start with
  | nil => rfl
  | cons byte first ih =>
      simp only [List.cons_append, cellsFrom, ih, List.length_cons]
      rw [Nat.add_right_comm, Nat.add_assoc]

theorem cells_append (runs others : List Run) : cells (runs ++ others) = cells runs ++ cells others :=
  List.flatMap_append

/-- The cells of a run and of a piece that starts where it ends. -/
theorem cells_grown (hrun : a.Within) (htouch : a.finish = b.start) :
    cells [⟨a.start, a.bytes ++ b.bytes⟩] = cells [a] ++ cells [b] := by
  simp [cells, cellsFrom_append, ← htouch, finish_toNat hrun]

/-- Runs with the same cells cover the same addresses. -/
theorem exists_covers_of_perm {others : List Run} (hcells : (cells runs).Perm (cells others))
    (hrun : run ∈ runs) (hcovers : run.Covers address) :
    ∃ other ∈ others, other.Covers address := by
  obtain ⟨byte, hbyte⟩ := covers_iff_byteAt.mp hcovers
  have hmem : (address, byte) ∈ cells others :=
    hcells.mem_iff.mp (mem_cells.mpr ⟨run, hrun, hbyte⟩)
  obtain ⟨other, hother, hbyte'⟩ := mem_cells.mp hmem
  exact ⟨other, hother, covers_iff_byteAt.mpr ⟨byte, hbyte'⟩⟩

/-- Where runs are apart, the memory they fill is made of their cells. -/
theorem image_eq_some_iff (hapart : runs.Pairwise Apart) :
    image runs address = some byte ↔ (address, byte) ∈ cells runs := by
  rw [mem_cells]
  induction runs with
  | nil => simp [image]
  | cons run rest ih =>
      obtain ⟨hhead, hrest⟩ := List.pairwise_cons.mp hapart
      rw [image, List.findSome?_cons]
      cases hfirst : run.byteAt address with
      | none =>
          have hih := ih hrest
          rw [image] at hih
          simp only [List.mem_cons, exists_eq_or_imp, hfirst, reduceCtorEq, false_or]
          exact hih
      | some found =>
          -- No later run has anything here.
          have hlater : ∀ other ∈ rest, other.byteAt address ≠ some byte := by
            intro other hother hbyte
            exact hhead other hother address (covers_iff_byteAt.mpr ⟨found, hfirst⟩)
              (covers_iff_byteAt.mpr ⟨byte, hbyte⟩)
          simp only [List.mem_cons, exists_eq_or_imp, hfirst]
          constructor
          · exact .inl
          · intro hcases
            rcases hcases with hfound | ⟨other, hother, hbyte⟩
            · exact hfound
            · exact absurd hbyte (hlater other hother)

/-- Runs that are apart and have the same cells fill the same memory. -/
theorem image_congr {others : List Run} (hruns : runs.Pairwise Apart)
    (hothers : others.Pairwise Apart) (hcells : ∀ cell, cell ∈ cells runs ↔ cell ∈ cells others) :
    image runs = image others := by
  funext address
  apply Option.ext
  intro byte
  rw [image_eq_some_iff hruns, image_eq_some_iff hothers, hcells]

/-! ## Adding a run -/

theorem overlaps_iff (ha : a.Proper) (hb : b.Proper) : a.overlaps b = true ↔ ¬Apart a b := by
  have hapos := ha.length_pos
  have hbpos := hb.length_pos
  unfold overlaps
  rw [Bool.and_eq_true, decide_eq_true_eq, decide_eq_true_eq, UInt32.lt_iff_toNat_lt,
    UInt32.lt_iff_toNat_lt, ha.finish_toNat, hb.finish_toNat]
  constructor
  · -- The later of the two starts is a shared address.
    rintro ⟨hab, hba⟩ hapart
    exact hapart (max a.start.toNat b.start.toNat) ⟨by omega, by omega⟩ ⟨by omega, by omega⟩
  · intro hmeet
    unfold Apart at hmeet
    push Not at hmeet
    obtain ⟨address, ⟨_, _⟩, ⟨_, _⟩⟩ := hmeet
    omega

theorem insert_perm (hfresh : ∀ other ∈ runs, other.start ≠ run.start) :
    (run.insert runs).Perm (run :: runs) := by
  induction runs with
  | nil => exact .refl _
  | cons other rest ih =>
      have hother : other.start ≠ run.start := hfresh other List.mem_cons_self
      have hrest : (run.insert rest).Perm (run :: rest) :=
        ih fun later hlater => hfresh later (List.mem_cons_of_mem _ hlater)
      rw [insert]
      split
      next => exact .refl _
      next =>
        split
        next hsame => exact absurd (eq_of_beq hsame).symm hother
        next => exact (hrest.cons other).trans (.swap run other rest)

theorem add_cases (hadd : add runs run = .ok result) :
    (∀ other ∈ runs, run.overlaps other = false) ∧ result = run.insert runs := by
  unfold add at hadd
  split at hadd
  next => cases hadd
  next hfind =>
    cases hadd
    refine ⟨fun other hother => ?_, rfl⟩
    simpa using List.find?_eq_none.mp hfind other hother

/-- A run is added exactly if it is apart from all others, and then nothing else changes. -/
theorem add_eq_ok (hrun : run.Proper) (hruns : ∀ other ∈ runs, other.Proper) :
    (∃ result, add runs run = .ok result) ↔ ∀ other ∈ runs, Apart run other := by
  unfold add
  cases hfind : runs.find? run.overlaps with
  | none =>
      simp only [Except.ok.injEq, exists_eq', true_iff]
      intro other hother
      by_contra hmeet
      have hoverlap := (overlaps_iff hrun (hruns other hother)).mpr hmeet
      exact absurd hoverlap (List.find?_eq_none.mp hfind other hother)
  | some other =>
      simp only [reduceCtorEq, exists_false, false_iff]
      have hother := List.mem_of_find?_eq_some hfind
      intro hapart
      exact (overlaps_iff hrun (hruns other hother)).mp (List.find?_some hfind)
        (hapart other hother)

theorem perm_of_add (hrun : run.Proper) (hruns : ∀ other ∈ runs, other.Proper)
    (hadd : add runs run = .ok result) : result.Perm (run :: runs) := by
  have hapart := (add_eq_ok hrun hruns).mp ⟨result, hadd⟩
  obtain ⟨-, rfl⟩ := add_cases hadd
  apply insert_perm
  intro other hother hstart
  have hlength := (hruns other hother).length_pos
  have hlength' := hrun.length_pos
  have hstart' : other.start.toNat = run.start.toNat := by rw [hstart]
  exact hapart other hother run.start.toNat ⟨by omega, by omega⟩ ⟨by omega, by omega⟩

end Run

/-! ## The state of a merge -/

namespace Merge

open Run (Apart Proper cells)

variable {merge next : Merge} {old recent runs : List Run} {run piece : Run}

/-- What taking a piece does: it is the first one, it prolongs the growing run, or it starts another
run, for which the growing one is closed. -/
theorem extend_cases (hextend : merge.extend piece.start piece.bytes = .ok next) :
    (merge.growing = none ∧ next = ⟨some piece, merge.complete⟩) ∨
      (∃ run, merge.growing = some run ∧ run.finish = piece.start ∧
        next = ⟨some ⟨run.start, run.bytes ++ piece.bytes⟩, merge.complete⟩) ∨
      ∃ run runs, merge.growing = some run ∧ Run.add merge.complete run = .ok runs ∧
        next = ⟨some piece, runs⟩ := by
  unfold Merge.extend at hextend
  cases hgrowing : merge.growing with
  | none =>
      rw [hgrowing] at hextend
      cases hextend
      exact .inl ⟨rfl, rfl⟩
  | some run =>
      simp only [hgrowing] at hextend
      split at hextend
      next htouch =>
        cases hextend
        exact .inr (.inl ⟨run, rfl, eq_of_beq htouch, rfl⟩)
      next =>
        obtain ⟨runs, hadd, rfl⟩ := Outcome.map_eq_ok.mp hextend
        exact .inr (.inr ⟨run, runs, rfl, hadd, rfl⟩)

/-- What a merge knows about the pieces it was fed: the finished runs are made of the old ones, and
the growing run is made of the recent ones. -/
structure Holds (merge : Merge) (old recent : List Run) : Prop where
  growing_cells : cells merge.growing.toList = cells recent
  complete_cells : (cells merge.complete).Perm (cells old)
  growing_proper : ∀ run, merge.growing = some run → run.Proper
  complete_proper : ∀ run ∈ merge.complete, run.Proper
  complete_apart : merge.complete.Pairwise Apart
  old_apart : old.Pairwise Apart
  recent_apart : recent.Pairwise Apart
  idle : merge.growing = none → old = [] ∧ recent = [] ∧ merge.complete = []

theorem holds_start : ({} : Merge).Holds [] [] where
  growing_cells := rfl
  complete_cells := .refl _
  growing_proper := by simp
  complete_proper := by simp
  complete_apart := .nil
  old_apart := .nil
  recent_apart := .nil
  idle := by simp

/-- The growing run can be closed exactly if no recent piece meets an old one. -/
theorem Holds.exists_add_iff (hholds : merge.Holds old recent)
    (hgrowing : merge.growing = some run) :
    (∃ runs, Run.add merge.complete run = .ok runs) ↔ (old ++ recent).Pairwise Apart := by
  have hcells : cells [run] = cells recent := by
    rw [← hholds.growing_cells, hgrowing, Option.toList_some]
  have hrecent : (cells [run]).Perm (cells recent) := by rw [hcells]
  rw [Run.add_eq_ok (hholds.growing_proper run hgrowing) hholds.complete_proper,
    List.pairwise_append]
  constructor
  · intro hapart
    refine ⟨hholds.old_apart, hholds.recent_apart, fun a ha b hb address hcovers hcovers' => ?_⟩
    obtain ⟨other, hother, hold⟩ :=
      Run.exists_covers_of_perm hholds.complete_cells.symm ha hcovers
    obtain ⟨_, hrun, hnew⟩ := Run.exists_covers_of_perm hrecent.symm hb hcovers'
    rw [List.mem_singleton.mp hrun] at hnew
    exact hapart other hother address hnew hold
  · rintro ⟨-, -, hapart⟩ other hother address hnew hold
    obtain ⟨a, ha, hcovers⟩ := Run.exists_covers_of_perm hholds.complete_cells hother hold
    obtain ⟨b, hb, hcovers'⟩ :=
      Run.exists_covers_of_perm hrecent (List.mem_singleton_self run) hnew
    exact hapart a ha b hb address hcovers hcovers'

/-- All pieces so far make up proper runs that are apart. -/
structure Filled (runs pieces : List Run) : Prop where
  perm : (cells runs).Perm (cells pieces)
  proper : ∀ run ∈ runs, run.Proper
  apart : runs.Pairwise Apart

theorem Holds.add (hholds : merge.Holds old recent) (hgrowing : merge.growing = some run)
    (hadd : Run.add merge.complete run = .ok runs) : Filled runs (old ++ recent) := by
  have hrun := hholds.growing_proper run hgrowing
  have hperm : runs.Perm (run :: merge.complete) :=
    Run.perm_of_add hrun hholds.complete_proper hadd
  have hapart := (Run.add_eq_ok hrun hholds.complete_proper).mp ⟨runs, hadd⟩
  refine ⟨?_, ?_, ?_⟩
  · have hcells : cells (run :: merge.complete) = cells recent ++ cells merge.complete := by
      rw [← hholds.growing_cells, hgrowing]
      simp [cells]
    have hruns : (cells runs).Perm (cells (run :: merge.complete)) := hperm.flatMap_right _
    rw [hcells] at hruns
    rw [Run.cells_append]
    exact hruns.trans ((hholds.complete_cells.append_left _).trans List.perm_append_comm)
  · intro other hother
    rcases List.mem_cons.mp (hperm.mem_iff.mp hother) with rfl | hother
    · exact hrun
    · exact hholds.complete_proper other hother
  · rw [hperm.pairwise_iff Apart.symm]
    exact List.pairwise_cons.mpr ⟨hapart, hholds.complete_apart⟩

/-- What one more piece does: it joins the recent ones if it touches the growing run, and starts a
new run otherwise. -/
theorem Holds.extend (hholds : merge.Holds old recent) (hpiece : piece.Proper)
    (hextend : merge.extend piece.start piece.bytes = .ok next) :
    ∃ old' recent', old' ++ recent' = old ++ recent ++ [piece] ∧ next.Holds old' recent' := by
  rcases extend_cases hextend with ⟨hgrowing, rfl⟩ | ⟨run, hgrowing, htouch, rfl⟩ |
    ⟨run, runs, hgrowing, hadd, rfl⟩
  · obtain ⟨rfl, rfl, hcomplete⟩ := hholds.idle hgrowing
    refine ⟨[], [piece], rfl, ?_⟩
    exact {
      growing_cells := rfl
      complete_cells := hholds.complete_cells
      growing_proper := by rintro _ ⟨⟩; exact hpiece
      complete_proper := hholds.complete_proper
      complete_apart := hholds.complete_apart
      old_apart := .nil
      recent_apart := List.pairwise_singleton _ _
      idle := by simp }
  · have hrun := hholds.growing_proper run hgrowing
    have hcells : cells [run] = cells recent := by
      rw [← hholds.growing_cells, hgrowing, Option.toList_some]
    -- The piece starts where the growing run ends.
    have hstart : piece.start.toNat = run.start.toNat + run.bytes.length := by
      rw [← htouch, hrun.finish_toNat]
    refine ⟨old, recent ++ [piece], (List.append_assoc _ _ _).symm, ?_⟩
    exact {
      growing_cells := by
        rw [Run.cells_append, ← hcells]
        exact Run.cells_grown hrun.bounded htouch
      complete_cells := hholds.complete_cells
      growing_proper := by
        rintro _ ⟨⟩
        have hbounded := hpiece.bounded
        refine ⟨by simp [hrun.nonempty], ?_⟩
        simp only [List.length_append]
        omega
      complete_proper := hholds.complete_proper
      complete_apart := hholds.complete_apart
      old_apart := hholds.old_apart
      recent_apart := by
        refine List.pairwise_append.mpr
          ⟨hholds.recent_apart, List.pairwise_singleton _ _, ?_⟩
        intro a ha b hb address hold hnew
        rw [List.mem_singleton.mp hb] at hnew
        obtain ⟨_, hmem, hcovers⟩ :=
          Run.exists_covers_of_perm (List.Perm.of_eq hcells.symm) ha hold
        rw [List.mem_singleton.mp hmem] at hcovers
        exact absurd hcovers.2 (by have := hnew.1; omega)
      idle := by simp }
  · have hapart := (hholds.exists_add_iff hgrowing).mp ⟨runs, hadd⟩
    obtain ⟨hperm, hproper, hruns⟩ := hholds.add hgrowing hadd
    refine ⟨old ++ recent, [piece], rfl, ?_⟩
    exact {
      growing_cells := rfl
      complete_cells := hperm
      growing_proper := by rintro _ ⟨⟩; exact hpiece
      complete_proper := hproper
      complete_apart := hruns
      old_apart := hapart
      recent_apart := List.pairwise_singleton _ _
      idle := by simp }

/-- Pieces that are apart can always be taken. -/
theorem Holds.exists_extend (hholds : merge.Holds old recent)
    (hapart : (old ++ recent).Pairwise Apart) (piece : Run) :
    ∃ next, merge.extend piece.start piece.bytes = .ok next := by
  unfold Merge.extend
  cases hgrowing : merge.growing with
  | none => exact ⟨_, rfl⟩
  | some run =>
      obtain ⟨runs, hadd⟩ := (hholds.exists_add_iff hgrowing).mpr hapart
      simp only [hadd]
      split
      next => exact ⟨_, rfl⟩
      next => exact ⟨_, rfl⟩

end Merge

/-! ## Lines -/

namespace Line

variable {line : Line}

/-- The code of a line at its address. -/
def piece? (line : Line) : Option Run :=
  match line.address, line.bytes with
  | some address, .ok bytes => some ⟨address, bytes⟩
  | _, _ => none

theorem piece?_eq_some {piece : Run} :
    line.piece? = some piece ↔ line.address = some piece.start ∧ line.bytes = .ok piece.bytes := by
  unfold piece?
  cases line.address with
  | none => simp
  | some address =>
      cases line.bytes with
      | error error => simp
      | ok bytes =>
          simp only [Option.some.injEq, Except.ok.injEq]
          constructor
          · rintro rfl
            exact ⟨rfl, rfl⟩
          · rintro ⟨rfl, rfl⟩
            rfl

theorem mem_cells_pieces {lines : List Line} {address : Nat} {byte : UInt8} :
    (address, byte) ∈ Run.cells (lines.filterMap Line.piece?) ↔
      ∃ line ∈ lines, ∃ start bytes j, line.address = some start ∧ line.bytes = .ok bytes ∧
        bytes[j]? = some byte ∧ address = start.toNat + j := by
  simp only [Run.cells, List.mem_flatMap, List.mem_filterMap, Run.mem_cellsFrom]
  constructor
  · intro hcell
    obtain ⟨piece, ⟨line, hline, hpiece⟩, hstart, hget⟩ := hcell
    obtain ⟨haddress, hbytes⟩ := piece?_eq_some.mp hpiece
    exact ⟨line, hline, piece.start, piece.bytes, address - piece.start.toNat, haddress, hbytes,
      hget, by omega⟩
  · intro hbyte
    obtain ⟨line, hline, start, bytes, j, haddress, hbytes, hget, rfl⟩ := hbyte
    refine ⟨⟨start, bytes⟩, ⟨line, hline, piece?_eq_some.mpr ⟨haddress, hbytes⟩⟩, ?_, ?_⟩
    · exact Nat.le_add_right _ _
    · rwa [Nat.add_sub_cancel_left]

/-- A line that merging can use: it has no address, or it waits for nothing and has bytes. -/
def Ready (line : Line) : Prop :=
  line.address = none ∨
    ∃ piece, line.piece? = some piece ∧ line.pending = [] ∧ piece.bytes ≠ []

theorem Ready.nonempty {piece : Run} (hready : line.Ready) (hpiece : line.piece? = some piece) :
    piece.bytes ≠ [] := by
  rcases hready with haddress | ⟨other, hother, -, hbytes⟩
  · simp [piece?, haddress] at hpiece
  · cases hpiece.symm.trans hother
    exact hbytes

end Line

namespace Merge

open Run (Apart Proper cells)

variable {merge next : Merge} {old recent runs : List Run} {line : Line} {lines : List Line}
  {index : Nat} {error : ObjectError}

theorem addLine_of_piece {piece : Run} (hpiece : line.piece? = some piece)
    (hpending : line.pending = []) :
    merge.addLine index line =
      if 0x10000 < piece.start.toNat + piece.bytes.length then
        .error (.addressOverflow piece.start)
      else merge.extend piece.start piece.bytes := by
  obtain ⟨haddress, hbytes⟩ := Line.piece?_eq_some.mp hpiece
  have hsettled : line.isPending = false := by simp [Line.isPending, hpending]
  simp [addLine, haddress, hsettled, hbytes]

/-- A line that is taken has no address, or it adds its piece. -/
theorem addLine_cases (hadd : merge.addLine index line = .ok next) :
    (line.address = none ∧ next = merge) ∨
      ∃ piece, line.piece? = some piece ∧ piece.Within ∧
        merge.extend piece.start piece.bytes = .ok next := by
  unfold addLine at hadd
  cases haddress : line.address with
  | none =>
      rw [haddress] at hadd
      cases hadd
      exact .inl ⟨rfl, rfl⟩
  | some address =>
      simp only [haddress] at hadd
      split at hadd
      next => cases hadd
      next =>
        split at hadd
        next => cases hadd
        next bytes hbytes =>
          split at hadd
          next => cases hadd
          next hbound =>
            refine .inr ⟨⟨address, bytes⟩, Line.piece?_eq_some.mpr ⟨haddress, hbytes⟩, ?_, hadd⟩
            exact Nat.not_lt.mp hbound

/-- What taking a single piece preserves, taking lines preserves: all of their pieces are added, and
every line of code has one. -/
theorem addLines_invariant (Inv : Merge → List Run → Prop) {pieces : List Run}
    (hstep : ∀ line ∈ lines, ∀ piece, line.piece? = some piece → piece.Within →
      ∀ merge next pieces, merge.extend piece.start piece.bytes = .ok next →
        Inv merge pieces → Inv next (pieces ++ [piece]))
    (hinv : Inv merge pieces) (hadd : merge.addLines index lines = .ok next) :
    (∀ line ∈ lines, line.address = none ∨ ∃ piece, line.piece? = some piece ∧ piece.Within) ∧
      Inv next (pieces ++ lines.filterMap Line.piece?) := by
  induction lines generalizing merge index pieces with
  | nil =>
      cases hadd
      exact ⟨by simp, by simpa using hinv⟩
  | cons line lines ih =>
      obtain ⟨hfirst, hlater⟩ := List.forall_mem_cons.mp hstep
      rw [Merge.addLines] at hadd
      split at hadd
      next => cases hadd
      next middle hline =>
        rcases addLine_cases hline with ⟨haddress, rfl⟩ | ⟨piece, hpiece, hwithin, hextend⟩
        · obtain ⟨hrest, hend⟩ := ih hlater hinv hadd
          have hnone : line.piece? = none := by simp [Line.piece?, haddress]
          rw [List.filterMap_cons_none hnone]
          exact ⟨List.forall_mem_cons.mpr ⟨.inl haddress, hrest⟩, hend⟩
        · have hmiddle := hfirst piece hpiece hwithin merge middle pieces hextend hinv
          obtain ⟨hrest, hend⟩ := ih hlater hmiddle hadd
          rw [List.append_assoc, List.singleton_append] at hend
          rw [List.filterMap_cons_some hpiece]
          exact ⟨List.forall_mem_cons.mpr ⟨.inr ⟨piece, hpiece, hwithin⟩, hrest⟩, hend⟩

/-- Taking lines adds their pieces, each of which lies within the address space. -/
theorem Holds.addLines (hholds : merge.Holds old recent) (hready : ∀ line ∈ lines, line.Ready)
    (hadd : merge.addLines index lines = .ok next) :
    (∀ piece ∈ lines.filterMap Line.piece?, piece.Proper) ∧
      ∃ old' recent', old' ++ recent' = old ++ recent ++ lines.filterMap Line.piece? ∧
        next.Holds old' recent' := by
  have hproper : ∀ line ∈ lines, ∀ piece, line.piece? = some piece → piece.Within →
      piece.Proper := by
    intro line hline piece hpiece hwithin
    exact ⟨(hready line hline).nonempty hpiece, hwithin⟩
  obtain ⟨hlines, hend⟩ := addLines_invariant
    (fun merge pieces => ∃ old recent, old ++ recent = pieces ∧ merge.Holds old recent)
    (by
      rintro line hline piece hpiece hwithin merge next _ hextend ⟨old, recent, rfl, hholds⟩
      exact hholds.extend (hproper line hline piece hpiece hwithin) hextend)
    ⟨old, recent, rfl, hholds⟩ hadd
  refine ⟨?_, hend⟩
  intro piece hmem
  obtain ⟨line, hline, hpiece⟩ := List.mem_filterMap.mp hmem
  rcases hlines line hline with haddress | ⟨other, hother, hwithin⟩
  · simp [Line.piece?, haddress] at hpiece
  · cases hpiece.symm.trans hother
    exact hproper line hline piece hpiece hwithin

/-- Lines whose pieces are proper and apart can all be taken. -/
theorem Holds.exists_addLines (hholds : merge.Holds old recent)
    (hready : ∀ line ∈ lines, line.Ready)
    (hproper : ∀ piece ∈ lines.filterMap Line.piece?, piece.Proper)
    (hapart : (old ++ recent ++ lines.filterMap Line.piece?).Pairwise Apart) :
    ∃ next, merge.addLines index lines = .ok next := by
  induction lines generalizing merge index old recent with
  | nil => exact ⟨merge, rfl⟩
  | cons line lines ih =>
      have hlater : ∀ later ∈ lines, later.Ready :=
        fun later hlater => hready later (List.mem_cons_of_mem _ hlater)
      rcases hready line List.mem_cons_self with haddress | ⟨piece, hpiece, hpending, -⟩
      · have hnone : line.piece? = none := by simp [Line.piece?, haddress]
        rw [List.filterMap_cons_none hnone] at hproper hapart
        have hline : merge.addLine index line = .ok merge := by simp [addLine, haddress]
        simpa only [Merge.addLines, hline] using ih hholds hlater hproper hapart
      · rw [List.filterMap_cons_some hpiece] at hproper hapart
        obtain ⟨hfirst, hrest⟩ := List.forall_mem_cons.mp hproper
        obtain ⟨middle, hextend⟩ :=
          hholds.exists_extend (List.pairwise_append.mp hapart).1 piece
        have hline : merge.addLine index line = .ok middle := by
          rw [addLine_of_piece hpiece hpending, if_neg (by have := hfirst.bounded; omega), hextend]
        obtain ⟨old₁, recent₁, hsplit₁, hholds₁⟩ := hholds.extend hfirst hextend
        have hapart₁ : (old₁ ++ recent₁ ++ lines.filterMap Line.piece?).Pairwise Apart := by
          rw [hsplit₁]
          simpa using hapart
        simpa only [Merge.addLines, hline] using ih hholds₁ hlater hrest hapart₁

/-! ### What can go wrong -/

/-- The errors that are left for lines that are ready: stretches of code that meet, or that run past
the end of the address space. -/
def Misplaced (error : ObjectError) : Prop :=
  (∃ other start, error = .overlap other start) ∨ ∃ address, error = .addressOverflow address

theorem misplaced_of_add {run : Run} (hadd : Run.add runs run = .error error) :
    Misplaced error := by
  unfold Run.add at hadd
  split at hadd
  next other _ =>
    cases hadd
    exact .inl ⟨other.start, run.start, rfl⟩
  next => cases hadd

theorem misplaced_of_addLine (hready : line.Ready)
    (hadd : merge.addLine index line = .error error) : Misplaced error := by
  rcases hready with haddress | ⟨piece, hpiece, hpending, -⟩
  · simp [addLine, haddress] at hadd
  · rw [addLine_of_piece hpiece hpending] at hadd
    split at hadd
    next =>
      cases hadd
      exact .inr ⟨piece.start, rfl⟩
    next =>
      unfold Merge.extend at hadd
      split at hadd
      next => cases hadd
      next =>
        split at hadd
        next => cases hadd
        next => exact misplaced_of_add (Outcome.map_eq_error.mp hadd)

theorem misplaced_of_addLines (hready : ∀ line ∈ lines, line.Ready)
    (hadd : merge.addLines index lines = .error error) : Misplaced error := by
  induction lines generalizing merge index with
  | nil => cases hadd
  | cons line lines ih =>
      rw [Merge.addLines] at hadd
      split at hadd
      next _ hline =>
        cases hadd
        exact misplaced_of_addLine (hready line List.mem_cons_self) hline
      next middle _ =>
        exact ih (fun later hlater => hready later (List.mem_cons_of_mem _ hlater)) hadd

end Merge

/-! ## Whole programs -/

namespace Run

variable {lines : List Line} {runs : List Run}

theorem ofLines_eq_ok : ofLines lines = .ok runs ↔
    runs ≠ [] ∧ ∃ merge, ({} : Merge).addLines 0 lines = .ok merge ∧ merge.close = .ok runs := by
  unfold ofLines
  cases hadd : ({} : Merge).addLines 0 lines with
  | error error => simp [Except.bind]
  | ok merge =>
      simp only [Except.bind, Except.ok.injEq, exists_eq_left']
      cases hclose : merge.close with
      | error error => simp
      | ok closed =>
          cases closed with
          | nil =>
              simp only [reduceCtorEq, Except.ok.injEq, false_iff, not_and]
              exact fun hne hnil => hne hnil.symm
          | cons run rest =>
              simp only [Except.ok.injEq, iff_and_self]
              rintro rfl
              simp

/-- The pieces of lines that could be merged are proper and apart, and their cells are those of the
runs. -/
theorem pieces_of_ofLines (hready : ∀ line ∈ lines, line.Ready) (h : ofLines lines = .ok runs) :
    runs ≠ [] ∧ (∀ piece ∈ lines.filterMap Line.piece?, piece.Proper) ∧
      (lines.filterMap Line.piece?).Pairwise Apart ∧
      Merge.Filled runs (lines.filterMap Line.piece?) := by
  obtain ⟨hne, merge, hadd, hclose⟩ := ofLines_eq_ok.mp h
  obtain ⟨hproper, old, recent, hsplit, hholds⟩ := Merge.holds_start.addLines hready hadd
  simp only [List.nil_append] at hsplit
  unfold Merge.close at hclose
  cases hgrowing : merge.growing with
  | none =>
      obtain ⟨-, -, hcomplete⟩ := hholds.idle hgrowing
      simp only [hgrowing, Option.elim_none, Except.ok.injEq, hcomplete] at hclose
      exact absurd hclose.symm hne
  | some run =>
      simp only [hgrowing, Option.elim_some] at hclose
      rw [← hsplit]
      exact ⟨hne, by rw [hsplit]; exact hproper,
        (hholds.exists_add_iff hgrowing).mp ⟨runs, hclose⟩, hholds.add hgrowing hclose⟩

/-- Lines with pieces that are proper and apart can be merged. -/
theorem exists_ofLines (hready : ∀ line ∈ lines, line.Ready)
    (hsome : lines.filterMap Line.piece? ≠ [])
    (hproper : ∀ piece ∈ lines.filterMap Line.piece?, piece.Proper)
    (hapart : (lines.filterMap Line.piece?).Pairwise Apart) :
    ∃ runs, ofLines lines = .ok runs := by
  have hadds : ∃ merge, ({} : Merge).addLines 0 lines = .ok merge :=
    Merge.holds_start.exists_addLines hready hproper (by simpa using hapart)
  obtain ⟨merge, hadd⟩ := hadds
  obtain ⟨-, old, recent, hsplit, hholds⟩ := Merge.holds_start.addLines hready hadd
  simp only [List.nil_append] at hsplit
  cases hgrowing : merge.growing with
  | none =>
      obtain ⟨rfl, rfl, -⟩ := hholds.idle hgrowing
      exact absurd hsplit.symm hsome
  | some run =>
      obtain ⟨runs, hclose⟩ := (hholds.exists_add_iff hgrowing).mpr (by rwa [hsplit])
      refine ⟨runs, ofLines_eq_ok.mpr ⟨?_, merge, hadd, ?_⟩⟩
      · rintro rfl
        have hnil := (perm_of_add (hholds.growing_proper run hgrowing) hholds.complete_proper
          hclose).length_eq
        simp at hnil
      · rw [Merge.close, hgrowing, Option.elim_some, hclose]

/-- Lines that are ready have no other errors than missing code and code in the wrong place. -/
theorem error_of_ofLines {error : ObjectError} (hready : ∀ line ∈ lines, line.Ready)
    (h : ofLines lines = .error error) : error = .noCode ∨ Merge.Misplaced error := by
  unfold ofLines at h
  cases hadd : ({} : Merge).addLines 0 lines with
  | error other =>
      simp only [hadd, Except.bind, Except.error.injEq] at h
      exact .inr (h ▸ Merge.misplaced_of_addLines hready hadd)
  | ok merge =>
      simp only [hadd, Except.bind] at h
      split at h
      next other hclose =>
        cases h
        unfold Merge.close at hclose
        cases hgrowing : merge.growing with
        | none => simp [hgrowing] at hclose
        | some run =>
            rw [hgrowing, Option.elim_some] at hclose
            exact .inr (Merge.misplaced_of_add hclose)
      next =>
        cases h
        exact .inl rfl
      next => cases h

end Run

end TwoPass
