import TwoPass.Proofs.Merging

/-!
# Merging lines of any kind

Nothing is assumed about the lines here: they may have no bytes, repeat an address and come in any
order.  The runs still come out in ascending order and without a common address (`Gathered`), and
every cell of them comes from a line.

What can go wrong is that a line is lost.  A run without bytes overlaps no run that starts where it
does, so it takes the place of such a run instead of being refused.  `Run.Hides` is this situation
on the pieces that runs are made of; as long as it does not arise, no byte is lost
(`Gathered.kept`).
-/

namespace TwoPass

namespace Run

variable {a b run other : Run} {runs pieces : List Run}

/-! ## Runs in ascending order -/

/-- A run that starts before another one and ends where that starts at the latest. -/
structure Precedes (a b : Run) : Prop where
  start_lt : a.start.toNat < b.start.toNat
  finish_le : a.start.toNat + a.bytes.length ≤ b.start.toNat

theorem overlaps_comm (a b : Run) : a.overlaps b = b.overlaps a := Bool.and_comm _ _

/-- Of two runs that do not overlap, the one that starts first comes first. -/
theorem precedes_of_start_lt (ha : a.Within) (hb : b.Within) (hclear : a.overlaps b = false)
    (hlt : a.start.toNat < b.start.toNat) : a.Precedes b := by
  refine ⟨hlt, ?_⟩
  unfold overlaps at hclear
  rw [Bool.and_eq_false_iff, decide_eq_false_iff_not, decide_eq_false_iff_not,
    UInt32.lt_iff_toNat_lt, UInt32.lt_iff_toNat_lt, finish_toNat ha, finish_toNat hb] at hclear
  omega

/-- Two runs with the same start do overlap, unless one of them is empty. -/
theorem overlaps_of_start_eq (ha : a.Within) (hb : b.Within) (hstart : a.start = b.start)
    (hasome : a.bytes ≠ []) (hbsome : b.bytes ≠ []) : a.overlaps b = true := by
  have halength : 0 < a.bytes.length := List.length_pos_iff.mpr hasome
  have hblength : 0 < b.bytes.length := List.length_pos_iff.mpr hbsome
  have hstart' : a.start.toNat = b.start.toNat := by rw [hstart]
  unfold overlaps
  rw [Bool.and_eq_true, decide_eq_true_eq, decide_eq_true_eq, UInt32.lt_iff_toNat_lt,
    UInt32.lt_iff_toNat_lt, finish_toNat ha, finish_toNat hb]
  omega

/-- An inserted run takes the place of one with the same start. -/
theorem mem_insert_iff (hruns : runs.Pairwise Precedes) :
    other ∈ run.insert runs ↔ other = run ∨ other ∈ runs ∧ other.start ≠ run.start := by
  induction runs with
  | nil => simp [insert]
  | cons first rest ih =>
      obtain ⟨hfirst, hrest⟩ := List.pairwise_cons.mp hruns
      -- What comes after the first run has a later start.
      have hlater : ∀ later ∈ rest, first.start.toNat < later.start.toNat :=
        fun later hmem => (hfirst later hmem).start_lt
      rw [insert]
      split
      next hlt =>
        rw [UInt32.lt_iff_toNat_lt] at hlt
        have hother : ∀ later ∈ first :: rest, later.start ≠ run.start := by
          intro later hmem hstart
          rcases List.mem_cons.mp hmem with rfl | hmem
          · rw [hstart] at hlt
            exact Nat.lt_irrefl _ hlt
          · have := hlater later hmem
            rw [hstart] at this
            omega
        rw [List.mem_cons]
        exact or_congr_right (iff_self_and.mpr (hother other))
      next hge =>
        split
        next hsame =>
          have hstart : run.start = first.start := eq_of_beq hsame
          have hother : ∀ later ∈ rest, later.start ≠ run.start := by
            intro later hmem hstart'
            have := hlater later hmem
            rw [hstart', hstart] at this
            exact Nat.lt_irrefl _ this
          rw [List.mem_cons, List.mem_cons]
          refine or_congr_right ?_
          constructor
          · intro hmem
            exact ⟨.inr hmem, hother other hmem⟩
          · rintro ⟨rfl | hmem, hne⟩
            · exact absurd hstart.symm hne
            · exact hmem
        next hdiffers =>
          have hne : first.start ≠ run.start := fun hstart => hdiffers (beq_iff_eq.mpr hstart.symm)
          rw [List.mem_cons, ih hrest, List.mem_cons]
          constructor
          · rintro (rfl | rfl | ⟨hmem, hother⟩)
            · exact .inr ⟨.inl rfl, hne⟩
            · exact .inl rfl
            · exact .inr ⟨.inr hmem, hother⟩
          · rintro (rfl | ⟨rfl | hmem, hother⟩)
            · exact .inr (.inl rfl)
            · exact .inl rfl
            · exact .inr (.inr ⟨hmem, hother⟩)

theorem pairwise_insert (hruns : runs.Pairwise Precedes) (hwithin : ∀ other ∈ runs, other.Within)
    (hrun : run.Within) (hclear : ∀ other ∈ runs, run.overlaps other = false) :
    (run.insert runs).Pairwise Precedes := by
  induction runs with
  | nil => exact List.pairwise_singleton _ _
  | cons first rest ih =>
      obtain ⟨hfirst, hrest⟩ := List.pairwise_cons.mp hruns
      obtain ⟨hfirstWithin, hrestWithin⟩ := List.forall_mem_cons.mp hwithin
      obtain ⟨hfirstClear, hrestClear⟩ := List.forall_mem_cons.mp hclear
      have hbefore : ∀ later ∈ rest, run.start.toNat ≤ first.start.toNat → run.Precedes later := by
        intro later hmem hle
        have hlt := (hfirst later hmem).start_lt
        exact precedes_of_start_lt hrun (hrestWithin later hmem) (hrestClear later hmem) (by omega)
      rw [insert]
      split
      next hlt =>
        rw [UInt32.lt_iff_toNat_lt] at hlt
        refine List.pairwise_cons.mpr ⟨List.forall_mem_cons.mpr ⟨?_, ?_⟩, hruns⟩
        · exact precedes_of_start_lt hrun hfirstWithin hfirstClear hlt
        · exact fun later hmem => hbefore later hmem (Nat.le_of_lt hlt)
      next hge =>
        split
        next hsame =>
          have hstart : run.start = first.start := eq_of_beq hsame
          refine List.pairwise_cons.mpr ⟨?_, hrest⟩
          exact fun later hmem => hbefore later hmem (Nat.le_of_eq (by rw [hstart]))
        next hdiffers =>
          have hlt : first.start.toNat < run.start.toNat := by
            have hne : run.start ≠ first.start := fun h => hdiffers (beq_iff_eq.mpr h)
            have hne' : run.start.toNat ≠ first.start.toNat := fun h => hne (UInt32.toNat_inj.mp h)
            rw [UInt32.lt_iff_toNat_lt] at hge
            omega
          rw [overlaps_comm] at hfirstClear
          have hrun' := precedes_of_start_lt hfirstWithin hrun hfirstClear hlt
          refine List.pairwise_cons.mpr ⟨?_, ih hrest hrestWithin hrestClear⟩
          intro later hmem
          rcases (mem_insert_iff hrest).mp hmem with rfl | ⟨hmem, -⟩
          · exact hrun'
          · exact hfirst later hmem

/-! ### Cells in ascending order -/

theorem pairwise_cellsFrom (address : Nat) (bytes : List UInt8) :
    (cellsFrom address bytes).Pairwise fun a b => a.1 < b.1 := by
  induction bytes generalizing address with
  | nil => exact .nil
  | cons byte rest ih =>
      refine List.pairwise_cons.mpr ⟨?_, ih (address + 1)⟩
      rintro ⟨later, byte'⟩ hmem
      exact (mem_cellsFrom.mp hmem).1

/-- The cells of runs in ascending order are in ascending order themselves. -/
theorem pairwise_cells (hruns : runs.Pairwise Precedes) :
    (cells runs).Pairwise fun a b => a.1 < b.1 := by
  refine List.pairwise_flatMap.mpr ⟨fun run _ => pairwise_cellsFrom _ _, hruns.imp ?_⟩
  rintro first second hprecedes ⟨address, byte⟩ hmem ⟨address', byte'⟩ hmem'
  obtain ⟨hlow, hget⟩ := mem_cellsFrom.mp hmem
  obtain ⟨hlow', -⟩ := mem_cellsFrom.mp hmem'
  have hlength := (List.getElem?_eq_some_iff.mp hget).1
  have hfinish := hprecedes.finish_le
  show address < address'
  omega

theorem apart_iff : Apart a b ↔ ∀ cell ∈ cellsFrom a.start.toNat a.bytes,
    ∀ other ∈ cellsFrom b.start.toNat b.bytes, cell.1 ≠ other.1 := by
  have hcovers : ∀ (run : Run) (address : Nat), run.Covers address ↔
      ∃ byte, (address, byte) ∈ cellsFrom run.start.toNat run.bytes := by
    intro run address
    simp only [covers_iff_byteAt, mem_cellsFrom, byteAt]
    split <;> simp [*]
  simp only [Apart, hcovers]
  constructor
  · rintro hapart ⟨address, byte⟩ hcell ⟨_, byte'⟩ hother rfl
    exact hapart address ⟨byte, hcell⟩ ⟨byte', hother⟩
  · rintro hcells address ⟨byte, hcell⟩ ⟨byte', hother⟩
    exact hcells (address, byte) hcell (address, byte') hother rfl

/-- Runs share no address exactly if no address occurs twice among their cells. -/
theorem pairwise_apart_iff_cells :
    runs.Pairwise Apart ↔ (cells runs).Pairwise fun a b => a.1 ≠ b.1 := by
  have hsingle : ∀ run ∈ runs,
      (cellsFrom run.start.toNat run.bytes).Pairwise fun a b => a.1 ≠ b.1 :=
    fun run _ => (pairwise_cellsFrom _ _).imp Nat.ne_of_lt
  rw [cells, List.pairwise_flatMap, List.Pairwise.iff fun _ _ => apart_iff]
  exact (and_iff_right hsingle).symm

/-- Cells in ascending order are those of runs that share no address. -/
theorem pairwise_apart (hcells : (cells runs).Pairwise fun a b => a.1 < b.1) :
    runs.Pairwise Apart :=
  pairwise_apart_iff_cells.mpr (hcells.imp Nat.ne_of_lt)

/-- An empty run where another one with bytes starts. -/
def Hides (later earlier : Run) : Prop :=
  later.bytes = [] ∧ earlier.bytes ≠ [] ∧ later.start = earlier.start

/-- The first of some cells stands at the start of a piece. -/
theorem exists_start_of_cells {address : Nat} {byte : UInt8} {rest : List (Nat × UInt8)}
    (hcells : cells pieces = (address, byte) :: rest) :
    ∃ piece ∈ pieces, piece.bytes ≠ [] ∧ piece.start.toNat = address := by
  induction pieces with
  | nil => cases hcells
  | cons first others ih =>
      cases hbytes : first.bytes with
      | nil =>
          have hothers : cells others = (address, byte) :: rest := by
            simpa [cells, hbytes, cellsFrom] using hcells
          obtain ⟨piece, hmem, hpiece⟩ := ih hothers
          exact ⟨piece, List.mem_cons_of_mem _ hmem, hpiece⟩
      | cons initial bytes =>
          have hstart : first.start.toNat = address := by
            simp only [cells, List.flatMap_cons, hbytes, cellsFrom, List.cons_append,
              List.cons.injEq, Prod.mk.injEq] at hcells
            exact hcells.1.1
          exact ⟨first, List.mem_cons_self, by simp [hbytes], hstart⟩

/-- What runs that were made of some pieces have in common. -/
structure Gathered (runs pieces : List Run) : Prop where
  within : ∀ run ∈ runs, run.Within
  ascending : runs.Pairwise Precedes
  sound : ∀ cell ∈ cells runs, cell ∈ cells pieces
  start : ∀ run ∈ runs, run.bytes ≠ [] →
    ∃ piece ∈ pieces, piece.bytes ≠ [] ∧ piece.start = run.start
  kept : (pieces.Pairwise fun earlier later => ¬later.Hides earlier) →
    ∀ cell ∈ cells pieces, cell ∈ cells runs

theorem gathered_nil : Gathered [] [] where
  within := by simp
  ascending := .nil
  sound := by simp
  start := by simp
  kept := by simp

end Run

/-! ## The state of a merge -/

namespace Merge

open Run (Gathered Precedes Within cells)

variable {merge next : Merge} {old recent runs : List Run} {run piece : Run}

/-- What a merge knows about the pieces it was fed: the complete runs were made of the old ones, and
the growing run is made of the recent ones, the first of which stands where it starts. -/
structure Gathers (merge : Merge) (old recent : List Run) : Prop where
  complete : Gathered merge.complete old
  growing_cells : cells merge.growing.toList = cells recent
  growing_start : merge.growing.map Run.start = recent.head?.map Run.start
  growing_within : ∀ run, merge.growing = some run → run.Within

theorem gathers_start : ({} : Merge).Gathers [] [] where
  complete := Run.gathered_nil
  growing_cells := rfl
  growing_start := rfl
  growing_within := by simp

theorem Gathers.recent_eq_nil (hgathers : merge.Gathers old recent)
    (hgrowing : merge.growing = none) : recent = [] := by
  have hstart := hgathers.growing_start
  rw [hgrowing] at hstart
  cases recent with
  | nil => rfl
  | cons first rest => cases hstart

/-- A growing run that is empty so far has an empty piece where it starts. -/
theorem Gathers.exists_empty (hgathers : merge.Gathers old recent)
    (hgrowing : merge.growing = some run) (hempty : run.bytes = []) :
    ∃ piece ∈ recent, piece.bytes = [] ∧ piece.start = run.start := by
  have hcells := hgathers.growing_cells
  have hstart := hgathers.growing_start
  rw [hgrowing, Option.toList_some] at hcells
  rw [hgrowing, Option.map_some] at hstart
  cases recent with
  | nil => cases hstart
  | cons first rest =>
      have hbytes : first.bytes = [] := by
        cases hfirst : first.bytes with
        | nil => rfl
        | cons byte bytes => simp [cells, hempty, hfirst, Run.cellsFrom] at hcells
      exact ⟨first, List.mem_cons_self, hbytes, by simpa [eq_comm] using hstart⟩

/-- A growing run that has bytes starts with those of a piece. -/
theorem Gathers.exists_start (hgathers : merge.Gathers old recent)
    (hgrowing : merge.growing = some run) (hsome : run.bytes ≠ []) :
    ∃ piece ∈ recent, piece.bytes ≠ [] ∧ piece.start = run.start := by
  have hcells := hgathers.growing_cells
  rw [hgrowing, Option.toList_some] at hcells
  obtain ⟨byte, bytes, hbytes⟩ := List.exists_cons_of_ne_nil hsome
  have hrun : cells [run] = (run.start.toNat, byte) :: Run.cellsFrom (run.start.toNat + 1) bytes := by
    simp [cells, hbytes, Run.cellsFrom]
  obtain ⟨piece, hpiece, hpieceSome, hstart⟩ := Run.exists_start_of_cells (hcells.symm.trans hrun)
  exact ⟨piece, hpiece, hpieceSome, UInt32.toNat_inj.mp hstart⟩

/-- The growing run takes the place of a complete run that has bytes only if it is empty itself, and
then its first piece hides a piece of that run. -/
theorem Gathers.start_ne {other : Run} (hgathers : merge.Gathers old recent)
    (hgrowing : merge.growing = some run)
    (hclear : ∀ other ∈ merge.complete, run.overlaps other = false)
    (hspared : ∀ earlier ∈ old, ∀ later ∈ recent, ¬later.Hides earlier)
    (hother : other ∈ merge.complete) (hsome : other.bytes ≠ []) : other.start ≠ run.start := by
  intro hstart
  by_cases hempty : run.bytes = []
  · obtain ⟨piece, hpiece, hpieceSome, hpieceStart⟩ := hgathers.complete.start other hother hsome
    obtain ⟨first, hfirst, hfirstEmpty, hfirstStart⟩ := hgathers.exists_empty hgrowing hempty
    apply hspared piece hpiece first hfirst
    exact ⟨hfirstEmpty, hpieceSome, by rw [hfirstStart, hpieceStart, hstart]⟩
  · have hoverlap := Run.overlaps_of_start_eq (hgathers.growing_within run hgrowing)
      (hgathers.complete.within other hother) hstart.symm hempty hsome
    rw [hclear other hother] at hoverlap
    cases hoverlap

/-- Closing the growing run. -/
theorem Gathers.add (hgathers : merge.Gathers old recent) (hgrowing : merge.growing = some run)
    (hadd : Run.add merge.complete run = .ok runs) : Gathered runs (old ++ recent) := by
  have hcomplete := hgathers.complete
  have hrun : run.Within := hgathers.growing_within run hgrowing
  have hcells : cells [run] = cells recent := by
    rw [← hgathers.growing_cells, hgrowing, Option.toList_some]
  obtain ⟨hclear, rfl⟩ := Run.add_cases hadd
  have hmem : ∀ other, other ∈ run.insert merge.complete ↔
      other = run ∨ other ∈ merge.complete ∧ other.start ≠ run.start :=
    fun other => Run.mem_insert_iff hcomplete.ascending
  refine ⟨?_, Run.pairwise_insert hcomplete.ascending hcomplete.within hrun hclear, ?_, ?_, ?_⟩
  · intro other hother
    rcases (hmem other).mp hother with rfl | ⟨hother, -⟩
    · exact hrun
    · exact hcomplete.within other hother
  · intro cell hcell
    obtain ⟨other, hother, hbyte⟩ := List.mem_flatMap.mp hcell
    rw [Run.cells_append, List.mem_append]
    rcases (hmem other).mp hother with rfl | ⟨hother, -⟩
    · rw [← hcells]
      exact .inr (List.mem_flatMap.mpr ⟨other, List.mem_singleton_self other, hbyte⟩)
    · exact .inl (hcomplete.sound cell (List.mem_flatMap.mpr ⟨other, hother, hbyte⟩))
  · intro other hother hsome
    rcases (hmem other).mp hother with rfl | ⟨hother, -⟩
    · obtain ⟨piece, hpiece, hstart⟩ := hgathers.exists_start hgrowing hsome
      exact ⟨piece, List.mem_append_right old hpiece, hstart⟩
    · obtain ⟨piece, hpiece, hstart⟩ := hcomplete.start other hother hsome
      exact ⟨piece, List.mem_append_left recent hpiece, hstart⟩
  · intro hspared cell hcell
    obtain ⟨hold, -, hcross⟩ := List.pairwise_append.mp hspared
    rw [Run.cells_append, List.mem_append, ← hcells] at hcell
    rcases hcell with hcell | hcell
    · obtain ⟨other, hother, hbyte⟩ := List.mem_flatMap.mp (hcomplete.kept hold cell hcell)
      have hsome : other.bytes ≠ [] := by
        intro hnil
        rw [hnil] at hbyte
        cases hbyte
      have hstart := hgathers.start_ne hgrowing hclear hcross hother hsome
      exact List.mem_flatMap.mpr ⟨other, (hmem other).mpr (.inr ⟨hother, hstart⟩), hbyte⟩
    · obtain ⟨other, hother, hbyte⟩ := List.mem_flatMap.mp hcell
      have hsame : other = run := List.mem_singleton.mp hother
      exact List.mem_flatMap.mpr ⟨other, (hmem other).mpr (.inl hsame), hbyte⟩

/-- What one more piece does, whatever it holds. -/
theorem Gathers.extend (hgathers : merge.Gathers old recent) (hpiece : piece.Within)
    (hextend : merge.extend piece.start piece.bytes = .ok next) :
    ∃ old' recent', old' ++ recent' = old ++ recent ++ [piece] ∧ next.Gathers old' recent' := by
  have hsingle : ∀ run, some piece = some run → run.Within := by
    rintro _ ⟨⟩
    exact hpiece
  rcases extend_cases hextend with ⟨hgrowing, rfl⟩ | ⟨run, hgrowing, htouch, rfl⟩ |
    ⟨run, runs, hgrowing, hadd, rfl⟩
  · have hrecent : recent = [] := hgathers.recent_eq_nil hgrowing
    subst hrecent
    exact ⟨old, [piece], by simp, hgathers.complete, rfl, rfl, hsingle⟩
  · have hrun := hgathers.growing_within run hgrowing
    refine ⟨old, recent ++ [piece], (List.append_assoc _ _ _).symm, hgathers.complete, ?_, ?_, ?_⟩
    · rw [Run.cells_append, ← hgathers.growing_cells, hgrowing]
      exact Run.cells_grown hrun htouch
    · have hfirst := hgathers.growing_start
      rw [hgrowing] at hfirst
      cases recent with
      | nil => cases hfirst
      | cons first rest => simpa using hfirst
    · rintro _ ⟨⟩
      have hbound : piece.start.toNat + piece.bytes.length ≤ 0x10000 := hpiece
      have hstart : piece.start.toNat = run.start.toNat + run.bytes.length := by
        rw [← htouch, Run.finish_toNat hrun]
      show run.start.toNat + (run.bytes ++ piece.bytes).length ≤ 0x10000
      rw [List.length_append]
      omega
  · exact ⟨old ++ recent, [piece], rfl, hgathers.add hgrowing hadd, rfl, rfl, hsingle⟩

end Merge

/-! ## Whole lists of lines -/

namespace Run

variable {lines : List Line} {runs : List Run}

/-- All lines of code have bytes, and the runs are gathered from them. -/
theorem gathered_of_ofLines (h : ofLines lines = .ok runs) :
    (∀ line ∈ lines, line.address = none ∨ ∃ piece, line.piece? = some piece ∧ piece.Within) ∧
      Gathered runs (lines.filterMap Line.piece?) := by
  obtain ⟨-, merge, hadd, hclose⟩ := ofLines_eq_ok.mp h
  obtain ⟨hlines, old, recent, hsplit, hgathers⟩ := Merge.addLines_invariant
    (fun merge pieces => ∃ old recent, old ++ recent = pieces ∧ merge.Gathers old recent)
    (by
      rintro line - piece - hwithin merge next _ hextend ⟨old, recent, rfl, hgathers⟩
      exact hgathers.extend hwithin hextend)
    ⟨[], [], rfl, Merge.gathers_start⟩ hadd
  refine ⟨hlines, ?_⟩
  simp only [List.nil_append] at hsplit
  rw [← hsplit]
  unfold Merge.close at hclose
  cases hgrowing : merge.growing with
  | none =>
      rw [hgrowing, Option.elim_none] at hclose
      cases hclose
      rw [hgathers.recent_eq_nil hgrowing, List.append_nil]
      exact hgathers.complete
  | some run =>
      rw [hgrowing, Option.elim_some] at hclose
      exact hgathers.add hgrowing hclose

theorem pairwise_cells_of_ofLines (h : ofLines lines = .ok runs) :
    (cells runs).Pairwise fun a b => a.1 < b.1 :=
  pairwise_cells (gathered_of_ofLines h).2.ascending

end Run

/-- A line without bytes at the address of another line that has some. -/
def Line.Hides (later earlier : Line) : Prop :=
  ∃ address bytes, later.address = some address ∧ later.bytes = .ok [] ∧
    earlier.address = some address ∧ earlier.bytes = .ok bytes ∧ bytes ≠ []

theorem Line.pairwise_pieces {lines : List Line}
    (hspared : lines.Pairwise fun earlier later => ¬later.Hides earlier) :
    (lines.filterMap Line.piece?).Pairwise fun earlier later => ¬later.Hides earlier := by
  refine List.pairwise_filterMap.mpr (hspared.imp ?_)
  rintro earlier later hline piece hpiece piece' hpiece' ⟨hempty, hsome, hstart⟩
  obtain ⟨haddress, hbytes⟩ := Line.piece?_eq_some.mp hpiece
  obtain ⟨haddress', hbytes'⟩ := Line.piece?_eq_some.mp hpiece'
  rw [hempty] at hbytes'
  rw [hstart] at haddress'
  exact hline ⟨piece.start, piece.bytes, haddress', hbytes', haddress, hbytes, hsome⟩

namespace Run

variable {lines : List Line} {runs : List Run}

/-- The memory that lines of any kind fill.  If they can be merged, every line of code has bytes;
every byte of the runs comes from a line, and every run ends within the address space.  If no line
without bytes stands at the address of an earlier line with bytes, the runs hold all bytes of all
lines. -/
theorem memory_of_ofLines (h : ofLines lines = .ok runs) :
    (∀ line ∈ lines, ∀ start, line.address = some start → ∃ bytes, line.bytes = .ok bytes) ∧
    (∀ address byte, image runs address = some byte →
      ∃ line ∈ lines, ∃ start bytes j, line.address = some start ∧ line.bytes = .ok bytes ∧
        bytes[j]? = some byte ∧ address = start.toNat + j) ∧
    (∀ run ∈ runs, run.start.toNat + run.bytes.length ≤ 0x10000) ∧
    ((lines.Pairwise fun earlier later => ¬later.Hides earlier) →
      ∀ line ∈ lines, ∀ start bytes, line.address = some start → line.bytes = .ok bytes →
        ∀ j byte, bytes[j]? = some byte → image runs (start.toNat + j) = some byte) := by
  obtain ⟨hlines, hgathered⟩ := gathered_of_ofLines h
  have hapart : runs.Pairwise Apart := pairwise_apart (pairwise_cells hgathered.ascending)
  refine ⟨?_, ?_, hgathered.within, ?_⟩
  · intro line hline start haddress
    rcases hlines line hline with hnone | ⟨piece, hpiece, -⟩
    · rw [haddress] at hnone
      cases hnone
    · exact ⟨piece.bytes, (Line.piece?_eq_some.mp hpiece).2⟩
  · intro address byte himage
    rw [image_eq_some_iff hapart] at himage
    exact Line.mem_cells_pieces.mp (hgathered.sound _ himage)
  · intro hspared line hline start bytes haddress hbytes j byte hget
    rw [image_eq_some_iff hapart]
    apply hgathered.kept (Line.pairwise_pieces hspared)
    exact Line.mem_cells_pieces.mpr ⟨line, hline, start, bytes, j, haddress, hbytes, hget, rfl⟩

/-- A line without bytes that is harmless, since it stands after the bytes of the line before. -/
theorem memory_of_ofLines_trailing :
    ofLines [.data 16 [1, 2], { address := some 18 }, .data 5 [3]] =
        .ok [⟨5, [3]⟩, ⟨16, [1, 2]⟩] ∧
      image [⟨5, [3]⟩, ⟨16, [1, 2]⟩] 17 = some 2 := by
  have hruns : ofLines [.data 16 [1, 2], { address := some 18 }, .data 5 [3]] =
      .ok [⟨5, [3]⟩, ⟨16, [1, 2]⟩] := by decide +kernel
  have hspared : [Line.data 16 [1, 2], { address := some 18 }, Line.data 5 [3]].Pairwise
      fun earlier later => ¬later.Hides earlier := by
    simp [Line.Hides, Line.data]
  refine ⟨hruns, ?_⟩
  exact (memory_of_ofLines hruns).2.2.2 hspared (.data 16 [1, 2]) List.mem_cons_self 16 [1, 2] rfl
    (by decide +kernel) 1 2 rfl

/-- A line without bytes at the address of a line with bytes: what that line holds is gone. -/
theorem ofLines_hides_bytes :
    (Line.data 4 [1, 2, 3]).bytes = .ok [1, 2, 3] ∧
      ofLines [.data 4 [1, 2, 3], { address := some 4 }] = .ok [⟨4, []⟩] ∧
      ∀ address, image [⟨4, []⟩] address = none := by
  refine ⟨by decide +kernel, by decide +kernel, ?_⟩
  intro address
  simp [image, byteAt]

end Run

end TwoPass
