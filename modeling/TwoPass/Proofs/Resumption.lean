import TwoPass.Proofs.Linking

/-!
# Stopping the second pass and going on with it

The second pass changes lines in place, and it may have changed some of them when it fails.  This
file shows that nothing is spoilt by that.  A line is filled in as a whole or not at all, the pass
ends at the first line that waits for a label it cannot fill in, and it does not touch that line or
any line after it.  So it can be run again when more labels are known: the lines that are done stay
as they are, and the others are filled in as if all labels had been known from the start.

* `link_eq_error_iff`, `exists_link_iff`: a single line, in terms of the labels that it waits for.
* `linkFrom_of_firstFault`: where the pass stops, by induction over the lines before that.
* `linkFrom_linkFrom`: two runs of the pass, by induction over the lines.  It is here that the
  labels of the second run have to include those of the first.
-/

namespace TwoPass

variable {symbols more : Symbols} {line after : Line} {lines : List Line} {name : Text}
  {fault : Fault} {index n : Nat}

/-- Every label of `symbols` is one of `more`, at the same address. -/
def Symbols.KeepsLabels (more symbols : Symbols) : Prop :=
  ∀ name address, symbols.label? name = some address → more.label? name = some address

namespace Line

/-! ## A single line -/

/-- Why a name cannot be filled in: it is no label, or the label is out of reach from the line. -/
inductive Unresolved (symbols : Symbols) (line : Line) (name : Text) : Fault → Prop
  | unknown (hlabel : symbols.label? name = none) : Unresolved symbols line name .unknownLabel
  | jump {target : UInt32} (hlabel : symbols.label? name = some target)
      (hmode : line.mode = some .extended) (hfar : 0xFFFF < target.toNat) :
      Unresolved symbols line name .jumpTooFar
  | branch {target : UInt32} (hlabel : symbols.label? name = some target)
      (hmode : line.mode ≠ some .extended) (hfar : ¬ line.Reaches target) :
      Unresolved symbols line name .branchTooFar

/-- All labels that a line waits for can be filled in. -/
def Resolvable (symbols : Symbols) (line : Line) : Prop :=
  ∀ entry ∈ line.pending, ∀ fault, ¬Unresolved symbols line entry.2 fault

/-- A line waits for a label that cannot be filled in.  Of several such labels the first counts. -/
def Stuck (symbols : Symbols) (line : Line) (fault : Fault) : Prop :=
  ∃ (k position : Nat) (name : Text), line.pending[k]? = some (position, name) ∧
    Unresolved symbols line name fault ∧
    ∀ j < k, ∀ entry : Nat × Text, line.pending[j]? = some entry →
      ∀ other, ¬Unresolved symbols line entry.2 other

theorem labelNumber_eq_error_iff :
    line.labelNumber symbols name = .error fault ↔ Unresolved symbols line name fault := by
  rw [labelNumber_eq_error]
  constructor
  · intro hcases
    rcases hcases with ⟨hlabel, rfl⟩ | ⟨target, hlabel, ⟨hmode, hfar, rfl⟩ | ⟨hmode, hfar, rfl⟩⟩
    · exact .unknown hlabel
    · exact .jump hlabel hmode (UInt32.lt_iff_toNat_lt.mp hfar)
    · exact .branch hlabel hmode hfar
  · intro hunresolved
    cases hunresolved with
    | unknown hlabel => exact .inl ⟨hlabel, rfl⟩
    | jump hlabel hmode hfar =>
        exact .inr ⟨_, hlabel, .inl ⟨hmode, UInt32.lt_iff_toNat_lt.mpr hfar, rfl⟩⟩
    | branch hlabel hmode hfar => exact .inr ⟨_, hlabel, .inr ⟨hmode, hfar, rfl⟩⟩

theorem exists_labelNumber_iff :
    (∃ number, line.labelNumber symbols name = .ok number) ↔
      ∀ fault, ¬Unresolved symbols line name fault := by
  simp only [← labelNumber_eq_error_iff]
  cases line.labelNumber symbols name <;> simp

/-- A line fails with the first of its labels that cannot be filled in. -/
theorem link_eq_error_iff : line.link symbols = .error fault ↔ Stuck symbols line fault := by
  unfold link
  rw [Outcome.map_eq_error, Outcome.mapM_eq_error]
  simp only [Outcome.FirstFault, Outcome.map_eq_error, Outcome.map_eq_ok]
  constructor
  · rintro ⟨k, ⟨⟨position, name⟩, hget, herror⟩, hbefore⟩
    refine ⟨k, position, name, hget, labelNumber_eq_error_iff.mp herror, ?_⟩
    intro j hj entry hentry
    obtain ⟨_, number, hnumber, -⟩ := hbefore j hj entry hentry
    exact exists_labelNumber_iff.mp ⟨number, hnumber⟩
  · rintro ⟨k, position, name, hget, hunresolved, hbefore⟩
    refine ⟨k, ⟨(position, name), hget, labelNumber_eq_error_iff.mpr hunresolved⟩, ?_⟩
    intro j hj entry hentry
    obtain ⟨number, hnumber⟩ := exists_labelNumber_iff.mpr (hbefore j hj entry hentry)
    exact ⟨_, number, hnumber, rfl⟩

theorem exists_link_iff : (∃ after, line.link symbols = .ok after) ↔ Resolvable symbols line := by
  unfold link Resolvable
  simp only [← exists_labelNumber_iff, Outcome.map_eq_ok]
  constructor
  · rintro ⟨-, numbers, hnumbers, -⟩ entry hentry
    obtain ⟨k, hget⟩ := List.getElem?_of_mem hentry
    obtain ⟨_, -, hentry⟩ := Outcome.getElem?_of_forall₂ (Outcome.mapM_eq_ok.mp hnumbers) hget
    obtain ⟨number, hnumber, -⟩ := Outcome.map_eq_ok.mp hentry
    exact ⟨number, hnumber⟩
  · intro hall
    have hentries : ∀ entry ∈ line.pending, ∃ placed,
        (line.labelNumber symbols entry.2).map (entry.1, ·) = .ok placed := by
      intro entry hentry
      obtain ⟨number, hnumber⟩ := hall entry hentry
      exact ⟨_, Outcome.map_eq_ok.mpr ⟨number, hnumber, rfl⟩⟩
    obtain ⟨numbers, hnumbers⟩ := Outcome.exists_mapM_eq_ok hentries
    exact ⟨_, numbers, hnumbers, rfl⟩

/-- What has been filled in with some labels is filled in alike with more of them. -/
theorem link_of_keepsLabels (hkeeps : more.KeepsLabels symbols)
    (hlink : line.link symbols = .ok after) : line.link more = .ok after := by
  obtain ⟨numbers, hnumbers, rfl⟩ := Outcome.map_eq_ok.mp hlink
  refine Outcome.map_eq_ok.mpr ⟨numbers, ?_, rfl⟩
  refine Outcome.mapM_eq_ok_of_imp hnumbers fun entry _ placed _ hplaced => ?_
  obtain ⟨number, hnumber, hpair⟩ := Outcome.map_eq_ok.mp hplaced
  obtain ⟨target, hlabel, hreach⟩ := labelNumber_eq_ok.mp hnumber
  exact Outcome.map_eq_ok.mpr
    ⟨number, labelNumber_eq_ok.mpr ⟨target, hkeeps _ _ hlabel, hreach⟩, hpair⟩

theorem pending_of_link (hlink : line.link symbols = .ok after) : after.pending = [] := by
  rw [link_frame hlink]

/-! ## Where the pass stops -/

/-- Line `n` is the first one that waits for a label that cannot be filled in. -/
structure StopsAt (symbols : Symbols) (lines : List Line) (n : Nat) (fault : Fault) : Prop where
  stuck : ∃ line, lines[n]? = some line ∧ Stuck symbols line fault
  first : ∀ m < n, ∀ line, lines[m]? = some line → Resolvable symbols line

theorem stopsAt_iff :
    StopsAt symbols lines n fault ↔ Outcome.FirstFault (link symbols) lines n fault := by
  simp only [Outcome.FirstFault, link_eq_error_iff, exists_link_iff]
  exact ⟨fun hstops => ⟨hstops.stuck, hstops.first⟩, fun hfirst => ⟨hfirst.1, hfirst.2⟩⟩

theorem linkAll_eq_some :
    (linkAll symbols lines).2 = some ⟨n, fault⟩ ↔ StopsAt symbols lines n fault := by
  rw [stopsAt_iff, linkAll, linkFrom_eq_some]
  simp

/-- The lines before the first fault are filled in as if there were no others; the others stay. -/
theorem linkFrom_of_firstFault (index : Nat)
    (hfirst : Outcome.FirstFault (link symbols) lines n fault) :
    (linkFrom symbols index lines).1.drop n = lines.drop n ∧
      linkFrom symbols index (lines.take n) =
        ((linkFrom symbols index lines).1.take n, none) := by
  induction lines generalizing index n with
  | nil => exact absurd hfirst Outcome.not_firstFault_nil
  | cons line rest ih =>
      cases hlink : line.link symbols with
      | error other =>
          obtain ⟨rfl, -⟩ := (Outcome.firstFault_cons_of_error hlink).mp hfirst
          simp [linkFrom, hlink]
      | ok after =>
          obtain ⟨m, rfl, hlater⟩ := (Outcome.firstFault_cons_of_ok hlink).mp hfirst
          obtain ⟨hdrop, htake⟩ := ih (index + 1) hlater
          simp [linkFrom, hlink, hdrop, htake]

/-! ## Running the pass again -/

theorem linkFrom_of_settled (hsettled : ∀ line ∈ lines, line.pending = []) :
    linkFrom symbols index lines = (lines, none) := by
  rw [linkFrom_eq_none, List.forall₂_same]
  exact fun line hline => link_of_settled symbols line (hsettled line hline)

/-- Whatever the pass has done with fewer labels makes no difference to what it does now. -/
theorem linkFrom_linkFrom (hkeeps : more.KeepsLabels symbols) :
    linkFrom more index (linkFrom symbols index lines).1 = linkFrom more index lines := by
  induction lines generalizing index with
  | nil => rfl
  | cons line rest ih =>
      cases hlink : line.link symbols with
      | error fault =>
          -- The first run has stopped here and has left everything as it was.
          simp only [linkFrom, hlink]
      | ok after =>
          have hagain : after.link more = .ok after :=
            link_of_settled more after (pending_of_link hlink)
          simp only [linkFrom, hlink, hagain, link_of_keepsLabels hkeeps hlink, ih]

/-- How the second pass ends, for lines of any kind.  It fails exactly at the first line that waits
for a label that cannot be filled in; that line and all later ones are as they were, and those
before it are as the pass over them alone leaves them.  If it succeeds, no line waits for anything,
at most the operands have changed and only in lines that were waiting, and a second pass changes
nothing.  A second pass with more labels leads to what it leads to without the first one, whether
that has failed or not. -/
theorem linkAll_resumes (symbols : Symbols) (lines : List Line) :
    (∀ n fault, (linkAll symbols lines).2 = some ⟨n, fault⟩ ↔ StopsAt symbols lines n fault) ∧
    (∀ linked n fault, linkAll symbols lines = (linked, some ⟨n, fault⟩) →
      linked.drop n = lines.drop n ∧
        linkAll symbols (lines.take n) = (linked.take n, none)) ∧
    (∀ linked, linkAll symbols lines = (linked, none) →
      (∀ line ∈ linked, line.isPending = false) ∧
      List.Forall₂ (fun line after =>
        after = { line with operands := after.operands, pending := [] } ∧
          (line.isPending = false → after = line)) lines linked ∧
      linkAll symbols linked = (linked, none)) ∧
    (∀ more : Symbols, more.KeepsLabels symbols →
      linkAll more (linkAll symbols lines).1 = linkAll more lines) := by
  refine ⟨fun n fault => linkAll_eq_some, ?_, ?_, fun more hkeeps => linkFrom_linkFrom hkeeps⟩
  · intro linked n fault hresult
    have hfirst := stopsAt_iff.mp (linkAll_eq_some.mp (congrArg Prod.snd hresult))
    have hparts := linkFrom_of_firstFault 0 hfirst
    rw [show linkFrom symbols 0 lines = (linked, some ⟨n, fault⟩) from hresult] at hparts
    exact hparts
  · intro linked hresult
    have hall := linkFrom_eq_none.mp hresult
    have hsettled : ∀ line ∈ linked, line.pending = [] := by
      intro line hline
      obtain ⟨k, hget⟩ := List.getElem?_of_mem hline
      obtain ⟨before, -, hlink⟩ := Outcome.getElem?_of_forall₂_right hall hget
      exact pending_of_link hlink
    refine ⟨fun line hline => by rw [isPending, hsettled line hline]; rfl, ?_,
      linkFrom_of_settled hsettled⟩
    refine hall.imp fun line after hlink => ⟨link_frame hlink, fun hidle => ?_⟩
    have hnone : line.pending = [] := by simpa [isPending] using hidle
    rw [link_of_settled symbols line hnone] at hlink
    exact (Except.ok.inj hlink).symm

/-- A branch to `A`, a line that waits for `A` and `B`, and a jump to `B`. -/
def waitingLines : List Line :=
  [{ address := some 0x100, opcode := some (.short 0x20), mode := some .relative,
     pending := [(0, "A".toList)], size := 2 },
   { address := some 0x102, opcode := some (.short 0x12), mode := some .direct, operands := [5],
     pending := [(0, "A".toList), (2, "B".toList)], size := 4 },
   { address := some 0x106, opcode := some (.short 0x7E), mode := some .extended,
     pending := [(0, "B".toList)], size := 3 }]

def fewLabels : Symbols := { labels := [("A".toList, 0x100)] }

def allLabels : Symbols := { labels := [("B".toList, 0x109), ("A".toList, 0x100)] }

theorem linkAll_resumes_waitingLines :
    StopsAt fewLabels waitingLines 1 .unknownLabel ∧
      (linkAll fewLabels waitingLines).1.drop 1 = waitingLines.drop 1 ∧
      linkAll allLabels (linkAll fewLabels waitingLines).1 = linkAll allLabels waitingLines ∧
      (linkAll allLabels waitingLines).1.map (·.operands) = [[-2], [-6, 5, 3], [0x109]] := by
  have hkeeps : allLabels.KeepsLabels fewLabels := by
    intro name address hlabel
    rw [Symbols.label?, fewLabels, List.lookup_cons] at hlabel
    split at hlabel
    next hname =>
      rw [eq_of_beq hname]
      exact hlabel
    next => cases hlabel
  obtain ⟨hstops, hfailed, -, hresumed⟩ := linkAll_resumes fewLabels waitingLines
  have hresult : (linkAll fewLabels waitingLines).2 = some ⟨1, .unknownLabel⟩ := by decide +kernel
  exact ⟨(hstops 1 .unknownLabel).mp hresult, (hfailed _ 1 _ (Prod.ext rfl hresult)).1,
    hresumed allLabels hkeeps, by decide +kernel⟩

end Line

end TwoPass
