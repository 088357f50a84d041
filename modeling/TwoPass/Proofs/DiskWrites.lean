import TwoPass.File.Disk
import TwoPass.Proofs.Outcome

/-!
# Writing files

What a written file changes on a disk and what it does not.  Files are identified by the place that
a path leads to, since several paths can lead to the same place.

* `lookup_write`: the place that has been written holds the new bytes, every other place what it
  held before.
* `locate_write`: every path leads where it led before.  A path leads through directories only, and
  a file that is written takes the place of none of them.

Hence whether a file can be written does not depend on what has been written before
(`canWrite_write`), and files that are written one after the other do not disturb each other
(`Written.lookup_eq`, `Written.sameExcept`).
-/

namespace TwoPass.Disk

variable {disk next : Disk} {path other : Text} {bytes : List UInt8} {place names : List Text}

/-! ## One file -/

/-- A path at which a file can be created or replaced. -/
def CanWrite (disk : Disk) (path : Text) : Prop :=
  ∃ place, disk.locate path = .ok place ∧ disk.hasDirectory place = false

theorem write_eq_ok : disk.write path bytes = .ok next ↔
    ∃ place, disk.locate path = .ok place ∧ disk.hasDirectory place = false ∧
      next = { disk with files := bindKey place bytes disk.files } := by
  unfold write
  cases hlocate : disk.locate path with
  | error error => simp
  | ok place =>
      cases hdirectory : disk.hasDirectory place with
      | true => simp [hdirectory]
      | false => simp [hdirectory, @eq_comm _ next]

theorem CanWrite.exists_write (hwritable : disk.CanWrite path) (bytes : List UInt8) :
    ∃ next, disk.write path bytes = .ok next := by
  obtain ⟨place, hlocate, hdirectory⟩ := hwritable
  exact ⟨_, write_eq_ok.mpr ⟨place, hlocate, hdirectory, rfl⟩⟩

theorem lookup_write (hwrite : disk.write path bytes = .ok next)
    (hlocate : disk.locate path = .ok place) (names : List Text) :
    next.files.lookup names = if names = place then some bytes else disk.files.lookup names := by
  obtain ⟨place', hlocate', -, rfl⟩ := write_eq_ok.mp hwrite
  obtain rfl : place' = place := Except.ok.inj (hlocate'.symm.trans hlocate)
  rw [lookup_bindKey]
  by_cases hnames : names = place' <;> simp [hnames]

/-- A file that is written makes no directory and takes the place of none. -/
theorem hasDirectory_write (hwrite : disk.write path bytes = .ok next) (names : List Text) :
    next.hasDirectory names = disk.hasDirectory names := by
  obtain ⟨place, -, -, rfl⟩ := write_eq_ok.mp hwrite
  rfl

theorem hasFile_write (hwrite : disk.write path bytes = .ok next)
    (hlocate : disk.locate path = .ok place) (names : List Text) :
    next.hasFile names = (decide (names = place) || disk.hasFile names) := by
  rw [hasFile, lookup_write hwrite hlocate, hasFile]
  by_cases hnames : names = place <;> simp [hnames]

/-! ## Paths lead where they led -/

/-- Where a name leads from a directory, both given in reverse.  A name that is too long leads
nowhere. -/
def enter (directory : List Text) (name : Text) : Option (List Text) :=
  if name.isEmpty || name == ['.'] then some directory
  else if name == above then some directory.tail
  else if maxNameLength < (Utf8.encode name).length then none
  else some (name :: directory)

/-- A name is followed from a directory that is there and is no file. -/
theorem follow_cons_eq_ok {directory found : List Text} {name : Text} :
    disk.follow directory (name :: names) = .ok found ↔
      disk.hasFile directory.reverse = false ∧ disk.hasDirectory directory.reverse = true ∧
        ∃ inner, enter directory name = some inner ∧ disk.follow inner names = .ok found := by
  rw [follow, enter]
  cases disk.hasFile directory.reverse with
  | true => simp
  | false =>
      cases disk.hasDirectory directory.reverse with
      | false => simp
      | true =>
          simp only [Bool.false_eq_true, if_false, Bool.not_true, true_and]
          repeat' split
          all_goals simp

theorem follow_of_locate (hlocate : disk.locate path = .ok place) :
    disk.follow (disk.origin path) (path.splitOn '/') = .ok place := by
  unfold locate at hlocate
  repeat' split at hlocate
  any_goals cases hlocate
  exact hlocate

/-- A name that is not made of points leads further down. -/
theorem enter_of_proper {directory inner : List Text} {name : Text} (hname : ∃ c ∈ name, c ≠ '.')
    (henter : enter directory name = some inner) : inner = name :: directory := by
  obtain ⟨c, hmem, hpoint⟩ := hname
  have hhere : (name.isEmpty || name == ['.']) = false := by
    rw [Bool.or_eq_false_iff, List.isEmpty_eq_false_iff, beq_eq_false_iff_ne]
    refine ⟨List.ne_nil_of_mem hmem, fun heq => hpoint ?_⟩
    rw [heq] at hmem
    exact List.mem_singleton.mp hmem
  have habove : (name == above) = false := by
    rw [beq_eq_false_iff_ne]
    rintro rfl
    simp [above, hpoint] at hmem
  rw [enter, hhere, habove, if_neg Bool.false_ne_true, if_neg Bool.false_ne_true] at henter
  split at henter
  next => cases henter
  next => exact (Option.some.inj henter).symm

/-- A path that does not end with points leads to something of its last name. -/
theorem follow_concat {directory : List Text} {name : Text} (hname : ∃ c ∈ name, c ≠ '.')
    (hfollow : disk.follow directory (names ++ [name]) = .ok place) :
    ∃ outer, place = outer ++ [name] := by
  induction names generalizing directory with
  | nil =>
      obtain ⟨-, -, inner, henter, hend⟩ := follow_cons_eq_ok.mp hfollow
      rw [follow, enter_of_proper hname henter, List.reverse_cons] at hend
      exact ⟨directory.reverse, (Except.ok.inj hend).symm⟩
  | cons first rest ih =>
      obtain ⟨-, -, inner, -, hrest⟩ := follow_cons_eq_ok.mp hfollow
      exact ih hrest

/-- A path cannot lead through the file that has been written, neither before nor after. -/
theorem follow_write (hwrite : disk.write path bytes = .ok next) {directory found : List Text} :
    next.follow directory names = .ok found ↔ disk.follow directory names = .ok found := by
  obtain ⟨place, hlocate, hplace, -⟩ := write_eq_ok.mp hwrite
  induction names generalizing directory with
  | nil => rw [follow, follow]
  | cons name rest ih =>
      simp only [follow_cons_eq_ok, hasFile_write hwrite hlocate, hasDirectory_write hwrite, ih]
      by_cases hthrough : directory.reverse = place
      · simp [hthrough, hplace]
      · simp [hthrough]

theorem locate_write (hwrite : disk.write path bytes = .ok next) :
    next.locate other = .ok names ↔ disk.locate other = .ok names := by
  have horigin : next.origin other = disk.origin other := by
    obtain ⟨place, -, -, rfl⟩ := write_eq_ok.mp hwrite
    rfl
  unfold locate
  rw [horigin]
  split
  next => rfl
  next =>
    split
    next => rfl
    next =>
      split
      next => rfl
      next => exact follow_write hwrite

theorem canWrite_write (hwrite : disk.write path bytes = .ok next) :
    next.CanWrite other ↔ disk.CanWrite other := by
  simp only [CanWrite, locate_write hwrite, hasDirectory_write hwrite]

/-! ## Several files -/

/-- Files written one after the other, each as a path and its bytes. -/
inductive Written : Disk → List (Text × List UInt8) → Disk → Prop
  | nil {disk : Disk} : Written disk [] disk
  | cons {disk next final : Disk} {path : Text} {bytes : List UInt8}
      {rest : List (Text × List UInt8)} (hwrite : disk.write path bytes = .ok next)
      (hrest : Written next rest final) : Written disk ((path, bytes) :: rest) final

/-- Two disks that differ at most in the files at the places that some paths lead to. -/
structure SameExcept (disk final : Disk) (paths : List Text) : Prop where
  current : final.current = disk.current
  directories : final.directories = disk.directories
  files : ∀ names, (∀ path ∈ paths, disk.locate path ≠ .ok names) →
    final.files.lookup names = disk.files.lookup names

variable {final : Disk} {writes : List (Text × List UInt8)}

theorem Written.locate_iff (hwritten : Written disk writes final) :
    final.locate other = .ok names ↔ disk.locate other = .ok names := by
  induction hwritten with
  | nil => rfl
  | cons hwrite _ ih => rw [ih, locate_write hwrite]

theorem sameExcept_refl (disk : Disk) (paths : List Text) : disk.SameExcept disk paths :=
  ⟨rfl, rfl, fun _ _ => rfl⟩

theorem SameExcept.mono {paths more : List Text} (hsame : disk.SameExcept final paths)
    (hpaths : ∀ path ∈ paths, path ∈ more) : disk.SameExcept final more where
  current := hsame.current
  directories := hsame.directories
  files := fun names hother => hsame.files names fun path hmem => hother path (hpaths path hmem)

/-- What a single file does not change is not changed by it and the next ones either. -/
theorem SameExcept.of_write {rest : List Text} (hwrite : disk.write path bytes = .ok next)
    (hrest : next.SameExcept final rest) : disk.SameExcept final (path :: rest) := by
  obtain ⟨place, hlocate, -, hnext⟩ := write_eq_ok.mp hwrite
  refine ⟨?_, ?_, ?_⟩
  · rw [hrest.current, hnext]
  · rw [hrest.directories, hnext]
  · intro names hother
    obtain ⟨hfirst, hlater⟩ := List.forall_mem_cons.mp hother
    have hspared : ∀ other ∈ rest, next.locate other ≠ .ok names :=
      fun other hmem hthere => hlater other hmem ((locate_write hwrite).mp hthere)
    have hnames : names ≠ place := fun heq => hfirst (heq ▸ hlocate)
    rw [hrest.files names hspared, lookup_write hwrite hlocate, if_neg hnames]

theorem Written.sameExcept (hwritten : Written disk writes final) :
    disk.SameExcept final (writes.map Prod.fst) := by
  induction hwritten with
  | nil => exact sameExcept_refl _ _
  | cons hwrite _ ih => exact .of_write hwrite ih

/-- A file that has been written holds its bytes at the end, if nothing else has been written to its
place. -/
theorem Written.lookup_eq (hwritten : Written disk writes final) (hmem : (path, bytes) ∈ writes)
    (hlocate : disk.locate path = .ok place)
    (honly : ∀ other bytes', (other, bytes') ∈ writes → disk.locate other = .ok place →
      bytes' = bytes) :
    final.files.lookup place = some bytes := by
  induction hwritten generalizing path with
  | nil => cases hmem
  | @cons disk next final first bytes' rest hwrite hrest ih =>
      have honly' : ∀ other bytes', (other, bytes') ∈ rest → next.locate other = .ok place →
          bytes' = bytes := fun other bytes' hin hthere =>
        honly other bytes' (List.mem_cons_of_mem _ hin) ((locate_write hwrite).mp hthere)
      by_cases hagain : ∃ other bytes', (other, bytes') ∈ rest ∧ next.locate other = .ok place
      · -- It is written once more, with the same bytes.
        obtain ⟨other, bytes', hin, hthere⟩ := hagain
        obtain rfl := honly' other bytes' hin hthere
        exact ih hin hthere honly'
      · have hhead : (path, bytes) = (first, bytes') := by
          rcases List.mem_cons.mp hmem with heq | hin
          · exact heq
          · exact absurd ⟨path, bytes, hin, (locate_write hwrite).mpr hlocate⟩ hagain
        obtain ⟨rfl, rfl⟩ := Prod.mk.inj hhead
        have hspared : ∀ other ∈ rest.map Prod.fst, next.locate other ≠ .ok place := by
          intro other hin hthere
          obtain ⟨⟨other', bytes'⟩, hin', rfl⟩ := List.mem_map.mp hin
          exact hagain ⟨other', bytes', hin', hthere⟩
        rw [hrest.sameExcept.files place hspared, lookup_write hwrite hlocate, if_pos rfl]

theorem read_of_lookup (hlocate : disk.locate path = .ok place)
    (hlookup : disk.files.lookup place = some bytes) : disk.read path = .ok bytes := by
  rw [read, hlocate]
  simp only [hlookup]

end TwoPass.Disk
