import Mathlib.Data.List.Induction
import TwoPass.Proofs.Outcome
import TwoPass.Source.Symbols

/-!
# What symbols are after any definitions

Labels and constants are defined in any order, names may be tried again, and both kinds may share a
name.  What is kept is the first definition of each name of a kind, in the order of these first
definitions, and nothing else decides whether a further definition is taken.

Each kind is a list of its own, so that everything here is said once, about the list of a kind:
`entries_attempt` is the step that a definition makes in it, and `Lists` the invariant that relates
the list to the definitions so far.  A definition of the other kind is no step at all, so such
definitions can be left out (`entries_foldl_filter`, `reportFrom_filter`).
-/

namespace TwoPass.Symbols

/-! ## Definitions of either kind -/

/-- What a name can be. -/
inductive Kind where
  | label
  | constant
  deriving DecidableEq, Repr, Inhabited

/-- The fault of defining a name again. -/
def Kind.fault : Kind → Fault
  | label => .labelRedefined
  | constant => .constantRedefined

/-- A name of one kind and the value that it is to have. -/
structure Definition where
  kind : Kind
  name : Text
  value : UInt32
  deriving DecidableEq, Repr, Inhabited

/-- Whether a definition is one of a given name. -/
def Definition.defines (definition : Definition) (kind : Kind) (name : Text) : Bool :=
  definition.kind == kind && definition.name == name

/-- The names of one kind with their values. -/
def entries (symbols : Symbols) : Kind → List (Text × UInt32)
  | .label => symbols.labels
  | .constant => symbols.constants

/-- The names of one kind as they are listed. -/
def names (symbols : Symbols) (kind : Kind) : List Text := (symbols.entries kind).map Prod.fst

/-- Gives a name its value. -/
def define (symbols : Symbols) (definition : Definition) : Except Fault Symbols :=
  match definition.kind with
  | .label => symbols.defineLabel definition.name definition.value
  | .constant => symbols.defineConstant definition.name definition.value

/-- The symbols with a further entry. -/
def record (symbols : Symbols) (definition : Definition) : Symbols :=
  match definition.kind with
  | .label => { symbols with labels := symbols.labels ++ [(definition.name, definition.value)] }
  | .constant =>
    { symbols with constants := symbols.constants ++ [(definition.name, definition.value)] }

variable {symbols other : Symbols} {definition : Definition} {history : List Definition}
  {kind : Kind} {name : Text} {value : UInt32} {fault : Fault} {list : List (Text × UInt32)}

theorem defines_iff : definition.defines kind name = true ↔
    definition.kind = kind ∧ definition.name = name := by
  simp [Definition.defines]

theorem defines_eq_false_iff : definition.defines kind name = false ↔
    ¬(definition.kind = kind ∧ definition.name = name) := by
  rw [← Bool.not_eq_true, defines_iff]

theorem entries_record (symbols : Symbols) (definition : Definition) (kind : Kind) :
    (symbols.record definition).entries kind =
      if definition.kind = kind then symbols.entries kind ++ [(definition.name, definition.value)]
      else symbols.entries kind := by
  unfold record
  cases hkind : definition.kind <;> cases kind <;> rfl

/-! ## One definition -/

theorem define_of_none (hnew : (symbols.entries definition.kind).lookup definition.name = none) :
    symbols.define definition = .ok (symbols.record definition) := by
  unfold define record
  cases hkind : definition.kind <;> rw [hkind] at hnew
  · exact if_neg (by rw [label?, show symbols.labels.lookup _ = none from hnew]; decide)
  · exact if_neg (by rw [constant?, show symbols.constants.lookup _ = none from hnew]; decide)

theorem define_of_some
    (hknown : (symbols.entries definition.kind).lookup definition.name = some value) :
    symbols.define definition = .error definition.kind.fault := by
  unfold define
  cases hkind : definition.kind <;> rw [hkind] at hknown
  · exact if_pos (by rw [label?, show symbols.labels.lookup _ = some value from hknown]; rfl)
  · exact if_pos (by rw [constant?, show symbols.constants.lookup _ = some value from hknown]; rfl)

/-- A definition is refused if its name is known, whatever its value. -/
theorem define_eq_error_iff : symbols.define definition = .error fault ↔
    fault = definition.kind.fault ∧
      ((symbols.entries definition.kind).lookup definition.name).isSome := by
  cases hlookup : (symbols.entries definition.kind).lookup definition.name with
  | none => simp [define_of_none hlookup]
  | some value => simp [define_of_some hlookup, eq_comm]

/-- Tries to define a name.  A definition that is refused leaves the symbols as they were. -/
def attempt (symbols : Symbols) (definition : Definition) : Symbols :=
  match symbols.define definition with
  | .ok next => next
  | .error _ => symbols

/-- The fault for which a definition is refused, if it is. -/
def refusal? (symbols : Symbols) (definition : Definition) : Option Fault :=
  match symbols.define definition with
  | .ok _ => none
  | .error fault => some fault

theorem attempt_of_error (herror : symbols.define definition = .error fault) :
    symbols.attempt definition = symbols := by
  rw [attempt, herror]

/-- What a definition does to the entries of one kind. -/
theorem entries_attempt (symbols : Symbols) (definition : Definition) (kind : Kind) :
    (symbols.attempt definition).entries kind =
      if definition.kind = kind ∧ (symbols.entries kind).lookup definition.name = none then
        symbols.entries kind ++ [(definition.name, definition.value)]
      else symbols.entries kind := by
  cases hlookup : (symbols.entries definition.kind).lookup definition.name with
  | none =>
      rw [attempt, define_of_none hlookup, entries_record]
      by_cases hkind : definition.kind = kind
      · subst hkind
        simp [hlookup]
      · simp [hkind]
  | some value =>
      rw [attempt_of_error (define_of_some hlookup), if_neg]
      rintro ⟨rfl, hnone⟩
      rw [hlookup] at hnone
      cases hnone

theorem refusal?_eq (symbols : Symbols) (definition : Definition) :
    symbols.refusal? definition =
      if ((symbols.entries definition.kind).lookup definition.name).isSome then
        some definition.kind.fault
      else none := by
  cases hlookup : (symbols.entries definition.kind).lookup definition.name with
  | none => rw [refusal?, define_of_none hlookup]; rfl
  | some value => rw [refusal?, define_of_some hlookup]; rfl

/-! ## Histories -/

/-- The symbols after a history of attempts. -/
def ofHistory (history : List Definition) : Symbols := history.foldl attempt {}

/-- The definitions of a history, each with the fault for which it is refused, if it is. -/
def reportFrom (symbols : Symbols) : List Definition → List (Definition × Option Fault)
  | [] => []
  | definition :: rest =>
    (definition, symbols.refusal? definition) :: reportFrom (symbols.attempt definition) rest

/-- How the definitions of a history end. -/
def report (history : List Definition) : List (Definition × Option Fault) := reportFrom {} history

theorem ofHistory_append (history rest : List Definition) :
    ofHistory (history ++ rest) = rest.foldl attempt (ofHistory history) :=
  List.foldl_append

theorem ofHistory_concat (history : List Definition) (definition : Definition) :
    ofHistory (history ++ [definition]) = (ofHistory history).attempt definition :=
  ofHistory_append history [definition]

/-- A definition that is refused can be left out, whatever comes after it. -/
theorem ofHistory_of_error (herror : (ofHistory history).define definition = .error fault)
    (rest : List Definition) :
    ofHistory (history ++ definition :: rest) = ofHistory (history ++ rest) := by
  rw [ofHistory_append, ofHistory_append, List.foldl_cons, attempt_of_error herror]

/-! ### Definitions of one kind only -/

/-- The definitions of one kind. -/
def ofKind (kind : Kind) (history : List Definition) : List Definition :=
  history.filter (·.kind = kind)

theorem ofKind_cons_of_eq (hkind : definition.kind = kind) (rest : List Definition) :
    ofKind kind (definition :: rest) = definition :: ofKind kind rest :=
  List.filter_cons_of_pos (by simpa using hkind)

theorem ofKind_cons_of_ne (hkind : definition.kind ≠ kind) (rest : List Definition) :
    ofKind kind (definition :: rest) = ofKind kind rest :=
  List.filter_cons_of_neg (by simpa using hkind)

theorem entries_attempt_congr (hentries : symbols.entries kind = other.entries kind)
    (definition : Definition) :
    (symbols.attempt definition).entries kind = (other.attempt definition).entries kind := by
  rw [entries_attempt, entries_attempt, hentries]

theorem entries_attempt_of_ne (hkind : definition.kind ≠ kind) :
    (symbols.attempt definition).entries kind = symbols.entries kind := by
  rw [entries_attempt, if_neg fun h => hkind h.1]

/-- Definitions of the other kind do not touch the entries of a kind. -/
theorem entries_foldl_filter (hentries : symbols.entries kind = other.entries kind) :
    ((ofKind kind history).foldl attempt symbols).entries kind =
      (history.foldl attempt other).entries kind := by
  induction history generalizing symbols other with
  | nil => exact hentries
  | cons definition rest ih =>
      by_cases hkind : definition.kind = kind
      · rw [ofKind_cons_of_eq hkind]
        exact ih (entries_attempt_congr hentries definition)
      · rw [ofKind_cons_of_ne hkind]
        exact ih (hentries.trans (entries_attempt_of_ne hkind).symm)

/-- Nor do they change how the definitions of that kind end. -/
theorem reportFrom_filter (hentries : symbols.entries kind = other.entries kind) :
    reportFrom symbols (ofKind kind history) =
      (reportFrom other history).filter (·.1.kind = kind) := by
  induction history generalizing symbols other with
  | nil => rfl
  | cons definition rest ih =>
      rw [reportFrom]
      by_cases hkind : definition.kind = kind
      · have hrefusal : symbols.refusal? definition = other.refusal? definition := by
          rw [refusal?_eq, refusal?_eq, hkind, hentries]
        rw [ofKind_cons_of_eq hkind, reportFrom, List.filter_cons_of_pos (by simpa using hkind),
          hrefusal, ih (entries_attempt_congr hentries definition)]
      · rw [ofKind_cons_of_ne hkind, List.filter_cons_of_neg (by simpa using hkind),
          ih (hentries.trans (entries_attempt_of_ne hkind).symm)]

/-! ### The first definitions -/

/-- Where in a history a name is defined for the first time. -/
def firstIndex (history : List Definition) (kind : Kind) (name : Text) : Nat :=
  history.findIdx (·.defines kind name)

/-- A list of entries holds the first definition of each name of a kind, in the order of these
definitions. -/
structure Lists (kind : Kind) (history : List Definition) (list : List (Text × UInt32)) : Prop where
  lookup : ∀ name, list.lookup name =
    (history.find? (·.defines kind name)).map Definition.value
  order : (list.map Prod.fst).Pairwise fun earlier later =>
    firstIndex history kind earlier < firstIndex history kind later

theorem lists_nil (kind : Kind) : Lists kind [] [] where
  lookup := fun _ => rfl
  order := .nil

theorem Lists.lookup_isSome_iff (hlists : Lists kind history list) :
    (list.lookup name).isSome ↔ ∃ earlier ∈ history, earlier.kind = kind ∧ earlier.name = name := by
  rw [hlists.lookup, Option.isSome_map, List.find?_isSome]
  simp only [defines_iff]

theorem mem_names_iff : name ∈ list.map Prod.fst ↔ (list.lookup name).isSome := by
  simp only [List.lookup_isSome_iff, List.mem_map, beq_iff_eq, eq_comm (a := name)]

theorem Lists.mem_names_iff (hlists : Lists kind history list) :
    name ∈ list.map Prod.fst ↔ ∃ earlier ∈ history, earlier.kind = kind ∧ earlier.name = name := by
  rw [Symbols.mem_names_iff, hlists.lookup_isSome_iff]

theorem Lists.nodup (hlists : Lists kind history list) : (list.map Prod.fst).Nodup :=
  hlists.order.imp fun hlt heq => absurd hlt (by rw [heq]; exact Nat.lt_irrefl _)

theorem Lists.firstIndex_lt (hlists : Lists kind history list) (hmem : name ∈ list.map Prod.fst) :
    firstIndex history kind name < history.length := by
  simpa only [firstIndex, List.findIdx_lt_length, defines_iff] using hlists.mem_names_iff.mp hmem

theorem firstIndex_concat_of_lt (hlt : firstIndex history kind name < history.length)
    (definition : Definition) :
    firstIndex (history ++ [definition]) kind name = firstIndex history kind name := by
  rw [firstIndex, List.findIdx_append]
  exact if_pos hlt

/-- The places of the names that are listed already stay the same. -/
theorem Lists.order_concat (hlists : Lists kind history list) (definition : Definition) :
    (list.map Prod.fst).Pairwise fun earlier later =>
      firstIndex (history ++ [definition]) kind earlier <
        firstIndex (history ++ [definition]) kind later := by
  refine hlists.order.imp_of_mem fun hearlier hlater hlt => ?_
  rwa [firstIndex_concat_of_lt (hlists.firstIndex_lt hearlier),
    firstIndex_concat_of_lt (hlists.firstIndex_lt hlater)]

/-- A definition of another name, or of a name that is known, is not the first one of any name. -/
theorem Lists.keep (hlists : Lists kind history list)
    (hkeep : ¬(definition.kind = kind ∧ list.lookup definition.name = none)) :
    Lists kind (history ++ [definition]) list where
  lookup := by
    intro name
    rw [hlists.lookup, List.find?_append]
    cases hfind : history.find? (·.defines kind name) with
    | some first => rfl
    | none =>
        have hother : definition.defines kind name = false := by
          rw [defines_eq_false_iff]
          rintro ⟨hkind, rfl⟩
          exact hkeep ⟨hkind, by rw [hlists.lookup, hfind]; rfl⟩
        simp [hother]
  order := hlists.order_concat definition

/-- The first definition of a name joins the list at its end. -/
theorem Lists.add (hlists : Lists kind history list) (hkind : definition.kind = kind)
    (hnew : list.lookup definition.name = none) :
    Lists kind (history ++ [definition]) (list ++ [(definition.name, definition.value)]) where
  lookup := by
    intro name
    rw [List.lookup_append, hlists.lookup, List.find?_append]
    cases hfind : history.find? (·.defines kind name) with
    | some first => rfl
    | none =>
        by_cases hname : definition.name = name
        · have hdefines : definition.defines kind name = true := defines_iff.mpr ⟨hkind, hname⟩
          simp [hdefines, hname]
        · have hother : definition.defines kind name = false :=
            defines_eq_false_iff.mpr fun h => hname h.2
          have hapart : (name == definition.name) = false := beq_false_of_ne (Ne.symm hname)
          simp [hother, List.lookup_cons, hapart]
  order := by
    have hlast : history.length ≤ firstIndex (history ++ [definition]) kind definition.name := by
      have hnone : ¬ firstIndex history kind definition.name < history.length := by
        rw [firstIndex, List.findIdx_lt_length]
        simp only [defines_iff]
        rw [← hlists.lookup_isSome_iff, hnew]
        decide
      rw [firstIndex] at hnone ⊢
      rw [List.findIdx_append, if_neg hnone]
      exact Nat.le_add_left _ _
    rw [List.map_append, List.pairwise_append]
    refine ⟨hlists.order_concat definition, List.pairwise_singleton _ _, ?_⟩
    intro earlier hearlier later hlater
    have hlt := hlists.firstIndex_lt hearlier
    rw [firstIndex_concat_of_lt hlt, List.mem_singleton.mp hlater]
    exact Nat.lt_of_lt_of_le hlt hlast

theorem lists_ofHistory (history : List Definition) (kind : Kind) :
    Lists kind history ((ofHistory history).entries kind) := by
  induction history using List.reverseRecOn with
  | nil => cases kind <;> exact lists_nil _
  | append_singleton history definition ih =>
      rw [ofHistory_concat, entries_attempt]
      split
      next hfirst => exact ih.add hfirst.1 hfirst.2
      next hkeep => exact ih.keep hkeep

/-- A name has the value of its first definition of the kind.  A definition is refused if there is
one of the same kind and name before it, and then it might as well be left out.  Every defined name
of a kind is listed once, by the order of the first definitions, and one kind never shows in the
other: neither in its list nor in how its definitions end. -/
theorem first_of_history (history : List Definition) :
    (∀ name, (ofHistory history).label? name =
      (history.find? (·.defines .label name)).map Definition.value) ∧
    (∀ name, (ofHistory history).constant? name =
      (history.find? (·.defines .constant name)).map Definition.value) ∧
    (∀ definition fault, (ofHistory history).define definition = .error fault ↔
      fault = definition.kind.fault ∧
        ∃ earlier ∈ history, earlier.kind = definition.kind ∧ earlier.name = definition.name) ∧
    (∀ definition fault rest, (ofHistory history).define definition = .error fault →
      ofHistory (history ++ definition :: rest) = ofHistory (history ++ rest)) ∧
    (∀ kind, ((ofHistory history).names kind).Nodup ∧
      (∀ name, name ∈ (ofHistory history).names kind ↔
        ∃ definition ∈ history, definition.kind = kind ∧ definition.name = name) ∧
      ((ofHistory history).names kind).Pairwise fun earlier later =>
        firstIndex history kind earlier < firstIndex history kind later) ∧
    ∀ kind,
      (ofHistory (ofKind kind history)).entries kind = (ofHistory history).entries kind ∧
      report (ofKind kind history) = (report history).filter (·.1.kind = kind) := by
  have hlists := lists_ofHistory history
  refine ⟨(hlists .label).lookup, (hlists .constant).lookup, ?_, ?_, ?_, ?_⟩
  · intro definition fault
    rw [define_eq_error_iff, (hlists definition.kind).lookup_isSome_iff]
  · intro definition fault rest herror
    exact ofHistory_of_error herror rest
  · intro kind
    exact ⟨(hlists kind).nodup, fun _ => (hlists kind).mem_names_iff, (hlists kind).order⟩
  · intro kind
    exact ⟨entries_foldl_filter rfl, reportFrom_filter rfl⟩

/-- A label and a constant of one name, and a label that differs from both by its letter case. -/
def sharedName : List Definition :=
  [⟨.label, "X1".toList, 0x10⟩, ⟨.constant, "X1".toList, 0x20⟩, ⟨.label, "x1".toList, 0x30⟩]

theorem first_of_sharedName :
    (ofHistory sharedName).define ⟨.label, "X1".toList, 0x40⟩ = .error .labelRedefined ∧
      ofHistory (sharedName ++ ⟨.label, "X1".toList, 0x40⟩ :: [⟨.constant, "x1".toList, 0x50⟩]) =
        ofHistory (sharedName ++ [⟨.constant, "x1".toList, 0x50⟩]) ∧
      (ofHistory sharedName).label? "X1".toList = some 0x10 ∧
      (ofHistory sharedName).constant? "x1".toList = none ∧
      (ofHistory sharedName).names .label = ["X1".toList, "x1".toList] := by
  have herror : (ofHistory sharedName).define ⟨.label, "X1".toList, 0x40⟩ =
      .error .labelRedefined := by decide
  obtain ⟨hlabel, hconstant, -, hleft, -⟩ := first_of_history sharedName
  exact ⟨herror, hleft _ _ _ herror, hlabel _, hconstant _, by decide⟩

end TwoPass.Symbols
