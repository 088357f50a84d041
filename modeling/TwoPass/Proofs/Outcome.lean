import Mathlib.Data.List.Forall2

/-!
# Results that can be faults

Everything that can fail returns an `Except`.  The lemmas of this file take a result apart: a
sequence of steps succeeds exactly if each step does, and a list of results fails with its first
fault.  Later files never look into `bind` or `mapM` themselves.
-/

namespace TwoPass.Outcome

variable {ε α β : Type} {x : Except ε α} {a : α} {b : β} {fault : ε}

theorem pure_eq_ok {a' : α} : (pure a : Except ε α) = .ok a' ↔ a = a' := by
  simp [pure, Except.pure]

/-- Two steps in sequence succeed if the first does and the second does with its result. -/
theorem bind_eq_ok {f : α → Except ε β} :
    x >>= f = .ok b ↔ ∃ a, x = .ok a ∧ f a = .ok b := by
  cases x <;> simp [bind, Except.bind]

/-- They fail if the first does, or if the second does after it. -/
theorem bind_eq_error {f : α → Except ε β} :
    x >>= f = .error fault ↔ x = .error fault ∨ ∃ a, x = .ok a ∧ f a = .error fault := by
  cases x <;> simp [bind, Except.bind]

theorem map_eq_ok {f : α → β} : x.map f = .ok b ↔ ∃ a, x = .ok a ∧ f a = b := by
  cases x <;> simp [Except.map]

theorem map_eq_error {f : α → β} : x.map f = .error fault ↔ x = .error fault := by
  cases x <;> simp [Except.map]

theorem map_map {γ : Type} {f : α → β} {g : β → γ} : (x.map f).map g = x.map fun a => g (f a) := by
  cases x <;> rfl

/-- A value that has to be there. -/
theorem elim_eq_ok {o : Option α} :
    o.elim (.error fault) .ok = (.ok a : Except ε α) ↔ o = some a := by
  cases o <;> simp

theorem elim_eq_error {o : Option α} {other : ε} :
    o.elim (.error fault) .ok = (.error other : Except ε α) ↔ o = none ∧ fault = other := by
  cases o <;> simp

/-! ## Which faults can occur -/

/-- Every fault of a result has a property. -/
def FailsOnly (p : ε → Prop) (x : Except ε α) : Prop := ∀ fault, x = .error fault → p fault

section FailsOnly

variable {p : ε → Prop}

@[simp] theorem failsOnly_ok (a : α) : FailsOnly p (.ok a : Except ε α) := by
  intro fault herror
  cases herror

@[simp] theorem failsOnly_error : FailsOnly p (.error fault : Except ε α) ↔ p fault := by
  simp [FailsOnly]

@[simp] theorem failsOnly_elim (o : Option α) :
    FailsOnly p (o.elim (.error fault) .ok : Except ε α) ↔ (o = none → p fault) := by
  cases o <;> simp

theorem FailsOnly.bind {f : α → Except ε β} (hx : FailsOnly p x) (hf : ∀ a, FailsOnly p (f a)) :
    FailsOnly p (x >>= f) := by
  cases x with
  | error fault => exact failsOnly_error.mpr (hx fault rfl)
  | ok a => exact hf a

theorem FailsOnly.map {f : α → β} (hx : FailsOnly p x) : FailsOnly p (x.map f) :=
  fun fault herror => hx fault (map_eq_error.mp herror)

end FailsOnly

section Lists

variable {f : α → Except ε β} {as : List α} {bs : List β}

theorem mapM_cons_of_ok (hfirst : f a = .ok b) : (a :: as).mapM f = (as.mapM f).map (b :: ·) := by
  rw [List.mapM_cons, hfirst]
  cases as.mapM f <;> rfl

theorem mapM_cons_of_error (hfirst : f a = .error fault) : (a :: as).mapM f = .error fault := by
  rw [List.mapM_cons, hfirst]
  rfl

/-- A list of results succeeds element by element. -/
theorem mapM_eq_ok : as.mapM f = .ok bs ↔ List.Forall₂ (fun a b => f a = .ok b) as bs := by
  induction as generalizing bs with
  | nil => rw [List.mapM_nil, pure_eq_ok, List.forall₂_nil_left_iff, eq_comm]
  | cons a as ih =>
      rw [List.forall₂_cons_left_iff]
      cases hfirst : f a with
      | error fault => simp [mapM_cons_of_error hfirst]
      | ok b =>
          rw [mapM_cons_of_ok hfirst, map_eq_ok]
          simp only [ih, Except.ok.injEq]
          constructor
          · rintro ⟨rest, hrest, rfl⟩
            exact ⟨b, rest, rfl, hrest, rfl⟩
          · rintro ⟨_, rest, rfl, hrest, rfl⟩
            exact ⟨rest, hrest, rfl⟩

theorem exists_mapM_eq_ok (hall : ∀ a ∈ as, ∃ b, f a = .ok b) : ∃ bs, as.mapM f = .ok bs := by
  induction as with
  | nil => exact ⟨[], rfl⟩
  | cons a as ih =>
      obtain ⟨b, hfirst⟩ := hall a List.mem_cons_self
      obtain ⟨bs, hrest⟩ := ih fun a' ha' => hall a' (List.mem_cons_of_mem _ ha')
      exact ⟨b :: bs, mapM_eq_ok.mpr (.cons hfirst (mapM_eq_ok.mp hrest))⟩

/-- Another function gives the same results if it agrees wherever the first one succeeds. -/
theorem mapM_eq_ok_of_imp {g : α → Except ε β} (hmap : as.mapM f = .ok bs)
    (hagree : ∀ a ∈ as, ∀ b ∈ bs, f a = .ok b → g a = .ok b) : as.mapM g = .ok bs := by
  have hall := mapM_eq_ok.mp hmap
  clear hmap
  apply mapM_eq_ok.mpr
  induction hall with
  | nil => exact .nil
  | cons hfirst _ ih =>
      refine .cons (hagree _ List.mem_cons_self _ List.mem_cons_self hfirst) (ih ?_)
      intro a ha b hb
      exact hagree a (List.mem_cons_of_mem _ ha) b (List.mem_cons_of_mem _ hb)

/-- Lists whose elements have the same results one by one have the same result. -/
theorem mapM_congr_forall₂ {others : List α}
    (hall : List.Forall₂ (fun a other => f a = f other) as others) : as.mapM f = others.mapM f := by
  induction hall with
  | nil => rfl
  | cons hfirst _ ih => rw [List.mapM_cons, List.mapM_cons, hfirst, ih]

/-- If the results of another function are those of the first one, changed by their positions, so is
the whole list. -/
theorem mapM_eq_ok_mapIdx {g : α → Except ε β} {change : Nat → β → β} (hmap : as.mapM f = .ok bs)
    (hagree : ∀ i a b, as[i]? = some a → f a = .ok b → g a = .ok (change i b)) :
    as.mapM g = .ok (bs.mapIdx change) := by
  have hall := mapM_eq_ok.mp hmap
  clear hmap
  induction hall generalizing change with
  | nil => rfl
  | cons hfirst _ ih =>
      have hrest := ih fun i a b hget => hagree (i + 1) a b hget
      rw [mapM_cons_of_ok (hagree 0 _ _ rfl hfirst), hrest, List.mapIdx_cons]
      rfl

/-- Element `i` is the first of a list that fails, with the given fault. -/
def FirstFault (f : α → Except ε β) (as : List α) (i : Nat) (fault : ε) : Prop :=
  (∃ a, as[i]? = some a ∧ f a = .error fault) ∧
    ∀ j < i, ∀ a, as[j]? = some a → ∃ b, f a = .ok b

theorem not_firstFault_nil {i : Nat} : ¬FirstFault f [] i fault := by
  simp [FirstFault]

/-- If the head of a list succeeds, the first fault lies in the tail. -/
theorem firstFault_cons_of_ok {i : Nat} (hfirst : f a = .ok b) :
    FirstFault f (a :: as) i fault ↔ ∃ j, i = j + 1 ∧ FirstFault f as j fault := by
  constructor
  · rintro ⟨⟨a', hget, hfault⟩, hbefore⟩
    cases i with
    | zero =>
        cases hget
        rw [hfirst] at hfault
        cases hfault
    | succ i =>
        exact ⟨i, rfl, ⟨a', hget, hfault⟩, fun j hj a'' hget' =>
          hbefore (j + 1) (by omega) a'' hget'⟩
  · rintro ⟨i, rfl, hhere, hbefore⟩
    refine ⟨hhere, fun j hj a' hget => ?_⟩
    cases j with
    | zero =>
        cases hget
        exact ⟨b, hfirst⟩
    | succ j => exact hbefore j (by omega) a' hget

/-- If the head of a list fails, that is the first fault. -/
theorem firstFault_cons_of_error {i : Nat} {other : ε} (hfirst : f a = .error other) :
    FirstFault f (a :: as) i fault ↔ i = 0 ∧ other = fault := by
  constructor
  · rintro ⟨⟨a', hget, hfault⟩, hbefore⟩
    cases i with
    | zero =>
        cases hget
        rw [hfirst] at hfault
        exact ⟨rfl, by simpa using hfault⟩
    | succ i =>
        obtain ⟨b, hok⟩ := hbefore 0 (Nat.succ_pos i) a rfl
        rw [hfirst] at hok
        cases hok
  · rintro ⟨rfl, rfl⟩
    exact ⟨⟨a, rfl, hfirst⟩, fun j hj => absurd hj (Nat.not_lt_zero j)⟩

/-- A list of results fails with its first fault. -/
theorem mapM_eq_error : as.mapM f = .error fault ↔ ∃ i, FirstFault f as i fault := by
  induction as with
  | nil => simp [not_firstFault_nil, pure, Except.pure]
  | cons a as ih =>
      cases hfirst : f a with
      | error other => simp [mapM_cons_of_error hfirst, firstFault_cons_of_error hfirst]
      | ok b =>
          rw [mapM_cons_of_ok hfirst, map_eq_error, ih]
          simp [firstFault_cons_of_ok hfirst]

theorem FailsOnly.mapM {p : ε → Prop} (hall : ∀ a ∈ as, FailsOnly p (f a)) :
    FailsOnly p (as.mapM f) := by
  intro fault herror
  obtain ⟨i, ⟨a, hget, hfault⟩, -⟩ := mapM_eq_error.mp herror
  exact hall a (List.mem_of_getElem? hget) fault hfault

/-! ### Steps that depend on each other -/

theorem foldlM_concat {step : β → α → Except ε β} {init : β} :
    (as ++ [a]).foldlM step init = as.foldlM step init >>= fun state => step state a := by
  rw [List.foldlM_append]
  simp only [List.foldlM_cons, List.foldlM_nil, bind_pure]

/-- A sequence of steps fails at the first step that does. -/
theorem foldlM_eq_error {step : β → α → Except ε β} {init : β} :
    as.foldlM step init = .error fault ↔
      ∃ front a back state, as = front ++ a :: back ∧ front.foldlM step init = .ok state ∧
        step state a = .error fault := by
  constructor
  · intro herror
    induction as generalizing init with
    | nil => cases herror
    | cons first rest ih =>
        rw [List.foldlM_cons] at herror
        rcases bind_eq_error.mp herror with hfirst | ⟨next, hfirst, hrest⟩
        · exact ⟨[], first, rest, init, rfl, rfl, hfirst⟩
        · obtain ⟨front, a, back, state, rfl, hfront, hstep⟩ := ih hrest
          refine ⟨first :: front, a, back, state, rfl, ?_, hstep⟩
          rw [List.foldlM_cons]
          exact bind_eq_ok.mpr ⟨next, hfirst, hfront⟩
  · rintro ⟨front, a, back, state, rfl, hfront, hstep⟩
    rw [List.foldlM_append]
    refine bind_eq_error.mpr (.inr ⟨state, hfront, ?_⟩)
    rw [List.foldlM_cons]
    exact bind_eq_error.mpr (.inl hstep)

/-! ### Results that are there or not -/

/-- A list of results is there element by element. -/
theorem mapM_eq_some {f : α → Option β} :
    as.mapM f = some bs ↔ List.Forall₂ (fun a b => f a = some b) as bs := by
  induction as generalizing bs with
  | nil => rw [List.mapM_nil, List.forall₂_nil_left_iff, Option.pure_def, Option.some.injEq, eq_comm]
  | cons a as ih =>
      rw [List.mapM_cons, List.forall₂_cons_left_iff, Option.bind_eq_bind, Option.bind_eq_some_iff]
      refine exists_congr fun b => ?_
      rw [Option.bind_eq_bind, Option.bind_eq_some_iff]
      simp only [ih, Option.pure_def, Option.some.injEq]
      constructor
      · rintro ⟨hfirst, rest, hrest, rfl⟩
        exact ⟨rest, hfirst, hrest, rfl⟩
      · rintro ⟨rest, hfirst, hrest, rfl⟩
        exact ⟨hfirst, rest, hrest, rfl⟩

/-- What is written element by element can be read element by element. -/
theorem mapM_map_eq_some {write : α → β} {read : β → Option α}
    (hread : ∀ a ∈ as, read (write a) = some a) : (as.map write).mapM read = some as := by
  rw [mapM_eq_some, List.forall₂_map_left_iff, List.forall₂_same]
  exact hread

/-! ### Elements of related lists -/

variable {R : α → β → Prop}

theorem getElem?_of_forall₂ (hall : List.Forall₂ R as bs) {i : Nat} (hget : as[i]? = some a) :
    ∃ b, bs[i]? = some b ∧ R a b := by
  obtain ⟨hi, rfl⟩ := List.getElem?_eq_some_iff.mp hget
  have hi' : i < bs.length := hall.length_eq ▸ hi
  exact ⟨bs[i], List.getElem?_eq_getElem hi', by simpa using hall.get hi hi'⟩

theorem getElem?_of_forall₂_right (hall : List.Forall₂ R as bs) {i : Nat}
    (hget : bs[i]? = some b) : ∃ a, as[i]? = some a ∧ R a b := by
  obtain ⟨hi, rfl⟩ := List.getElem?_eq_some_iff.mp hget
  have hi' : i < as.length := hall.length_eq.symm ▸ hi
  exact ⟨as[i], List.getElem?_eq_getElem hi', by simpa using hall.get hi' hi⟩

end Lists

end TwoPass.Outcome
