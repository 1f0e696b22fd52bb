/-! When a computation that can fail succeeds, and when it fails. -/
namespace WordMachine.Result

variable {ε ε' α β : Type}

theorem map_eq_ok {f : α → β} {x : Except ε α} {b : β} :
    x.map f = .ok b ↔ ∃ a, x = .ok a ∧ f a = b := by
  cases x <;> simp [Except.map]

theorem bind_eq_ok {f : α → Except ε β} {x : Except ε α} {b : β} :
    x.bind f = .ok b ↔ ∃ a, x = .ok a ∧ f a = .ok b := by
  cases x <;> simp [Except.bind]

theorem eq_ok_of_toOption {x : Except ε α} {a : α} (h : x.toOption = some a) : x = .ok a := by
  cases x with
  | error e => cases h
  | ok b => cases h; rfl

theorem eq_error_of_match {x : Except ε α} {e : ε}
    (h : (match x with | .error cause => some cause | .ok _ => none) = some e) : x = .error e := by
  cases x with
  | error cause => cases h; rfl
  | ok a => cases h

theorem map_eq_error {f : α → β} {x : Except ε α} {e : ε} :
    x.map f = .error e ↔ x = .error e := by
  cases x <;> simp [Except.map]

theorem bind_eq_error {f : α → Except ε β} {x : Except ε α} {e : ε} :
    x.bind f = .error e ↔ x = .error e ∨ ∃ a, x = .ok a ∧ f a = .error e := by
  cases x <;> simp [Except.bind]

theorem mapError_ok {f : ε → ε'} {a : α} : (Except.ok a).mapError f = .ok a := rfl

theorem mapError_error {f : ε → ε'} {e : ε} :
    (Except.error e : Except ε α).mapError f = .error (f e) := rfl

theorem mapError_eq_ok {f : ε → ε'} {x : Except ε α} {a : α} :
    x.mapError f = .ok a ↔ x = .ok a := by
  cases x <;> simp [mapError_ok, mapError_error]

theorem mapError_eq_error {f : ε → ε'} {x : Except ε α} {e' : ε'} :
    x.mapError f = .error e' ↔ ∃ e, x = .error e ∧ f e = e' := by
  cases x <;> simp [mapError_ok, mapError_error]

theorem mapM_eq_ok {f : α → Except ε β} {xs : List α} {ys : List β} :
    xs.mapM f = .ok ys ↔ xs.map f = ys.map .ok := by
  induction xs generalizing ys with
  | nil =>
    cases ys with
    | nil => exact ⟨fun _ => rfl, fun _ => rfl⟩
    | cons y ys => exact ⟨nofun, nofun⟩
  | cons x xs ih =>
    rw [List.mapM_cons, List.map_cons]
    cases head : f x with
    | error e => cases ys <;> simp [bind, Except.bind]
    | ok a =>
      cases tail : xs.mapM f with
      | error e =>
        cases ys with
        | nil => simp [bind, Except.bind]
        | cons y ys => simp [bind, Except.bind, ← ih, tail]
      | ok as =>
        cases ys with
        | nil => simp [bind, Except.bind, pure, Except.pure]
        | cons y ys => simp [bind, Except.bind, pure, Except.pure, ← ih, tail]

theorem mem_of_mapM {f : α → Except ε β} {xs : List α} {ys : List β} (h : xs.mapM f = .ok ys)
    {y : β} (hy : y ∈ ys) : ∃ x ∈ xs, f x = .ok y := by
  have mem : Except.ok y ∈ xs.map f := by
    rw [mapM_eq_ok.mp h]
    exact List.mem_map_of_mem hy
  exact List.mem_map.mp mem

theorem exists_mapM_eq_ok {f : α → Except ε β} {xs : List α} :
    (∃ ys, xs.mapM f = .ok ys) ↔ ∀ x ∈ xs, ∃ y, f x = .ok y := by
  constructor
  · rintro ⟨ys, all⟩ x hx
    have mem : f x ∈ ys.map Except.ok := by
      rw [← mapM_eq_ok.mp all]
      exact List.mem_map_of_mem hx
    obtain ⟨y, _, same⟩ := List.mem_map.mp mem
    exact ⟨y, same.symm⟩
  · intro each
    induction xs with
    | nil => exact ⟨[], rfl⟩
    | cons x rest ih =>
      obtain ⟨y, first⟩ := each x List.mem_cons_self
      obtain ⟨ys, others⟩ := ih fun z hz => each z (List.mem_cons_of_mem x hz)
      refine ⟨y :: ys, mapM_eq_ok.mpr ?_⟩
      rw [List.map_cons, List.map_cons, first, mapM_eq_ok.mp others]

/-- A fold fails at the first element that does. -/
theorem foldlM_eq_error {f : β → α → Except ε β} {xs : List α} {b : β} {e : ε} :
    xs.foldlM f b = .error e ↔
      ∃ before x after c, xs = before ++ x :: after ∧ before.foldlM f b = .ok c ∧
        f c x = .error e := by
  constructor
  · intro failed
    induction xs generalizing b with
    | nil => cases failed
    | cons x rest ih =>
      rcases bind_eq_error.mp failed with first | ⟨c, first, later⟩
      · exact ⟨[], x, rest, b, rfl, rfl, first⟩
      · obtain ⟨before, z, after, d, rfl, done, bad⟩ := ih later
        exact ⟨x :: before, z, after, d, rfl, bind_eq_ok.mpr ⟨c, first, done⟩, bad⟩
  · rintro ⟨before, x, after, c, rfl, done, bad⟩
    rw [List.foldlM_append]
    refine bind_eq_error.mpr (Or.inr ⟨c, done, ?_⟩)
    exact bind_eq_error.mpr (Or.inl bad)

/-- And so does a list of computations. -/
theorem mapM_eq_error {f : α → Except ε β} {xs : List α} {e : ε} :
    xs.mapM f = .error e ↔
      ∃ before x after, xs = before ++ x :: after ∧ (∃ ys, before.mapM f = .ok ys) ∧
        f x = .error e := by
  constructor
  · intro failed
    induction xs with
    | nil => cases failed
    | cons x rest ih =>
      rw [List.mapM_cons] at failed
      rcases bind_eq_error.mp failed with first | ⟨y, first, failed⟩
      · exact ⟨[], x, rest, rfl, ⟨[], rfl⟩, first⟩
      · rcases bind_eq_error.mp failed with later | ⟨ys, _, done⟩
        · obtain ⟨before, z, after, rfl, ⟨ys, done⟩, bad⟩ := ih later
          refine ⟨x :: before, z, after, rfl, exists_mapM_eq_ok.mpr ?_, bad⟩
          rw [List.forall_mem_cons]
          exact ⟨⟨y, first⟩, exists_mapM_eq_ok.mp ⟨ys, done⟩⟩
        · cases done
  · rintro ⟨before, x, after, rfl, ⟨ys, done⟩, bad⟩
    rw [List.mapM_append]
    refine bind_eq_error.mpr (Or.inr ⟨ys, done, bind_eq_error.mpr (Or.inl ?_)⟩)
    rw [List.mapM_cons]
    exact bind_eq_error.mpr (Or.inl bad)

end WordMachine.Result
