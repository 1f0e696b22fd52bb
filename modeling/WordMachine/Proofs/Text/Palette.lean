import Mathlib.Data.List.Forall2
import WordMachine.Proofs.Text.Hex
import WordMachine.Text.Palette

/-! Colours left out. A text decorates another if it is that text once every escape
sequence of the coloured palette is deleted, and texts composed in the same way of
such pairs are such a pair again. Sequences begin with a character that no plain
text has, so none arises where two texts meet. -/
namespace WordMachine.Palette

/-- The escape sequences of the coloured palette. -/
def sequences : List (List Char) :=
  [ansi.label, ansi.literal, ansi.dim, ansi.alarm, ansi.reset].map String.toList

/-- Deletes all sequences, once the characters that are left of one have passed. -/
def delete : (left : Nat) → List Char → List Char
  | _, [] => []
  | left + 1, _ :: rest => delete left rest
  | 0, c :: rest =>
    match sequences.find? (·.isPrefixOf (c :: rest)) with
    | some s => delete (s.length - 1) rest
    | none => c :: delete 0 rest

/-- The text with every escape sequence of the coloured palette deleted. -/
def uncoloured (text : String) : String := String.ofList (delete 0 text.toList)

theorem delete_sequence {s : List Char} (h : s ∈ sequences) (rest : List Char) :
    delete 0 (s ++ rest) = delete 0 rest := by
  simp only [sequences, List.map_cons, List.map_nil, List.mem_cons, List.not_mem_nil, or_false] at h
  rcases h with rfl | rfl | rfl | rfl | rfl <;> rfl

theorem delete_cons {c : Char} (plain : c ≠ '\x1b') (rest : List Char) :
    delete 0 (c :: rest) = c :: delete 0 rest := by
  have first : ∀ s ∈ sequences, s.head? = some '\x1b' := by decide
  have none : sequences.find? (·.isPrefixOf (c :: rest)) = none := by
    rw [List.find?_eq_none]
    intro s hs starts
    obtain ⟨more, same⟩ := List.isPrefixOf_iff_prefix.mp starts
    have escape := first s hs
    cases s with
    | nil => cases escape
    | cons d s =>
      cases escape
      injection same with same
      exact plain same.symm
  rw [delete, none]

theorem delete_append {text : List Char} (bare : '\x1b' ∉ text) (rest : List Char) :
    delete 0 (text ++ rest) = text ++ delete 0 rest := by
  induction text with
  | nil => rfl
  | cons c text ih =>
    obtain ⟨plain, bare⟩ := List.ne_and_not_mem_of_not_mem_cons bare
    rw [List.cons_append, delete_cons plain.symm, ih bare, List.cons_append]

/-- The second text has no escape character, and the first is that text when its
sequences are deleted, whatever stands behind it. -/
structure Decorates (coloured text : String) : Prop where
  bare : '\x1b' ∉ text.toList
  deleted : ∀ rest, delete 0 (coloured.toList ++ rest) = text.toList ++ delete 0 rest

namespace Decorates

variable {s t u v : String} {ss ts us vs : List String}

theorem uncoloured (d : Decorates s t) : uncoloured s = t := by
  have whole := d.deleted []
  rw [List.append_nil, delete, List.append_nil] at whole
  rw [Palette.uncoloured, whole, String.ofList_toList]

theorem self (bare : '\x1b' ∉ s.toList) : Decorates s s := ⟨bare, delete_append bare⟩

theorem ofList {cs : List Char} (bare : ∀ c ∈ cs, c ≠ '\x1b') :
    Decorates (String.ofList cs) (String.ofList cs) := by
  refine self ?_
  rw [String.toList_ofList]
  exact fun escape => bare _ escape rfl

theorem sequence (h : s.toList ∈ sequences) : Decorates s "" :=
  ⟨by decide, delete_sequence h⟩

theorem label : Decorates ansi.label plain.label := sequence (by decide)

theorem literal : Decorates ansi.literal plain.literal := sequence (by decide)

theorem dim : Decorates ansi.dim plain.dim := sequence (by decide)

theorem alarm : Decorates ansi.alarm plain.alarm := sequence (by decide)

theorem reset : Decorates ansi.reset plain.reset := sequence (by decide)

theorem append (first : Decorates s t) (later : Decorates u v) : Decorates (s ++ u) (t ++ v) := by
  constructor
  · rw [String.toList_append, List.mem_append, not_or]
    exact ⟨first.bare, later.bare⟩
  · intro rest
    rw [String.toList_append, String.toList_append, List.append_assoc, first.deleted,
      later.deleted, List.append_assoc]

theorem appendBare (first : Decorates s t) (bare : '\x1b' ∉ u.toList) :
    Decorates (s ++ u) (t ++ u) := first.append (self bare)

theorem join (each : List.Forall₂ Decorates ss ts) :
    Decorates (String.join ss) (String.join ts) := by
  induction each with
  | nil => exact self (by decide)
  | cons first _ ih =>
    rw [String.join_cons, String.join_cons]
    exact first.append ih

theorem intercalate (between : Decorates u v) (each : List.Forall₂ Decorates ss ts) :
    Decorates (u.intercalate ss) (v.intercalate ts) := by
  induction each with
  | nil =>
    rw [String.intercalate_nil, String.intercalate_nil]
    exact self (by decide)
  | cons first others ih =>
    cases others with
    | nil => simpa using first
    | cons second others =>
      rw [String.intercalate_cons_cons, String.intercalate_cons_cons]
      exact (first.append between).append ih

/-- Lines as they are put together to a text. -/
theorem joinLines (each : List.Forall₂ Decorates ss ts) :
    Decorates (String.join (ss.map (· ++ "\n"))) (String.join (ts.map (· ++ "\n"))) := by
  refine join (List.rel_map ?_ each)
  exact fun _ _ line => line.append (self (by decide))

theorem map {α : Type} {f g : α → String} {xs : List α} (each : ∀ x ∈ xs, Decorates (f x) (g x)) :
    List.Forall₂ Decorates (xs.map f) (xs.map g) := by
  rw [List.forall₂_map_left_iff, List.forall₂_map_right_iff, List.forall₂_same]
  exact each

theorem flatMap {α : Type} {f g : α → List String} {xs : List α}
    (each : ∀ x ∈ xs, List.Forall₂ Decorates (f x) (g x)) :
    List.Forall₂ Decorates (xs.flatMap f) (xs.flatMap g) := by
  induction xs with
  | nil => exact .nil
  | cons x xs ih =>
    rw [List.flatMap_cons, List.flatMap_cons]
    exact List.rel_append (each x List.mem_cons_self)
      (ih fun y hy => each y (List.mem_cons_of_mem x hy))

theorem map_uncoloured (each : List.Forall₂ Decorates ss ts) :
    ss.map Palette.uncoloured = ts := by
  induction each with
  | nil => rfl
  | cons first _ ih => rw [List.map_cons, first.uncoloured, ih]

theorem digits (width n : Nat) :
    Decorates (String.ofList (Hex.digits width n)) (String.ofList (Hex.digits width n)) := by
  refine ofList fun c hc => ?_
  have letter := (Hex.digit_of_mem hc).2.1.1
  rintro rfl
  exact absurd letter (by decide)

theorem address (n : Nat) : Decorates (Hex.address n) (Hex.address n) := digits _ n

theorem word (w : Word) : Decorates (Hex.word w) (Hex.word w) :=
  (self (by decide)).append (digits 4 w.toNat)

theorem repr (n : Nat) : Decorates n.repr n.repr := by
  refine self fun escape => ?_
  rw [Nat.toList_repr] at escape
  have digit : ('\x1b').isDigit = true := Nat.isDigit_of_mem_toDigits (by decide) (by decide) escape
  exact absurd digit (by decide)

end Decorates

end WordMachine.Palette
