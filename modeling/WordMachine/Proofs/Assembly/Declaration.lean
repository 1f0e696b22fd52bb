import Mathlib.Algebra.GroupWithZero.Nat
import Mathlib.Data.List.Perm.Basic
import Mathlib.Data.List.TakeWhile
import WordMachine.Assembly.Basic
import WordMachine.Proofs.Result

/-! Static declarations. Lines that are all well formed, with no name twice, are
the items they declare, whatever their order; otherwise the first line is
reported that is malformed or whose name is taken. The segment takes up a byte
more than the text of each item. -/
namespace WordMachine

namespace StaticData

variable {d : StaticData} {lines : List Line} {items : List (String × List UInt8)}

/-- An item among others, in the order of names. -/
def add (d : StaticData) (item : String × List UInt8) : StaticData :=
  ⟨insertEntry item d.entries⟩

theorem insertEntry_perm (item : String × List UInt8) (entries : List (String × List UInt8)) :
    (insertEntry item entries).Perm (item :: entries) := by
  induction entries with
  | nil => exact .refl _
  | cons first rest ih =>
    rw [insertEntry]
    split
    · exact .refl _
    · exact (ih.cons first).trans (.swap item first rest)

theorem contains_add (d : StaticData) (item : String × List UInt8) (name : String) :
    (d.add item).contains name = (item.1 == name || d.contains name) :=
  (insertEntry_perm item d.entries).any_eq

/-- The bytes of items, each with a byte for its length. -/
def itemsSize (items : List (String × List UInt8)) : Nat :=
  (items.map fun item => 1 + item.2.length).sum

theorem length_toBytes (d : StaticData) : d.toBytes.length = itemsSize d.entries := by
  simp only [toBytes, itemsSize, List.length_flatMap, List.length_cons, Nat.add_comm 1]

theorem length_toBytes_add (d : StaticData) (item : String × List UInt8) :
    (d.add item).toBytes.length = 1 + item.2.length + d.toBytes.length := by
  have sizes := (insertEntry_perm item d.entries).map fun item => 1 + item.2.length
  rw [length_toBytes, length_toBytes]
  exact sizes.sum_nat

theorem length_toBytes_foldl (d : StaticData) (items : List (String × List UInt8)) :
    (items.foldl add d).toBytes.length = d.toBytes.length + itemsSize items := by
  induction items generalizing d with
  | nil => rfl
  | cons item rest ih =>
    rw [List.foldl_cons, ih, length_toBytes_add, itemsSize, itemsSize, List.map_cons, List.sum_cons]
    omega

theorem declare_eq_ok {line : Line} {more : StaticData} :
    d.declare line = .ok more ↔
      ∃ item, readDeclaration line.text = .ok item ∧ d.contains item.1 = false ∧
        more = d.add item := by
  rw [declare]
  cases readDeclaration line.text with
  | error fault => exact ⟨nofun, fun ⟨_, read, _⟩ => nomatch read⟩
  | ok item =>
    obtain ⟨name, bytes⟩ := item
    simp only [insert?, Except.ok.injEq, exists_eq_left']
    cases taken : d.contains name with
    | true => exact ⟨nofun, fun h => nomatch h.1⟩
    | false =>
      constructor
      · rintro ⟨⟩
        exact ⟨rfl, rfl⟩
      · rintro ⟨_, rfl⟩
        rfl

theorem literal?_eq_some {value literal : List Char} :
    literal? value = some literal ↔ value = '"' :: (literal ++ ['"']) := by
  constructor
  · intro found
    unfold literal? at found
    split at found
    · next rest =>
      split at found
      · next closed =>
        cases found
        obtain ⟨inside, rfl⟩ := List.getLast?_eq_some_iff.mp closed
        rw [List.dropLast_concat]
      · cases found
    · cases found
  · rintro rfl
    rw [literal?, if_pos List.getLast?_concat, List.dropLast_concat]

/-- What follows the dollar sign of a declaration with a colon. -/
theorem readDeclaration_named {name value : List Char} (uncoloned : ':' ∉ name) :
    readDeclaration (String.ofList ('$' :: (name ++ ':' :: value))) =
      if isIdentifier (Text.trim name) = false then .error .malformedStatic
      else
        match literal? (Text.trim value) with
        | none => .error (.unsupportedStatic (String.ofList (Text.trim value)))
        | some literal =>
          if literal.any (fun c => 128 ≤ c.toNat) then .error .nonAsciiStatic
          else if maxLength < literal.length then .error (.staticTooLong literal.length)
          else .ok (Text.upper (String.ofList (Text.trim name)),
            literal.map fun c => UInt8.ofNat c.toNat) := by
  have part : ∀ c ∈ name, (c != ':') = true := by
    intro c hc
    rw [bne_iff_ne]
    rintro rfl
    exact uncoloned hc
  have taken : (name ++ ':' :: value).takeWhile (· != ':') = name := by
    rw [List.takeWhile_append_of_pos part, List.takeWhile_cons_of_neg (by decide), List.append_nil]
  have left : (name ++ ':' :: value).dropWhile (· != ':') = ':' :: value := by
    rw [List.dropWhile_append_of_pos part, List.dropWhile_cons_of_neg (by decide)]
  cases found : literal? (Text.trim value) <;>
    simp only [readDeclaration, String.toList_ofList, taken, left, List.isEmpty_cons,
      Bool.false_eq_true, false_or, List.drop_succ_cons, List.drop_zero, found]

/-- A declaration is a dollar sign, a name, a colon and a literal. -/
theorem readDeclaration_eq_ok {text : String} {item : String × List UInt8} :
    readDeclaration text = .ok item ↔
      ∃ name value literal, text.toList = '$' :: (name ++ ':' :: value) ∧ ':' ∉ name ∧
        isIdentifier (Text.trim name) = true ∧ Text.trim value = '"' :: (literal ++ ['"']) ∧
        (∀ c ∈ literal, c.toNat < 128) ∧ literal.length ≤ maxLength ∧
        item = (Text.upper (String.ofList (Text.trim name)),
          literal.map fun c => UInt8.ofNat c.toNat) := by
  constructor
  · intro read
    obtain ⟨rest, text_eq⟩ : ∃ rest, text.toList = '$' :: rest := by
      unfold readDeclaration at read
      split at read
      · next rest text_eq => exact ⟨rest, text_eq⟩
      · cases read
    have colon : ':' ∈ rest := by
      refine Decidable.byContradiction fun none => ?_
      have gone : rest.dropWhile (· != ':') = [] := by
        rw [List.dropWhile_eq_nil_iff]
        intro c hc
        rw [bne_iff_ne]
        rintro rfl
        exact none hc
      simp [readDeclaration, text_eq, gone] at read
    obtain ⟨name, value, rfl, uncoloned⟩ := List.eq_append_cons_of_mem colon
    rw [← String.ofList_toList (s := text), text_eq, readDeclaration_named uncoloned] at read
    split_ifs at read with named
    split at read
    · cases read
    · next literal quoted =>
      split_ifs at read with ascii long
      cases read
      exact ⟨name, value, literal, text_eq, uncoloned, by simpa using named,
        literal?_eq_some.mp quoted, by simpa using ascii, Nat.not_lt.mp long, rfl⟩
  · rintro ⟨name, value, literal, text_eq, uncoloned, named, quoted, ascii, short, rfl⟩
    have plain : ¬literal.any (fun c => 128 ≤ c.toNat) = true := by simpa using ascii
    rw [← String.ofList_toList (s := text), text_eq, readDeclaration_named uncoloned,
      if_neg (by rw [named]; decide), literal?_eq_some.mpr quoted]
    simp only [if_neg plain, if_neg (Nat.not_lt.mpr short)]

/-- The text is no declaration, or that of a name that is taken. -/
inductive Objection (names : List String) (text : String) : SyntaxFault → Prop
  | malformed {fault : SyntaxFault} :
      readDeclaration text = .error fault → Objection names text fault
  | taken {name : String} {bytes : List UInt8} : readDeclaration text = .ok (name, bytes) →
      name ∈ names → Objection names text (.duplicateStatic name)

/-- The lines are well formed and declare these items, no two of one name. -/
structure Declares (lines : List Line) (items : List (String × List UInt8)) : Prop where
  read : lines.map (fun line => readDeclaration line.text) = items.map .ok
  once : (items.map Prod.fst).Nodup

/-- The first line with an objection to it, and the objection. -/
def FirstObjection (lines : List Line) (e : SyntaxError) : Prop :=
  ∃ before after items, lines = before ++ e.line :: after ∧ Declares before items ∧
    Objection (items.map Prod.fst) e.line.text e.fault

theorem foldlM_declare_eq_ok {more : StaticData} :
    lines.foldlM declare d = .ok more ↔
      ∃ items, Declares lines items ∧ (∀ item ∈ items, d.contains item.1 = false) ∧
        more = items.foldl add d := by
  induction lines generalizing d with
  | nil =>
    constructor
    · rintro ⟨⟩
      exact ⟨[], ⟨rfl, List.nodup_nil⟩, nofun, rfl⟩
    · rintro ⟨items, declares, _, rfl⟩
      rw [List.map_eq_nil_iff.mp declares.read.symm]
      rfl
  | cons line rest ih =>
    rw [List.foldlM_cons]
    refine Result.bind_eq_ok.trans ?_
    constructor
    · rintro ⟨next, first, later⟩
      obtain ⟨item, read, fresh, rfl⟩ := declare_eq_ok.mp first
      obtain ⟨items, declares, apart, rfl⟩ := ih.mp later
      have both : ∀ other ∈ items, item.1 ≠ other.1 ∧ d.contains other.1 = false := by
        intro other hother
        simpa [contains_add] using apart other hother
      refine ⟨item :: items, ⟨?_, ?_⟩, ?_, rfl⟩
      · rw [List.map_cons, List.map_cons, read, declares.read]
      · refine List.nodup_cons.mpr ⟨fun mem => ?_, declares.once⟩
        obtain ⟨other, hother, same⟩ := List.mem_map.mp mem
        exact (both other hother).1 same.symm
      · rw [List.forall_mem_cons]
        exact ⟨fresh, fun other hother => (both other hother).2⟩
    · rintro ⟨items, ⟨read, once⟩, fresh, rfl⟩
      obtain ⟨item, items, rfl, first, others⟩ := List.map_eq_cons_iff.mp read.symm
      obtain ⟨new, once⟩ := List.nodup_cons.mp once
      obtain ⟨own, fresh⟩ := List.forall_mem_cons.mp fresh
      refine ⟨d.add item, declare_eq_ok.mpr ⟨item, first.symm, own, rfl⟩, ih.mpr ?_⟩
      refine ⟨items, ⟨others.symm, once⟩, fun other hother => ?_, rfl⟩
      have apart : item.1 ≠ other.1 := by
        intro same
        exact new (same ▸ List.mem_map_of_mem hother)
      simp [contains_add, apart, fresh other hother]

theorem contains_foldl (d : StaticData) (items : List (String × List UInt8)) (name : String) :
    (items.foldl add d).contains name = true ↔
      name ∈ items.map Prod.fst ∨ d.contains name = true := by
  induction items generalizing d with
  | nil => simp
  | cons item rest ih =>
    rw [List.foldl_cons, ih, contains_add, List.map_cons, List.mem_cons]
    simp only [Bool.or_eq_true, beq_iff_eq, eq_comm (a := name)]
    exact or_left_comm.trans (or_assoc.symm)

theorem declare_eq_error {line : Line} {names : List String} {e : SyntaxError}
    (named : ∀ name, d.contains name = true ↔ name ∈ names) :
    d.declare line = .error e ↔ e.line = line ∧ Objection names line.text e.fault := by
  obtain ⟨_, fault⟩ := e
  rw [declare]
  cases read : readDeclaration line.text with
  | error fault =>
    constructor
    · rintro ⟨⟩
      exact ⟨rfl, .malformed read⟩
    · rintro ⟨rfl, same | ⟨same, _⟩⟩
      · cases read.symm.trans same
        rfl
      · cases read.symm.trans same
  | ok item =>
    obtain ⟨name, bytes⟩ := item
    have taken := named name
    cases contained : d.contains name with
    | true =>
      simp only [insert?, contained, if_true]
      constructor
      · rintro ⟨⟩
        exact ⟨rfl, .taken read (taken.mp contained)⟩
      · rintro ⟨rfl, same | ⟨same, _⟩⟩
        · cases read.symm.trans same
        · cases read.symm.trans same
          rfl
    | false =>
      simp only [insert?, contained, Bool.false_eq_true, if_false]
      refine ⟨nofun, ?_⟩
      rintro ⟨_, same | ⟨same, mem⟩⟩
      · cases read.symm.trans same
      · cases read.symm.trans same
        rw [taken.mpr mem] at contained
        cases contained

/-- Declarations succeed together with the items they declare. -/
theorem declare_all_eq_ok {more : StaticData} :
    lines.foldlM declare empty = .ok more ↔
      ∃ items, Declares lines items ∧ more = items.foldl add empty := by
  refine foldlM_declare_eq_ok.trans (exists_congr fun items => and_congr_right fun _ => ?_)
  exact and_iff_right fun _ _ => rfl

/-- Names in increasing order, none of them twice. -/
def Ordered (d : StaticData) : Prop := d.entries.Pairwise fun a b => a.1 < b.1

theorem pairwise_insertEntry {item : String × List UInt8} {entries : List (String × List UInt8)}
    (ordered : entries.Pairwise fun a b => a.1 < b.1) (fresh : ∀ e ∈ entries, e.1 ≠ item.1) :
    (insertEntry item entries).Pairwise fun a b => a.1 < b.1 := by
  induction entries with
  | nil => exact List.pairwise_singleton _ _
  | cons first rest ih =>
    obtain ⟨least, later⟩ := List.pairwise_cons.mp ordered
    obtain ⟨apart, fresh⟩ := List.forall_mem_cons.mp fresh
    rw [insertEntry]
    split
    · next less =>
      refine List.pairwise_cons.mpr ⟨List.forall_mem_cons.mpr ⟨less, fun e he => ?_⟩, ordered⟩
      exact String.lt_trans less (least e he)
    · next behind =>
      have less : first.1 < item.1 := by
        refine String.not_le.mp fun above => apart ?_
        exact String.le_antisymm (String.not_lt.mp behind) above
      refine List.pairwise_cons.mpr ⟨fun e he => ?_, ih later fresh⟩
      rcases List.mem_cons.mp ((insertEntry_perm item rest).mem_iff.mp he) with rfl | old
      · exact less
      · exact least e old

theorem ordered_declare {line : Line} {more : StaticData} (ordered : d.Ordered)
    (declared : d.declare line = .ok more) : more.Ordered := by
  obtain ⟨item, _, fresh, rfl⟩ := declare_eq_ok.mp declared
  exact pairwise_insertEntry ordered (by simpa [contains] using fresh)

theorem ordered_foldlM {more : StaticData} (ordered : d.Ordered)
    (declared : lines.foldlM declare d = .ok more) : more.Ordered := by
  induction lines generalizing d with
  | nil =>
    cases declared
    exact ordered
  | cons line rest ih =>
    obtain ⟨next, first, later⟩ := Result.bind_eq_ok.mp declared
    exact ih (ordered_declare ordered first) later

theorem entries_foldl_perm (d : StaticData) (items : List (String × List UInt8)) :
    (items.foldl add d).entries.Perm (items ++ d.entries) := by
  induction items generalizing d with
  | nil => exact .refl _
  | cons item rest ih =>
    refine (ih (d.add item)).trans ?_
    exact ((insertEntry_perm item d.entries).append_left rest).trans List.perm_middle

/-- The order of declarations does not matter. -/
theorem declare_perm {lines' : List Line} {more : StaticData}
    (perm : (lines'.map Line.text).Perm (lines.map Line.text))
    (declared : lines.foldlM declare empty = .ok more) :
    lines'.foldlM declare empty = .ok more := by
  obtain ⟨items, ⟨read, once⟩, rfl⟩ := declare_all_eq_ok.mp declared
  have reads : (lines'.map fun line => readDeclaration line.text).Perm (items.map .ok) := by
    have moved := perm.map readDeclaration
    rw [List.map_map, List.map_map] at moved
    exact read ▸ moved
  have each : ∀ line ∈ lines', ∃ item, readDeclaration line.text = .ok item := by
    intro line hline
    obtain ⟨item, _, own⟩ := List.mem_map.mp (reads.mem_iff.mp (List.mem_map_of_mem hline))
    exact ⟨item, own.symm⟩
  obtain ⟨items', again⟩ := Result.exists_mapM_eq_ok.mpr each
  have read' := Result.mapM_eq_ok.mp again
  rw [read', List.map_perm_map_iff fun _ _ => Except.ok.inj] at reads
  have once' := (reads.map Prod.fst).nodup_iff.mpr once
  have declared' := declare_all_eq_ok.mpr ⟨items', ⟨read', once'⟩, rfl⟩
  have moved : (items'.foldl add empty).entries.Perm (items.foldl add empty).entries :=
    (entries_foldl_perm empty items').trans
      ((reads.append_right _).trans (entries_foldl_perm empty items).symm)
  -- Two lists of the same items in the order of their names are one list.
  have same := moved.eq_of_pairwise (fun _ _ _ _ less more => absurd more (String.lt_asymm less))
    (ordered_foldlM List.Pairwise.nil declared') (ordered_foldlM List.Pairwise.nil declared)
  rw [declared', Except.ok.injEq]
  exact congrArg StaticData.mk same

theorem declare_all_eq_error {e : SyntaxError} :
    lines.foldlM declare empty = .error e ↔ FirstObjection lines e := by
  have named : ∀ (items : List (String × List UInt8)) name,
      (items.foldl add empty).contains name = true ↔ name ∈ items.map Prod.fst := by
    intro items name
    refine (contains_foldl empty items name).trans (or_iff_left ?_)
    nofun
  rw [Result.foldlM_eq_error]
  constructor
  · rintro ⟨before, line, after, more, rfl, done, failed⟩
    obtain ⟨items, declares, rfl⟩ := declare_all_eq_ok.mp done
    obtain ⟨rfl, objection⟩ := (declare_eq_error (named items)).mp failed
    exact ⟨before, after, items, rfl, declares, objection⟩
  · rintro ⟨before, after, items, rfl, declares, objection⟩
    exact ⟨before, e.line, after, _, rfl, declare_all_eq_ok.mpr ⟨items, declares, rfl⟩,
      (declare_eq_error (named items)).mpr ⟨rfl, objection⟩⟩

end StaticData

end WordMachine
