import Mathlib.Data.List.Nodup
import WordMachine.Proofs.Listing.Lines

/-! Labels of a listing. An address has a label exactly if some jump or call leads
there and it is the start of an instruction or the end of the code, and labels are
numbered by the first instruction that leads to them. Their lines are found by
walking over instructions: the one of a label is met once, where the instruction at
its address is, or behind all of them. -/
namespace WordMachine.Listing

section Order

variable {α β : Type} [BEq β] [LawfulBEq β]

/-- Some of the first elements give the value `b`. -/
def Among (f : α → Option β) (xs : List α) (b : β) : Prop := ∃ x ∈ xs, f x = some b

/-- Of values without repetition, each is given by an element before all elements that
give a later one. -/
theorem pairwise_eraseDups (f : α → Option β) (xs : List α) :
    (xs.filterMap f).eraseDups.Pairwise fun a b =>
      ∃ k, Among f (xs.take k) a ∧ ¬Among f (xs.take k) b := by
  induction xs generalizing f with
  | nil => exact .nil
  | cons x rest ih =>
    cases given : f x with
    | none =>
      rw [List.filterMap_cons_none given]
      refine (ih f).imp ?_
      rintro a b ⟨k, ⟨y, hy, ha⟩, later⟩
      refine ⟨k + 1, ⟨y, List.mem_cons_of_mem x hy, ha⟩, ?_⟩
      rintro ⟨z, hz, hb⟩
      rcases List.mem_cons.mp hz with rfl | hz
      · cases given.symm.trans hb
      · exact later ⟨z, hz, hb⟩
    | some c =>
      rw [List.filterMap_cons_some given, List.eraseDups_cons, List.filter_filterMap,
        List.pairwise_cons]
      -- Behind the first element the values other than its own are met in the same order.
      have others : ∀ y b, (f y).filter (fun b => !b == c) = some b ↔ f y = some b ∧ b ≠ c := by
        intro y b
        simp
      have apart : ∀ b ∈ (rest.filterMap fun y => (f y).filter fun b => !b == c).eraseDups,
          b ≠ c := by
        intro b hb
        obtain ⟨y, _, hy⟩ := List.mem_filterMap.mp (List.mem_eraseDups.mp hb)
        exact ((others y b).mp hy).2
      constructor
      · intro b hb
        refine ⟨1, ⟨x, List.mem_cons_self, given⟩, ?_⟩
        rintro ⟨z, hz, found⟩
        obtain rfl := List.mem_singleton.mp hz
        exact apart b hb (Option.some.inj (found.symm.trans given))
      · refine (ih _).imp_of_mem ?_
        rintro a b _ hb ⟨k, ⟨y, hy, ha⟩, later⟩
        refine ⟨k + 1, ⟨y, List.mem_cons_of_mem x hy, ((others y a).mp ha).1⟩, ?_⟩
        rintro ⟨z, hz, found⟩
        rcases List.mem_cons.mp hz with rfl | hz
        · exact apart b hb (Option.some.inj (found.symm.trans given))
        · exact later ⟨z, hz, (others z b).mpr ⟨found, apart b hb⟩⟩

end Order

variable {image : Image} {l : Listing} {style : Style} {coloured : Bool}

section Table

/-- Some jump or call among the instructions leads to the address. -/
def Refers (is : List (Nat × Instruction)) (address : Nat) : Prop :=
  ∃ e ∈ is, ∃ t, e.2.target? = some t ∧ t.toNat = address

/-- The address an instruction leads to, if it can have a label. -/
def labelled? (l : Listing) (e : Nat × Instruction) : Option Nat :=
  (e.2.target?.map UInt16.toNat).filter (l.stop :: l.instructions.map Prod.fst).contains

theorem labelled?_eq_some {e : Nat × Instruction} {address : Nat} :
    l.labelled? e = some address ↔
      (∃ t, e.2.target? = some t ∧ t.toNat = address) ∧
        (address ∈ l.instructions.map Prod.fst ∨ address = l.stop) := by
  rw [labelled?, Option.filter_eq_some_iff, Option.map_eq_some_iff, List.contains_iff_mem,
    List.mem_cons, or_comm]

theorem among_iff {is : List (Nat × Instruction)} {address : Nat}
    (place : address ∈ l.instructions.map Prod.fst ∨ address = l.stop) :
    Among l.labelled? is address ↔ Refers is address := by
  refine exists_congr fun e => and_congr_right fun _ => ?_
  rw [labelled?_eq_some]
  exact and_iff_left place

theorem labels_eq (listed : ofImage image = .ok l) :
    l.labels = (l.instructions.filterMap l.labelled?).eraseDups := by
  obtain ⟨is, _, _, instructions, stop, labels⟩ := parts_of_ofImage listed
  rw [← instructions, ← stop] at labels
  rw [labels, findLabels, targets, List.filter_filterMap]
  rfl

/-- The labels of a listing as they should be. -/
structure Labelled (l : Listing) : Prop where
  /-- No address has two labels. -/
  once : l.labels.Nodup
  /-- Those addresses have a label that are referred to and where the code splits. -/
  places : ∀ a, a ∈ l.labels ↔
    Refers l.instructions a ∧ (a ∈ l.instructions.map Prod.fst ∨ a = l.stop)
  table : ∀ a, (l.label? a).isSome = true ↔ a ∈ l.labels
  names : l.labels.map l.label? = (List.range l.labels.length).map fun n => some (labelName n)
  distinct : ((List.range l.labels.length).map labelName).Nodup
  /-- The lower number belongs to the address that is referred to first. -/
  order : ∀ m n a b, l.label? a = some (labelName m) → l.label? b = some (labelName n) →
    (m < n ↔ ∃ k, Refers (l.instructions.take k) a ∧ ¬Refers (l.instructions.take k) b)

theorem mem_labels (listed : ofImage image = .ok l) {address : Nat} :
    address ∈ l.labels ↔ Refers l.instructions address ∧
      (address ∈ l.instructions.map Prod.fst ∨ address = l.stop) := by
  obtain ⟨is, _, _, instructions, stop, labels⟩ := parts_of_ofImage listed
  rw [← instructions, ← stop] at labels
  rw [labels, mem_findLabels, mem_targets, Refers]

/-- Labels come in the order of the first references to them. -/
theorem labels_ordered (listed : ofImage image = .ok l) :
    l.labels.Pairwise fun a b =>
      ∃ k, Refers (l.instructions.take k) a ∧ ¬Refers (l.instructions.take k) b := by
  have ordered := pairwise_eraseDups l.labelled? l.instructions
  rw [← labels_eq listed] at ordered
  refine ordered.imp_of_mem ?_
  rintro a b ha hb ⟨k, earlier, later⟩
  refine ⟨k, (among_iff ((mem_labels listed).mp ha).2).mp earlier, fun refers => later ?_⟩
  exact (among_iff ((mem_labels listed).mp hb).2).mpr refers

theorem nodup_labels (listed : ofImage image = .ok l) : l.labels.Nodup := by
  refine (labels_ordered listed).imp ?_
  rintro a b ⟨k, earlier, later⟩ rfl
  exact later earlier

theorem refers_take {is : List (Nat × Instruction)} {address j k : Nat} (le : j ≤ k)
    (refers : Refers (is.take j) address) : Refers (is.take k) address := by
  obtain ⟨e, he, leads⟩ := refers
  exact ⟨e, List.take_subset_take_left is le he, leads⟩

/-- The names are numbered as the addresses are listed. -/
theorem label?_eq_labelName (once : l.labels.Nodup) {address n : Nat} :
    l.label? address = some (labelName n) ↔ l.labels[n]? = some address := by
  constructor
  · intro named
    obtain ⟨mem, same⟩ := label?_eq_some named
    rw [labelName_injective same]
    exact List.getElem?_idxOf mem
  · intro found
    obtain ⟨short, rfl⟩ := List.getElem?_eq_some_iff.mp found
    rw [label?, if_pos (List.getElem_mem short), once.idxOf_getElem]

theorem labelled_ofImage (listed : ofImage image = .ok l) : Labelled l := by
  have once := nodup_labels listed
  have ordered := labels_ordered listed
  refine
    { once := once
      places := fun a => mem_labels listed
      table := fun a => isSome_label?_iff
      names := ?_
      distinct := ?_
      order := ?_ }
  · refine List.ext_getElem (by simp) fun n short _ => ?_
    rw [List.length_map] at short
    rw [List.getElem_map, List.getElem_map, List.getElem_range, label?_eq_labelName once]
    exact List.getElem?_eq_getElem short
  · exact List.Nodup.map (fun _ _ => labelName_injective) List.nodup_range
  · intro m n a b first second
    rw [label?_eq_labelName once] at first second
    obtain ⟨hm, rfl⟩ := List.getElem?_eq_some_iff.mp first
    obtain ⟨hn, rfl⟩ := List.getElem?_eq_some_iff.mp second
    constructor
    · exact List.pairwise_iff_getElem.mp ordered m n hm hn
    · rintro ⟨k, earlier, later⟩
      by_contra above
      rcases Nat.lt_or_eq_of_le (Nat.not_lt.mp above) with behind | rfl
      · -- The other way round, one of the two prefixes holds both references.
        obtain ⟨j, refers, absent⟩ := List.pairwise_iff_getElem.mp ordered n m hn hm behind
        rcases Nat.le_total j k with le | le
        · exact later (refers_take le refers)
        · exact absent (refers_take le earlier)
      · exact later earlier

end Table

section Lines

theorem labelLine_injective {p : Palette} {name other : String}
    (h : labelLine p name = labelLine p other) : name = other := by
  rw [labelLine, labelLine, String.append_assoc, String.append_assoc, String.append_assoc,
    String.append_assoc, String.append_right_inj, String.append_left_inj] at h
  exact h

theorem labelLine_ne_lineOf (palette : style.palette = .ofChoice coloured) (l : Listing) (n : Nat)
    (e : Nat × Instruction) : l.lineOf style e ≠ labelLine style.palette (labelName n) := by
  intro same
  have kind := @isInstructionLine_labelLine coloured _ (head?_labelName n)
  rw [← palette, ← same, isInstructionLine_lineOf] at kind
  cases kind

theorem labelLine_not_mem_opening (palette : style.palette = .ofChoice coloured) (l : Listing)
    (n : Nat) : labelLine style.palette (labelName n) ∉ opening style l := by
  intro mem
  rw [opening] at mem
  rcases List.mem_append.mp mem with static | start
  · rw [palette] at static
    refine (kind_staticLines coloured l.statics _ static).2 ?_
    rw [labelLine, String.toList_append]
    exact List.getLast?_concat
  · split at start
    · cases start
    · exact labelName_ne_start n (labelLine_injective (List.mem_singleton.mp start))

theorem count_labelLines (style : Style) (l : Listing) (address : Nat) (name : String) :
    (labelLines style l address).count (labelLine style.palette name) =
      (l.label? address).toList.count name := by
  rw [labelLines]
  cases l.label? address with
  | none => rfl
  | some other =>
    by_cases same : other = name
    · simp [same]
    · have apart : labelLine style.palette other ≠ labelLine style.palette name :=
        fun h => same (labelLine_injective h)
      simp [same, apart]

/-- The line of a label stands among those of instructions as often as the label among
their addresses. -/
theorem count_blocks (palette : style.palette = .ofChoice coloured) (l : Listing) (n : Nat)
    (placed : List (Nat × Instruction)) :
    (placed.flatMap (block style l)).count (labelLine style.palette (labelName n)) =
      ((placed.map Prod.fst).flatMap fun a => (l.label? a).toList).count (labelName n) := by
  induction placed with
  | nil => rfl
  | cons e rest ih =>
    have own : [l.lineOf style e].count (labelLine style.palette (labelName n)) = 0 := by
      rw [List.count_eq_zero, List.mem_singleton]
      exact (labelLine_ne_lineOf palette l n e).symm
    rw [List.flatMap_cons, List.count_append, ih, block, List.count_append, count_labelLines, own,
      List.map_cons, List.flatMap_cons, List.count_append, Nat.add_zero]

/-- The lines of labels in the text of a listing. -/
structure ShowsLabels (style : Style) (l : Listing) : Prop where
  once : ∀ n, (Text.lines (l.text style)).count (labelLine style.palette (labelName n)) =
    if n < l.labels.length then 1 else 0
  instructions :
    (Text.lines (l.text style)).filter isInstructionLine = l.instructions.map (l.lineOf style)
  /-- Behind the line of a label comes that of the instruction at its address, which has as
  many before it in the text as in the code, or nothing if that is the end of the code. -/
  placed : ∀ a name, l.label? a = some name → ∃ before after,
    Text.lines (l.text style) = before ++ labelLine style.palette name :: after ∧
      ((∃ i later, l.instructions[(before.filter isInstructionLine).length]? = some (a, i) ∧
          after = l.lineOf style (a, i) :: later) ∨
        a = l.stop ∧ after = [])

theorem count_labelLine (listed : ofImage image = .ok l)
    (palette : style.palette = .ofChoice coloured) (n : Nat) :
    (l.lines style).count (labelLine style.palette (labelName n)) =
      if n < l.labels.length then 1 else 0 := by
  obtain ⟨is, _, _, instructions, stop, labels⟩ := parts_of_ofImage listed
  have opened := List.count_eq_zero.mpr (labelLine_not_mem_opening palette l n)
  have total : (l.lines style).count (labelLine style.palette (labelName n)) =
      ((places image.codeOffset is).filterMap l.label?).count (labelName n) := by
    rw [lines_eq_blocks, List.count_append, List.count_append, opened, count_blocks palette,
      count_labelLines, List.filterMap_eq_flatMap_toList, places, List.flatMap_append,
      List.count_append, instructions, stop, Nat.zero_add, List.flatMap_singleton]
  have mem : labelName n ∈ (places image.codeOffset is).filterMap l.label? ↔
      n < l.labels.length := by
    rw [List.mem_filterMap]
    constructor
    · rintro ⟨address, _, named⟩
      obtain ⟨mem, same⟩ := label?_eq_some named
      rw [labelName_injective same]
      exact List.idxOf_lt_length_of_mem mem
    · intro short
      have named := (label?_eq_labelName (nodup_labels listed)).mpr (List.getElem?_eq_getElem short)
      exact ⟨_, mem_places_of_label labels named, named⟩
  rw [total, (labels_nodup l _ _).count]
  simp only [mem]

/-- The line of a label is followed by that of the instruction at its address. -/
theorem exists_split (listed : ofImage image = .ok l)
    (palette : style.palette = .ofChoice coloured) {address : Nat} {name : String}
    (named : l.label? address = some name) :
    ∃ before after, l.lines style = before ++ labelLine style.palette name :: after ∧
      ((∃ i later, l.instructions[(before.filter isInstructionLine).length]? = some (address, i) ∧
          after = l.lineOf style (address, i) :: later) ∨
        address = l.stop ∧ after = []) := by
  have opened := filter_others (isInstructionLine_opening palette l)
  have shown : labelLines style l address = [labelLine style.palette name] := by
    rw [labelLines, named]
    rfl
  rcases ((mem_labels listed).mp (label?_eq_some named).1).2 with inside | rfl
  · obtain ⟨⟨_, i⟩, he, rfl⟩ := List.mem_map.mp inside
    obtain ⟨done, rest, split⟩ := List.append_of_mem he
    refine ⟨opening style l ++ done.flatMap (block style l),
      l.lineOf style (_, i) :: (rest.flatMap (block style l) ++ labelLines style l l.stop), ?_,
      Or.inl ⟨i, _, ?_, rfl⟩⟩
    · rw [lines_eq_blocks, split, List.flatMap_append, List.flatMap_cons, block, shown]
      simp only [List.append_assoc, List.cons_append, List.nil_append]
    · rw [List.filter_append, opened, filter_blocks palette, List.nil_append, List.length_map, split]
      rw [List.getElem?_append_right (Nat.le_refl _), Nat.sub_self]
      rfl
  · refine ⟨opening style l ++ l.instructions.flatMap (block style l), [], ?_, Or.inr ⟨rfl, rfl⟩⟩
    rw [lines_eq_blocks, shown]

/-- Exactly those addresses have a label that some jump or call leads to and that are the
start of an instruction or the end of the code, each one label. The names are numbered
from 0 on in the order of first references. In the text, in colour or not, every label
has one line, right before that of the instruction at its address, or as the last line if
its address is the end of the code. -/
theorem labels_discovered (listed : ofImage image = .ok l) :
    Labelled l ∧ ∀ style coloured, style.palette = Palette.ofChoice coloured →
      ShowsLabels style l := by
  refine ⟨labelled_ofImage listed, fun style coloured palette => ?_⟩
  constructor
  · intro n
    rw [lines_text listed palette]
    exact count_labelLine listed palette n
  · rw [lines_text listed palette]
    exact filter_lines palette l
  · intro address name named
    rw [lines_text listed palette]
    exact exists_split listed palette named

/-- A target behind, one ahead that is met twice, the end of the code, the middle of an
instruction and the static segment. -/
theorem labels_discovered_targets :
    let image : Image := ⟨some 0, [0], [0x20, 7, 0, 0x27, 1, 0, 0x20, 16, 0, 0x21, 7, 0, 0x22, 2, 0],
      nofun, by decide⟩
    ∃ l, ofImage image = .ok l ∧ l.labels = [7, 1, 16] ∧ l.label? 16 = some "_LABEL_2" ∧
      (¬∃ k, Refers (l.instructions.take k) 16 ∧ ¬Refers (l.instructions.take k) 1) ∧
      (Text.lines (l.text ⟨true, false, .plain⟩)).count "_LABEL_0:" = 1 ∧
      ∃ before, Text.lines (l.text ⟨true, true, .ansi⟩) = before ++ ["\x1b[34m_LABEL_2\x1b[0m:"] := by
  intro image
  let l : Listing := ⟨.texts [(0, "")],
    [(1, ⟨.jump .always, .imm 7, rfl⟩), (4, ⟨.call, .imm 1, rfl⟩), (7, ⟨.jump .always, .imm 16, rfl⟩),
      (10, ⟨.jump .equal, .imm 7, rfl⟩), (13, ⟨.jump .notEqual, .imm 2, rfl⟩)], [7, 1, 16], 16⟩
  have listed : ofImage image = .ok l := Result.eq_ok_of_toOption (by decide +kernel)
  obtain ⟨labelled, shows⟩ := labels_discovered listed
  have behind : l.label? 1 = some (labelName 1) := rfl
  have last : l.label? 16 = some (labelName 2) := rfl
  refine ⟨l, listed, rfl, last, ?_, (shows ⟨true, false, .plain⟩ false rfl).once 0, ?_⟩
  · rw [← labelled.order 2 1 16 1 last behind]
    decide
  · obtain ⟨before, after, whole, ⟨i, later, found, _⟩ | ⟨_, rfl⟩⟩ :=
      (shows ⟨true, true, .ansi⟩ true rfl).placed 16 _ last
    · -- No instruction lies at the end of the code.
      have mem : (16, i) ∈ l.instructions := List.mem_of_getElem? found
      simp [l] at mem
    · exact ⟨before, whole⟩

end Lines

end WordMachine.Listing
