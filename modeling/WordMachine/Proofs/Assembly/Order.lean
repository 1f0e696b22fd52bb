import WordMachine.Proofs.Assembly.Naming

/-! Names and lines of code in order. The sections of a source are named by its
labels and by the block before the first one. Every other line belongs to the
last label before it; lines that belong to the start section are linked first,
the rest in the order of the source. -/
namespace WordMachine

namespace Section

variable {lines : List Line}

/-- The first line is not a label. -/
def leads (lines : List Line) : Bool :=
  lines.head?.any fun line => (labelName? line.text).isNone

/-- The names of the sections of some code, where lines before the first label
declare the start section. -/
def declaredNames (lines : List Line) : List String :=
  (if leads lines then [startName] else []) ++ lines.filterMap fun line => labelName? line.text

theorem map_name_gather (lines : List Line) :
    (gather lines).2.map name = lines.filterMap fun line => labelName? line.text := by
  induction lines with
  | nil => rfl
  | cons line rest ih =>
    rw [gather_cons, List.filterMap_cons]
    cases labelName? line.text with
    | none => exact ih
    | some name => exact congrArg (name :: ·) ih

theorem isEmpty_lead (lines : List Line) : (gather lines).1.isEmpty = !leads lines := by
  cases lines with
  | nil => rfl
  | cons line rest =>
    rw [gather_cons, leads, List.head?_cons, Option.any_some]
    cases labelName? line.text <;> rfl

theorem map_name_inOrder (lines : List Line) : (inOrder lines).map name = declaredNames lines := by
  simp only [inOrder, declaredNames, isEmpty_lead]
  cases leads lines with
  | false => exact map_name_gather lines
  | true => exact congrArg (startName :: ·) (map_name_gather lines)

/-- The first name of a list that has occurred before. -/
def FirstRepeat (names : List String) (name : String) : Prop :=
  ∃ before after, names = before ++ name :: after ∧ before.Nodup ∧ name ∈ before

theorem firstRepeat?_append (seen before rest : List String) :
    firstRepeat? seen (before ++ rest) =
      (firstRepeat? seen before).or (firstRepeat? (before.reverse ++ seen) rest) := by
  induction before generalizing seen with
  | nil => rfl
  | cons first more ih =>
    simp only [List.cons_append, firstRepeat?]
    split
    · rfl
    · rw [ih, List.reverse_cons, List.append_assoc]
      rfl

theorem cut_of_firstRepeat? {seen names : List String} {name : String}
    (h : firstRepeat? seen names = some name) :
    ∃ before after, names = before ++ name :: after ∧ firstRepeat? seen before = none ∧
      (name ∈ before ∨ name ∈ seen) := by
  induction names generalizing seen with
  | nil => cases h
  | cons first rest ih =>
    rw [firstRepeat?] at h
    split at h
    · next old =>
      cases h
      exact ⟨[], rest, rfl, rfl, Or.inr old⟩
    · next fresh =>
      obtain ⟨before, after, rfl, distinct, again⟩ := ih h
      refine ⟨first :: before, after, rfl, ?_, ?_⟩
      · rw [firstRepeat?, if_neg fresh]
        exact distinct
      · rw [List.mem_cons, or_assoc, or_left_comm, ← List.mem_cons]
        exact again

theorem firstRepeat?_iff {names : List String} {name : String} :
    firstRepeat? [] names = some name ↔ FirstRepeat names name := by
  constructor
  · intro found
    obtain ⟨before, after, all, distinct, again | none⟩ := cut_of_firstRepeat? found
    · exact ⟨before, after, all, (nodup_of_firstRepeat? distinct).1, again⟩
    · cases none
  · rintro ⟨before, after, rfl, once, again⟩
    have known : name ∈ before.reverse ++ [] := by simpa using again
    rw [firstRepeat?_append, firstRepeat?_eq_none once fun _ _ => List.not_mem_nil,
      Option.none_or, firstRepeat?, if_pos known]

theorem partition_error_iff {e : LinkError} :
    partition lines = .error e ↔
      ∃ name, FirstRepeat (declaredNames lines) name ∧ .duplicateSection name = e := by
  simp only [partition, map_name_inOrder, ← firstRepeat?_iff]
  cases firstRepeat? [] (declaredNames lines) <;> simp

theorem partition_ok_iff {sections : List (Section Line)} :
    partition lines = .ok sections ↔
      (declaredNames lines).Nodup ∧ startFirst (inOrder lines) = sections := by
  simp only [partition, map_name_inOrder]
  cases found : firstRepeat? [] (declaredNames lines) with
  | none =>
    have once := (nodup_of_firstRepeat? found).1
    simp [once]
  | some name =>
    constructor
    · intro h
      cases h
    · rintro ⟨once, _⟩
      rw [firstRepeat?_eq_none once fun _ _ => List.not_mem_nil] at found
      cases found

/-- Lines that are not labels, with the name of the section they belong to. -/
def owned (current : String) : List Line → List (String × Line)
  | [] => []
  | line :: rest =>
    match labelName? line.text with
    | some name => owned name rest
    | none => (current, line) :: owned current rest

/-- Lines that are not labels, those of the start section in front. -/
def linkOrder (lines : List Line) : List Line :=
  let all := owned startName lines
  (all.filter (·.1 == startName) ++ all.filter (·.1 != startName)).map Prod.snd

theorem map_snd_owned (current : String) (lines : List Line) :
    (owned current lines).map Prod.snd =
      lines.filter fun line => (labelName? line.text).isNone := by
  induction lines generalizing current with
  | nil => rfl
  | cons line rest ih =>
    rw [owned, List.filter_cons]
    cases labelName? line.text with
    | none => exact congrArg (line :: ·) (ih current)
    | some name => exact ih name

/-- Linking moves lines and loses none. -/
theorem linkOrder_perm (lines : List Line) :
    (linkOrder lines).Perm (lines.filter fun line => (labelName? line.text).isNone) := by
  rw [← map_snd_owned startName]
  exact (List.filter_append_perm _ _).map Prod.snd

theorem mem_linkOrder {line : Line} :
    line ∈ linkOrder lines ↔ line ∈ lines ∧ labelName? line.text = none := by
  rw [(linkOrder_perm lines).mem_iff, List.mem_filter, Option.isNone_iff_eq_none]

/-- The lines of a section with its name. -/
def tagged (s : Section Line) : List (String × Line) := s.body.map (s.name, ·)

theorem owned_eq (current : String) (lines : List Line) :
    owned current lines =
      (gather lines).1.map (current, ·) ++ (gather lines).2.flatMap tagged := by
  induction lines generalizing current with
  | nil => rfl
  | cons line rest ih =>
    rw [owned, gather_cons]
    cases labelName? line.text with
    | none => exact congrArg ((current, line) :: ·) (ih current)
    | some name => exact ih name

theorem owned_start (lines : List Line) :
    owned startName lines = (inOrder lines).flatMap tagged := by
  rw [owned_eq]
  simp only [inOrder]
  cases lead : (gather lines).1 with
  | nil => rfl
  | cons line rest => rfl

theorem flatMap_body_filter (keep : String → Bool) (sections : List (Section Line)) :
    (sections.filter fun s => keep s.name).flatMap body =
      ((sections.flatMap tagged).filter fun o => keep o.1).map Prod.snd := by
  induction sections with
  | nil => rfl
  | cons s rest ih =>
    have own : ((tagged s).filter fun o => keep o.1).map Prod.snd =
        if keep s.name then s.body else [] := by
      rw [tagged, List.filter_map, List.map_map]
      cases kept : keep s.name <;> simp [kept, Function.comp_def]
    rw [List.flatMap_cons, List.filter_append, List.map_append, ← ih, own, List.filter_cons]
    split <;> rfl

/-- The lines of the sections are linked in this order. -/
theorem flatMap_body_startFirst (lines : List Line) :
    (startFirst (inOrder lines)).flatMap body = linkOrder lines := by
  rw [startFirst, List.partition_eq_filter_filter, List.flatMap_append, linkOrder, owned_start,
    List.map_append, ← flatMap_body_filter (· == startName), ← flatMap_body_filter (· != startName)]
  rfl

end Section

end WordMachine
