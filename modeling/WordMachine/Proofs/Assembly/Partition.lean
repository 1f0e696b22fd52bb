import WordMachine.Proofs.Assembly.Order

/-! Partitioning. A line that is no label belongs to the last label before it, or
to the start section when there is none. Lines are divided into one section for
each name, each with the lines that belong to it in their order, unless a name is
declared again; and there is only one way to divide them. -/
namespace WordMachine.Section

variable {lines : List Line} {sections : List (Section Line)}

/-- The name that the line at a place declares, if it is a label. -/
def labelAt? (lines : List Line) (k : Nat) : Option String :=
  lines[k]?.bind fun line => labelName? line.text

/-- The names of the labels in the order of the lines. -/
def labels (lines : List Line) : List String := lines.filterMap fun line => labelName? line.text

/-- The name of the last label before a place, or `current` if there is none. -/
def owner (current : String) (lines : List Line) (k : Nat) : String :=
  ((lines.take k).reverse.findSome? fun line => labelName? line.text).getD current

/-- The lines of a section with this name: they are no labels, and the last label
before them has the name. -/
def belonging (lines : List Line) (name : String) : List Line :=
  (lines.zipIdx.filter fun p =>
    (labelName? p.1.text).isNone && owner startName lines p.2 == name).map Prod.fst

/-- Two labels have one name, or a label names the start section after lines that
belong to it. -/
def Clash (lines : List Line) : Prop :=
  (∃ i j name, i < j ∧ labelAt? lines i = some name ∧ labelAt? lines j = some name) ∨
    labelAt? lines 0 = none ∧ ∃ k, labelAt? lines k = some startName

/-- The lines in sections. -/
structure Divided (lines : List Line) (sections : List (Section Line)) : Prop where
  distinct : (sections.map name).Nodup
  /-- The start section stands first, the others in the order of their labels. -/
  names : sections.map name =
    (if leads lines ∨ startName ∈ labels lines then [startName] else []) ++
      (labels lines).filter (· != startName)
  body : ∀ s ∈ sections, s.body = belonging lines s.name
  /-- A line that is no label has one section to be in. -/
  once : ∀ k line, lines[k]? = some line → labelName? line.text = none →
    ∃ s ∈ sections, s.name = owner startName lines k ∧
      ∀ t ∈ sections, t.name = owner startName lines k → t = s
  whole : (sections.flatMap Section.body).Perm
    (lines.filter fun line => (labelName? line.text).isNone)

theorem leads_iff : leads lines = true ↔ lines ≠ [] ∧ labelAt? lines 0 = none := by
  cases lines with
  | nil => simp [leads]
  | cons line rest => simp [leads, labelAt?]

theorem nodup_labels :
    (labels lines).Nodup ↔
      ¬∃ i j name, i < j ∧ labelAt? lines i = some name ∧ labelAt? lines j = some name := by
  rw [labels, List.Nodup, List.pairwise_filterMap, List.pairwise_iff_getElem]
  constructor
  · rintro apart ⟨i, j, name, before, first, again⟩
    obtain ⟨a, hi, first⟩ := Option.bind_eq_some_iff.mp first
    obtain ⟨b, hj, again⟩ := Option.bind_eq_some_iff.mp again
    obtain ⟨inside, rfl⟩ := List.getElem?_eq_some_iff.mp hi
    obtain ⟨within, rfl⟩ := List.getElem?_eq_some_iff.mp hj
    exact apart i j inside within before name first name again rfl
  · rintro once i j inside within before name first _ again rfl
    refine once ⟨i, j, name, before, ?_, ?_⟩
    · rw [labelAt?, List.getElem?_eq_getElem inside, Option.bind_some, first]
    · rw [labelAt?, List.getElem?_eq_getElem within, Option.bind_some, again]

theorem mem_labels {name : String} : name ∈ labels lines ↔ ∃ k, labelAt? lines k = some name := by
  rw [labels, List.mem_filterMap]
  constructor
  · rintro ⟨line, mem, named⟩
    obtain ⟨k, found⟩ := List.mem_iff_getElem?.mp mem
    exact ⟨k, by rw [labelAt?, found, Option.bind_some, named]⟩
  · rintro ⟨k, named⟩
    obtain ⟨line, found, named⟩ := Option.bind_eq_some_iff.mp named
    exact ⟨line, List.mem_of_getElem? found, named⟩

theorem declaredNames_eq (lines : List Line) :
    declaredNames lines = (if leads lines then [startName] else []) ++ labels lines := rfl

/-- No name is declared twice unless lines clash. -/
theorem nodup_declaredNames : (declaredNames lines).Nodup ↔ ¬Clash lines := by
  rw [declaredNames_eq, Clash, not_or, ← nodup_labels]
  by_cases lead : leads lines = true
  · rw [if_pos lead, List.singleton_append, List.nodup_cons, mem_labels, and_comm]
    simp only [(leads_iff.mp lead).2, true_and]
  · rw [if_neg lead, List.nil_append]
    refine ⟨fun once => ⟨once, ?_⟩, And.left⟩
    rintro ⟨unlabelled, k, start⟩
    refine lead (leads_iff.mpr ⟨?_, unlabelled⟩)
    rintro rfl
    cases start

theorem startName_mem_declaredNames :
    startName ∈ declaredNames lines ↔ leads lines = true ∨ startName ∈ labels lines := by
  rw [declaredNames_eq, List.mem_append]
  by_cases lead : leads lines = true <;> simp [lead]

/-- The start section is linked first, the others as they are declared. -/
theorem map_name_startFirst (once : (declaredNames lines).Nodup) :
    (startFirst (inOrder lines)).map name =
      (if leads lines ∨ startName ∈ labels lines then [startName] else []) ++
        (labels lines).filter (· != startName) := by
  have start : (declaredNames lines).filter (· == startName) =
      if leads lines ∨ startName ∈ labels lines then [startName] else [] := by
    rw [List.filter_beq, once.count]
    simp only [startName_mem_declaredNames]
    split <;> rfl
  have others : (declaredNames lines).filter (· != startName) =
      (labels lines).filter (· != startName) := by
    rw [declaredNames_eq, List.filter_append]
    split <;> rfl
  rw [startFirst, List.partition_eq_filter_filter, List.map_append, ← start, ← others,
    ← map_name_inOrder, List.filter_map, List.filter_map]
  rfl

theorem owner_succ (current : String) (line : Line) (rest : List Line) (k : Nat) :
    owner current (line :: rest) (k + 1) =
      owner ((labelName? line.text).getD current) rest k := by
  rw [owner, List.take_succ_cons, List.reverse_cons, List.findSome?_append,
    List.findSome?_singleton, owner]
  cases (rest.take k).reverse.findSome? fun line => labelName? line.text <;> rfl

/-- Lines that are not labels, each with its owner. -/
theorem owned_eq_zipIdx (current : String) (lines : List Line) :
    owned current lines =
      (lines.zipIdx.filter fun p => (labelName? p.1.text).isNone).map
        fun p => (owner current lines p.2, p.1) := by
  induction lines generalizing current with
  | nil => rfl
  | cons line rest ih =>
    have later : ((rest.zipIdx 1).filter fun p => (labelName? p.1.text).isNone).map
        (fun p => (owner current (line :: rest) p.2, p.1)) =
          owned ((labelName? line.text).getD current) rest := by
      rw [ih, List.zipIdx_succ, List.filter_map, List.map_map]
      refine List.map_congr_left fun p _ => ?_
      exact congrArg (·, p.1) (owner_succ current line rest p.2)
    rw [owned, List.zipIdx_cons, List.filter_cons]
    cases named : labelName? line.text with
    | none =>
      rw [named] at later
      exact congrArg ((current, line) :: ·) later.symm
    | some name =>
      rw [named] at later
      exact later.symm

theorem belonging_eq_owned (lines : List Line) (name : String) :
    belonging lines name = ((owned startName lines).filter (·.1 == name)).map Prod.snd := by
  rw [owned_eq_zipIdx, List.filter_map, List.map_map, List.filter_filter, belonging]
  congr 2
  funext p
  exact Bool.and_comm ..

theorem filter_name (once : (sections.map name).Nodup) {s : Section Line} (mem : s ∈ sections) :
    sections.filter (·.name == s.name) = [s] := by
  induction sections with
  | nil => cases mem
  | cons t rest ih =>
    obtain ⟨fresh, once⟩ := List.nodup_cons.mp once
    rw [List.filter_cons]
    rcases List.mem_cons.mp mem with rfl | later
    · have none : rest.filter (·.name == s.name) = [] := by
        rw [List.filter_eq_nil_iff]
        intro u hu same
        exact fresh (List.mem_map.mpr ⟨u, hu, beq_iff_eq.mp same⟩)
      rw [if_pos (beq_self_eq_true s.name), none]
    · have other : ¬(t.name == s.name) = true := by
        rw [beq_iff_eq]
        intro same
        exact fresh (List.mem_map.mpr ⟨s, later, same.symm⟩)
      rw [if_neg other, ih once later]

/-- A section holds the lines that belong to it. -/
theorem body_inOrder (once : ((inOrder lines).map name).Nodup) {s : Section Line}
    (mem : s ∈ inOrder lines) : s.body = belonging lines s.name := by
  have own := flatMap_body_filter (· == s.name) (inOrder lines)
  rw [filter_name once mem, ← owned_start, ← belonging_eq_owned] at own
  simpa using own

theorem owner_mem_inOrder {k : Nat} {line : Line} (found : lines[k]? = some line)
    (plain : labelName? line.text = none) :
    owner startName lines k ∈ (inOrder lines).map name := by
  have listed : (owner startName lines k, line) ∈ owned startName lines := by
    rw [owned_eq_zipIdx]
    refine List.mem_map.mpr ⟨(line, k), List.mem_filter.mpr ⟨?_, ?_⟩, rfl⟩
    · exact List.mk_mem_zipIdx_iff_getElem?.mpr found
    · rw [plain, Option.isNone_none]
  rw [owned_start, List.mem_flatMap] at listed
  obtain ⟨s, mem, tagged⟩ := listed
  obtain ⟨_, _, same⟩ := List.mem_map.mp tagged
  exact List.mem_map.mpr ⟨s, mem, congrArg Prod.fst same⟩

theorem divided_startFirst (once : (declaredNames lines).Nodup) :
    Divided lines (startFirst (inOrder lines)) := by
  have moved := startFirst_perm (inOrder lines)
  have placed : ((inOrder lines).map name).Nodup := by rwa [map_name_inOrder]
  have distinct := (moved.map name).nodup_iff.mpr placed
  refine
    { distinct
      names := map_name_startFirst once
      body := fun s hs => body_inOrder placed (moved.mem_iff.mp hs)
      once := ?_
      whole := ?_ }
  · intro k line found plain
    obtain ⟨s, mem, own⟩ := List.mem_map.mp (owner_mem_inOrder found plain)
    have mem := moved.mem_iff.mpr mem
    refine ⟨s, mem, own, fun t ht same => ?_⟩
    have alone : t ∈ (startFirst (inOrder lines)).filter (·.name == s.name) :=
      List.mem_filter.mpr ⟨ht, beq_iff_eq.mpr (same.trans own.symm)⟩
    rw [filter_name distinct mem] at alone
    exact List.mem_singleton.mp alone
  · rw [flatMap_body_startFirst]
    exact linkOrder_perm lines

theorem Divided.eq_map (divided : Divided lines sections) :
    sections = (sections.map name).map fun n => ⟨n, belonging lines n⟩ := by
  have same : ∀ s ∈ sections, (⟨s.name, belonging lines s.name⟩ : Section Line) = s := by
    intro s hs
    rw [← divided.body s hs]
  rw [List.map_map]
  exact ((List.map_congr_left same).trans (List.map_id' sections)).symm

/-- There is one way to divide lines. -/
theorem Divided.unique {others : List (Section Line)} (left : Divided lines sections)
    (right : Divided lines others) : sections = others := by
  rw [left.eq_map, right.eq_map, left.names, right.names]

/-- Lines are divided into sections unless names clash; the name that is declared
again is then reported. -/
theorem partition_divides (lines : List Line) :
    (∀ sections, partition lines = .ok sections ↔ ¬Clash lines ∧ Divided lines sections) ∧
      ((∃ name, partition lines = .error (.duplicateSection name)) ↔ Clash lines) ∧
      ∀ e, partition lines = .error e ↔
        ∃ name, FirstRepeat (declaredNames lines) name ∧ .duplicateSection name = e := by
  have divides : ∀ sections, partition lines = .ok sections ↔
      ¬Clash lines ∧ Divided lines sections := by
    intro sections
    rw [partition_ok_iff, nodup_declaredNames]
    refine and_congr_right fun apart => ?_
    have divided := divided_startFirst (nodup_declaredNames.mpr apart)
    constructor
    · rintro rfl
      exact divided
    · exact divided.unique
  refine ⟨divides, ?_, fun e => partition_error_iff⟩
  constructor
  · rintro ⟨name, failed⟩
    refine Classical.byContradiction fun apart => ?_
    have done := (divides _).mpr ⟨apart, divided_startFirst (nodup_declaredNames.mpr apart)⟩
    rw [failed] at done
    cases done
  · intro clash
    cases done : partition lines with
    | error e =>
      obtain ⟨name, _, rfl⟩ := partition_error_iff.mp done
      exact ⟨name, rfl⟩
    | ok sections => exact absurd clash ((divides sections).mp done).1

example : (partition [⟨1, "a:"⟩, ⟨2, "_start:"⟩, ⟨3, "NOOP"⟩, ⟨4, ".b:"⟩, ⟨5, "HALT"⟩]).toOption =
    some [⟨"_START", [⟨3, "NOOP"⟩]⟩, ⟨"A", []⟩, ⟨"B", [⟨5, "HALT"⟩]⟩] := by decide +kernel

end WordMachine.Section
