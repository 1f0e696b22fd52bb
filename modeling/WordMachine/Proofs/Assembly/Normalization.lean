import WordMachine.Proofs.Assembly.Presentation

/-! Normalized sources. What is left of a line is the part between the blanks
around it and before its comment, and nothing else of it counts. Such a part is
left as it is when it is a line itself, so a source made of the lines that are left
of another is already normalized. -/
namespace WordMachine

namespace Text

/-- Around a trimmed text there were blanks. -/
theorem parts_trim (cs : List Char) :
    ∃ front back, cs = front ++ trim cs ++ back ∧
      (∀ c ∈ front, isBlank c = true) ∧ ∀ c ∈ back, isBlank c = true := by
  obtain ⟨back, whole, trailing⟩ := exists_trim cs
  exact ⟨cs.takeWhile isBlank, back, whole, fun c hc => List.mem_takeWhile_imp hc, trailing⟩

/-- A trimmed text neither begins nor ends with a blank. -/
theorem ends_trim (cs : List Char) :
    (∀ c ∈ (trim cs).head?, isBlank c = false) ∧ ∀ c ∈ (trim cs).getLast?, isBlank c = false := by
  constructor
  · obtain ⟨back, whole, _⟩ := exists_trim cs
    have kept : trim cs ++ back = cs.dropWhile isBlank := by
      apply List.append_cancel_left
      rw [← List.append_assoc, ← whole, List.takeWhile_append_dropWhile]
    intro c hc
    apply isBlank_head_dropWhile cs
    rw [← kept, List.head?_append, hc]
    rfl
  · intro c hc
    rw [trim, List.getLast?_reverse] at hc
    exact isBlank_head_dropWhile _ c hc

/-- No double quote is a blank. -/
theorem count_blanks {blanks : List Char} (blank : ∀ c ∈ blanks, isBlank c = true) :
    blanks.count '"' = 0 := by
  refine List.count_eq_zero.mpr fun quote => ?_
  exact absurd (blank _ quote) (by decide)

end Text

namespace Line

section Split

theorem split_cons (c : Char) (source : List Char) :
    split (c :: source) =
      if c = '\n' then [] :: split source
      else match split source with
        | [] => [[c]]
        | line :: rest => (c :: line) :: rest := rfl

/-- There is always a first line. -/
theorem split_ne_nil (source : List Char) : split source ≠ [] := by
  cases source with
  | nil => exact List.cons_ne_nil [] []
  | cons c rest =>
    rw [split_cons]
    split
    · exact List.cons_ne_nil _ _
    · split <;> exact List.cons_ne_nil _ _

/-- Lines are what stands between line feeds. -/
theorem intercalate_split (source : List Char) :
    ['\n'].intercalate (split source) = source ∧ ∀ raw ∈ split source, '\n' ∉ raw := by
  induction source with
  | nil =>
    constructor
    · rfl
    · intro raw mem
      rw [List.mem_singleton.mp mem]
      exact List.not_mem_nil
  | cons c rest ih =>
    obtain ⟨joined, single⟩ := ih
    obtain ⟨line, others, cut⟩ := List.exists_cons_of_ne_nil (split_ne_nil rest)
    rw [cut] at joined single
    obtain ⟨first, later⟩ := List.forall_mem_cons.mp single
    rw [split_cons, cut]
    by_cases feed : c = '\n'
    · subst feed
      rw [if_pos rfl]
      constructor
      · rw [← joined]
        rfl
      · exact List.forall_mem_cons.mpr ⟨List.not_mem_nil, single⟩
    · rw [if_neg feed]
      constructor
      · rw [← joined]
        cases others <;> rfl
      · refine List.forall_mem_cons.mpr ⟨fun mem => ?_, later⟩
        rcases List.mem_cons.mp mem with same | mem
        · exact feed same.symm
        · exact first mem

theorem split_single {line : List Char} (single : '\n' ∉ line) : split line = [line] := by
  obtain ⟨joined, _⟩ := intercalate_split line
  cases cut : split line with
  | nil => exact absurd cut (split_ne_nil line)
  | cons first rest =>
    rw [cut] at joined
    cases rest with
    | nil => rw [← joined, List.intercalate_singleton]
    | cons second rest =>
      have whole : line = first ++ '\n' :: ['\n'].intercalate (second :: rest) := joined.symm
      refine absurd ?_ single
      rw [whole]
      exact List.mem_append_right first List.mem_cons_self

/-- Lines that are put together are the lines of what they make up. -/
theorem split_intercalate {lines : List (List Char)} (some_line : lines ≠ [])
    (single : ∀ line ∈ lines, '\n' ∉ line) : split (['\n'].intercalate lines) = lines := by
  induction lines with
  | nil => exact absurd rfl some_line
  | cons line rest ih =>
    obtain ⟨here, later⟩ := List.forall_mem_cons.mp single
    cases rest with
    | nil => rw [List.intercalate_singleton, split_single here]
    | cons second rest =>
      have joined : ['\n'].intercalate (line :: second :: rest) =
          line ++ '\n' :: ['\n'].intercalate (second :: rest) := rfl
      rw [joined, split_append here, ih (List.cons_ne_nil second rest) later]

end Split

section Comments

variable {quoted : Bool} {raw text : List Char}

/-- No comment begins in the text: before any two slashes in it a literal is open. -/
def Bare (text : List Char) : Prop :=
  ∀ before after, text = before ++ '/' :: '/' :: after → before.count '"' % 2 = 1

/-- Whether a literal is open depends on the double quotes before. -/
theorem parity_quotes (quoted : Bool) (c : Char) (before : List Char) :
    (before.count '"' + (quoted != (c == '"')).toNat) % 2 =
      ((c :: before).count '"' + quoted.toNat) % 2 := by
  rw [List.count_cons]
  cases quoted <;> cases c == '"' <;> simp [Nat.add_assoc]

/-- Two slashes are left only where a literal is open. -/
theorem quoted_of_uncommented {before after : List Char}
    (left : uncommented quoted raw = before ++ '/' :: '/' :: after) :
    (before.count '"' + quoted.toNat) % 2 = 1 := by
  induction raw generalizing quoted before with
  | nil => simp [uncommented] at left
  | cons c rest ih =>
    rw [uncommented] at left
    by_cases cut : c = '/' ∧ quoted = false ∧ rest.head? = some '/'
    · simp [if_pos cut] at left
    · rw [if_neg cut] at left
      cases before with
      | nil =>
        obtain ⟨slash, next⟩ := List.cons.inj left
        have second : rest.head? = some '/' := by
          obtain ⟨more, whole⟩ := prefix_uncommented (quoted != (c == '"')) rest
          rw [← whole, next]
          rfl
        cases quoted with
        | true => rfl
        | false => exact absurd ⟨slash, rfl, second⟩ cut
      | cons d before =>
        obtain ⟨rfl, others⟩ := List.cons.inj left
        rw [← parity_quotes]
        exact ih others

/-- A text is left whole if a literal is open at all slashes that come in twos. -/
theorem uncommented_eq_self
    (opened : ∀ before after, text = before ++ '/' :: '/' :: after →
      (before.count '"' + quoted.toNat) % 2 = 1) : uncommented quoted text = text := by
  induction text generalizing quoted with
  | nil => rfl
  | cons c rest ih =>
    have going : ¬(c = '/' ∧ quoted = false ∧ rest.head? = some '/') := by
      rintro ⟨rfl, rfl, second⟩
      obtain ⟨more, rfl⟩ := List.head?_eq_some_iff.mp second
      exact absurd (opened [] more rfl) (by decide)
    rw [uncommented, if_neg going, ih]
    intro before after whole
    rw [parity_quotes]
    exact opened (c :: before) after (by rw [whole]; rfl)

/-- A line goes on behind what is left of it with a comment or not at all. -/
theorem exists_note (quoted : Bool) (raw : List Char) :
    ∃ note, raw = uncommented quoted raw ++ note ∧
      (note = [] ∨ ((uncommented quoted raw).count '"' + quoted.toNat) % 2 = 0 ∧
        ∃ more, note = '/' :: '/' :: more) := by
  induction raw generalizing quoted with
  | nil => exact ⟨[], rfl, Or.inl rfl⟩
  | cons c rest ih =>
    rw [uncommented]
    by_cases cut : c = '/' ∧ quoted = false ∧ rest.head? = some '/'
    · rw [if_pos cut]
      obtain ⟨rfl, rfl, second⟩ := cut
      obtain ⟨more, rfl⟩ := List.head?_eq_some_iff.mp second
      exact ⟨'/' :: '/' :: more, rfl, Or.inr ⟨rfl, more, rfl⟩⟩
    · rw [if_neg cut]
      obtain ⟨note, whole, ends⟩ := ih (quoted != (c == '"'))
      refine ⟨note, by rw [List.cons_append, ← whole], ?_⟩
      rw [← parity_quotes]
      exact ends

end Comments

section Contents

variable {raw text : List Char}

/-- The text is what counts of the line: blanks stand before it, and blanks and
perhaps a comment behind it. -/
structure Leaves (raw text : List Char) : Prop where
  filled : text ≠ []
  first : ∀ c ∈ text.head?, Text.isBlank c = false
  last : ∀ c ∈ text.getLast?, Text.isBlank c = false
  bare : Bare text
  part : ∃ front back note, raw = front ++ text ++ back ++ note ∧
    (∀ c ∈ front, Text.isBlank c = true) ∧ (∀ c ∈ back, Text.isBlank c = true) ∧
    (note = [] ∨ text.count '"' % 2 = 0 ∧ ∃ more, note = '/' :: '/' :: more)

/-- A line is made of blanks, its content, blanks and perhaps a comment. -/
theorem parts_content (raw : List Char) :
    ∃ front back note, raw = front ++ content raw ++ back ++ note ∧
      (∀ c ∈ front, Text.isBlank c = true) ∧ (∀ c ∈ back, Text.isBlank c = true) ∧
      (note = [] ∨ (content raw).count '"' % 2 = 0 ∧ ∃ more, note = '/' :: '/' :: more) := by
  obtain ⟨note, whole, ends⟩ := exists_note false raw
  obtain ⟨front, back, trimmed, leading, trailing⟩ := Text.parts_trim (uncommented false raw)
  have quotes : (uncommented false raw).count '"' = (content raw).count '"' := by
    rw [trimmed, List.count_append, List.count_append, Text.count_blanks leading,
      Text.count_blanks trailing, Nat.zero_add, Nat.add_zero, content]
  refine ⟨front, back, note, ?_, leading, trailing, ?_⟩
  · rw [content, ← trimmed, ← whole]
  · rw [← quotes]
    exact ends

theorem bare_content (raw : List Char) : Bare (content raw) := by
  intro before after split
  obtain ⟨front, back, trimmed, leading, _⟩ := Text.parts_trim (uncommented false raw)
  have left : uncommented false raw = (front ++ before) ++ '/' :: '/' :: (after ++ back) := by
    rw [trimmed, ← content, split]
    simp
  have odd := quoted_of_uncommented left
  rw [List.count_append, Text.count_blanks leading, Nat.zero_add] at odd
  exact odd

theorem leaves_content (filled : content raw ≠ []) : Leaves raw (content raw) :=
  ⟨filled, (Text.ends_trim _).1, (Text.ends_trim _).2, bare_content raw, parts_content raw⟩

/-- What is left of a line is left of itself, too. -/
theorem content_content (raw : List Char) : content (content raw) = content raw := by
  have whole : uncommented false (content raw) = content raw :=
    uncommented_eq_self (bare_content raw)
  obtain ⟨first, last⟩ := Text.ends_trim (uncommented false raw)
  rw [content, whole]
  exact Text.trim_of_ends first last

/-- Nothing is left of a line exactly if it is blank up to a comment. -/
theorem content_eq_nil : content raw = [] ↔ Vacant raw := by
  constructor
  · intro nothing
    obtain ⟨front, back, note, whole, leading, trailing, ends⟩ := parts_content raw
    rw [nothing, List.append_nil] at whole
    exact ⟨front ++ back, note, whole, List.forall_mem_append.mpr ⟨leading, trailing⟩,
      ends.imp_right And.right⟩
  · exact content_vacant

end Contents

section Sources

/-- Numbers of normalized lines increase. -/
theorem numbers_increase (source : String) :
    (normalize source).Pairwise fun s t => s.number < t.number := by
  have numbered : ((split source.toList).zipIdx 1).Pairwise fun s t => s.2 < t.2 := by
    rw [← List.pairwise_map, List.zipIdx_map_snd]
    exact List.pairwise_lt_range'
  refine List.Pairwise.filterMap _ ?_ numbered
  rintro ⟨raw, m⟩ ⟨other, n⟩ less line kept later keptLater
  simp only [Option.ite_none_left_eq_some, Option.some.injEq] at kept keptLater
  rw [← kept.2, ← keptLater.2]
  exact less

/-- A line of the source has no normalized line exactly if it is vacant. -/
theorem vacant_iff {source : String} {k : Nat} {raw : List Char}
    (found : (split source.toList)[k]? = some raw) :
    (∀ line ∈ normalize source, line.number ≠ k + 1) ↔ Vacant raw := by
  rw [← content_eq_nil]
  constructor
  · intro absent
    by_contra filled
    exact absent _ (mem_normalize.mpr ⟨k, raw, found, filled, rfl⟩) rfl
  · intro nothing line mem number
    obtain ⟨j, other, there, filled, rfl⟩ := mem_normalize.mp mem
    have same : j = k := Nat.succ.inj number
    rw [same, found] at there
    cases there
    exact filled nothing

/-- The content of a line is on one line. -/
theorem single_content {raw : List Char} (single : '\n' ∉ raw) : '\n' ∉ content raw := by
  intro feed
  obtain ⟨front, back, note, whole, _⟩ := parts_content raw
  apply single
  rw [whole]
  simp [feed]

/-- Lines that are left of a source are left of themselves. -/
theorem texts_normalize_texts (source : String) :
    (normalize ("\n".intercalate ((normalize source).map text))).map text =
      (normalize source).map text := by
  generalize contents : ((split source.toList).map content).filter (!·.isEmpty) = texts
  have each : ∀ t ∈ texts, t ≠ [] ∧ '\n' ∉ t ∧ content t = t := by
    intro t ht
    rw [← contents, List.mem_filter, List.mem_map] at ht
    obtain ⟨⟨raw, mem, rfl⟩, filled⟩ := ht
    refine ⟨by simpa using filled, ?_, content_content raw⟩
    exact single_content ((intercalate_split source.toList).2 raw mem)
  have left : (normalize source).map text = texts.map String.ofList := by
    rw [texts_normalize, contents]
  have joined : ("\n".intercalate (texts.map String.ofList)).toList = ['\n'].intercalate texts := by
    rw [String.toList_intercalate, List.map_map]
    simp [Function.comp_def]
  rw [left, texts_normalize, joined]
  cases texts with
  | nil => rfl
  | cons first rest =>
    rw [split_intercalate (List.cons_ne_nil first rest) fun t ht => (each t ht).2.1,
      List.map_congr_left fun t ht => (each t ht).2.2, List.map_id', List.filter_eq_self.mpr]
    intro t ht
    simpa using (each t ht).1

/-- A source is normalized to the contents of its lines, each with the number of its
line: there is one for every line that does not leave all to blanks and a comment,
none of them holds a comment or has a blank around it, and they are what is left of
a source made of them. -/
theorem normal_lines (source : String) :
    (['\n'].intercalate (split source.toList) = source.toList ∧
      ∀ raw ∈ split source.toList, '\n' ∉ raw) ∧
    ((normalize source).Pairwise fun s t => s.number < t.number) ∧
    (∀ line ∈ normalize source, ∃ k raw, line.number = k + 1 ∧
      (split source.toList)[k]? = some raw ∧ Leaves raw line.text.toList) ∧
    (∀ k raw, (split source.toList)[k]? = some raw →
      ((∀ line ∈ normalize source, line.number ≠ k + 1) ↔ Vacant raw)) ∧
    (normalize ("\n".intercalate ((normalize source).map text))).map text =
      (normalize source).map text := by
  refine ⟨intercalate_split source.toList, numbers_increase source, fun line mem => ?_,
    fun k raw found => vacant_iff found, texts_normalize_texts source⟩
  obtain ⟨k, raw, found, filled, rfl⟩ := mem_normalize.mp mem
  refine ⟨k, raw, rfl, found, ?_⟩
  rw [String.toList_ofList]
  exact leaves_content filled

/-- Slashes in a literal, in three behind it, and behind blanks only. -/
theorem normal_lines_quoted :
    let source := "\n\t$A: \"//\" /// x\r\n // y"
    normalize source = [⟨2, "$A: \"//\""⟩] ∧
      (∃ raw, (split source.toList)[1]? = some raw ∧ Leaves raw "$A: \"//\"".toList) ∧
      ∃ raw, (split source.toList)[2]? = some raw ∧ Vacant raw := by
  intro source
  have lines : normalize source = [⟨2, "$A: \"//\""⟩] := by decide +kernel
  obtain ⟨_, _, leaves, vacant, _⟩ := normal_lines source
  rw [lines] at leaves vacant
  obtain ⟨k, raw, number, found, kept⟩ := leaves _ List.mem_cons_self
  obtain rfl : k = 1 := (Nat.succ.inj number).symm
  refine ⟨lines, ⟨raw, found, kept⟩, " // y".toList, by decide +kernel, ?_⟩
  apply (vacant 2 _ (by decide +kernel)).mp
  intro line mem
  rw [List.mem_singleton.mp mem]
  decide

end Sources

end Line

end WordMachine
