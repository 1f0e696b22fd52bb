import Mathlib.Data.List.TakeWhile
import WordMachine.Assembly.Line

/-! Source lines read back. A source put together from lines is taken apart into
the same lines, and of each line what counts is left: no blanks around it and no
comment, but slashes between quotes. -/
namespace WordMachine

namespace Text

/-- Blanks in front do not count. -/
theorem trim_append_left {before cs : List Char} (blank : ∀ c ∈ before, isBlank c = true) :
    trim (before ++ cs) = trim cs := by
  rw [trim, List.dropWhile_append_of_pos blank, trim]

/-- Blanks behind do not count. -/
theorem trim_append_right {cs after : List Char} (blank : ∀ c ∈ after, isBlank c = true) :
    trim (cs ++ after) = trim cs := by
  have reversed : ∀ c ∈ after.reverse, isBlank c = true := by
    intro c hc
    exact blank c (List.mem_reverse.mp hc)
  by_cases only : ∀ c ∈ cs, isBlank c = true
  · have gone : cs.dropWhile isBlank = [] := List.dropWhile_eq_nil_iff.mpr only
    have spent : after.dropWhile isBlank = [] := List.dropWhile_eq_nil_iff.mpr blank
    rw [trim, List.dropWhile_append_of_pos only, trim, gone, spent]
  · have kept : cs.dropWhile isBlank ≠ [] := by
      intro gone
      exact only (List.dropWhile_eq_nil_iff.mp gone)
    rw [trim, List.dropWhile_append, if_neg (by simpa using kept), List.reverse_append,
      List.dropWhile_append_of_pos reversed, trim]

/-- A text that neither begins nor ends with a blank is trimmed already. -/
theorem trim_of_ends {cs : List Char} (first : ∀ c ∈ cs.head?, isBlank c = false)
    (last : ∀ c ∈ cs.getLast?, isBlank c = false) : trim cs = cs := by
  have stays : ∀ {ds : List Char}, (∀ c ∈ ds.head?, isBlank c = false) →
      ds.dropWhile isBlank = ds := by
    intro ds h
    cases ds with
    | nil => rfl
    | cons c rest => exact List.dropWhile_cons_of_neg (by rw [h c rfl]; decide)
  have flipped : ∀ c ∈ cs.reverse.head?, isBlank c = false := by
    rw [List.head?_reverse]
    exact last
  rw [trim, stays first, stays flipped, List.reverse_reverse]

/-- Trimming takes off blanks and nothing else. -/
theorem exists_trim (cs : List Char) :
    ∃ after, cs = cs.takeWhile isBlank ++ trim cs ++ after ∧ ∀ c ∈ after, isBlank c = true := by
  refine ⟨((cs.dropWhile isBlank).reverse.takeWhile isBlank).reverse, ?_, ?_⟩
  · rw [trim, List.append_assoc, ← List.reverse_append, List.takeWhile_append_dropWhile,
      List.reverse_reverse, List.takeWhile_append_dropWhile]
  · exact fun c hc => List.mem_takeWhile_imp (List.mem_reverse.mp hc)

theorem trim_between {c d : Char} (first : isBlank c = false) (last : isBlank d = false)
    (middle : List Char) : trim (c :: (middle ++ [d])) = c :: (middle ++ [d]) := by
  apply trim_of_ends
  · intro a ha
    cases ha
    exact first
  · intro a ha
    rw [← List.cons_append, List.getLast?_concat] at ha
    cases ha
    exact last

end Text

namespace Line

theorem split_append {line : List Char} (single : '\n' ∉ line) (rest : List Char) :
    split (line ++ '\n' :: rest) = line :: split rest := by
  induction line with
  | nil => rfl
  | cons c line ih =>
    have apart : c ≠ '\n' := by
      intro same
      exact single (same ▸ List.mem_cons_self)
    have ih := ih fun h => single (List.mem_cons_of_mem c h)
    rw [split] at ih ⊢
    rw [List.cons_append, List.foldr_cons, ih]
    simp only [apart, if_false]

/-- A source is made of the lines that are written to it. -/
theorem split_join {lines : List String} (single : ∀ s ∈ lines, '\n' ∉ s.toList) :
    split (String.join (lines.map (· ++ "\n"))).toList = lines.map String.toList ++ [[]] := by
  induction lines with
  | nil => rfl
  | cons s rest ih =>
    have ih := ih fun t ht => single t (List.mem_cons_of_mem s ht)
    have first : (String.join ((s :: rest).map (· ++ "\n"))).toList =
        s.toList ++ '\n' :: (String.join (rest.map (· ++ "\n"))).toList := by
      simp [String.toList_join]
    rw [first, split_append (single s List.mem_cons_self), ih]
    rfl

/-- Of every piece of a source what counts is left, and of some pieces nothing. -/
theorem texts_normalize (source : String) :
    (normalize source).map text =
      (((split source.toList).map content).filter (!·.isEmpty)).map String.ofList := by
  have numbered : ∀ (raws : List (List Char)) (n : Nat),
      ((raws.zipIdx n).filterMap fun place =>
        let text := content place.1
        if text.isEmpty then none else some (⟨place.2, String.ofList text⟩ : Line)).map text =
      ((raws.map content).filter (!·.isEmpty)).map String.ofList := by
    intro raws
    induction raws with
    | nil => intro n; rfl
    | cons raw rest ih =>
      intro n
      have ih := ih (n + 1)
      simp only [List.map_cons, List.zipIdx_cons, List.filterMap_cons] at ih ⊢
      cases empty : (content raw).isEmpty with
      | true => simpa [empty] using ih
      | false => simpa [empty] using ih
  exact numbered (split source.toList) 1

/-- Of lines put together what counts is left, and of some lines nothing. -/
theorem map_text_normalize {lines : List String} (single : ∀ s ∈ lines, '\n' ∉ s.toList) :
    (normalize (String.join (lines.map (· ++ "\n")))).map text =
      ((lines.map fun s => content s.toList).filter (!·.isEmpty)).map String.ofList := by
  have last : ([[]] : List (List Char)).map content = [[]] := rfl
  rw [texts_normalize, split_join single, List.map_append, List.map_map, last, List.filter_append]
  simp [Function.comp_def]

/-- Lines of which something counts keep just that. -/
theorem map_text_normalize_filled {lines : List String} (single : ∀ s ∈ lines, '\n' ∉ s.toList)
    (filled : ∀ s ∈ lines, content s.toList ≠ []) :
    (normalize (String.join (lines.map (· ++ "\n")))).map text =
      lines.map fun s => String.ofList (content s.toList) := by
  have kept : (lines.map fun s => content s.toList).filter (!·.isEmpty) =
      lines.map fun s => content s.toList := by
    apply List.filter_eq_self.mpr
    intro text htext
    obtain ⟨s, hs, rfl⟩ := List.mem_map.mp htext
    simpa using filled s hs
  rw [map_text_normalize single, kept, List.map_map]
  rfl

/-- Without slashes and quotes there is no comment. -/
theorem uncommented_append {line : List Char} (quoted : Bool)
    (bare : ∀ c ∈ line, c ≠ '"' ∧ (quoted = false → c ≠ '/')) (rest : List Char) :
    uncommented quoted (line ++ rest) = line ++ uncommented quoted rest := by
  induction line with
  | nil => rfl
  | cons c line ih =>
    obtain ⟨unquoted, unslashed⟩ := bare c List.mem_cons_self
    have same : (quoted != (c == '"')) = quoted := by
      rw [beq_eq_false_iff_ne.mpr unquoted, Bool.bne_false]
    have going : ¬(c = '/' ∧ quoted = false ∧ (line ++ rest).head? = some '/') := by
      rintro ⟨slash, free, _⟩
      exact unslashed free slash
    rw [List.cons_append, uncommented, if_neg going, same,
      ih fun d hd => bare d (List.mem_cons_of_mem c hd), List.cons_append]

/-- A character that counts wherever it stands on a line. -/
def Solid (c : Char) : Prop := Text.isBlank c = false ∧ c ≠ '"' ∧ c ≠ '/'

instance (c : Char) : Decidable (Solid c) := inferInstanceAs (Decidable (_ ∧ _ ∧ _))

theorem single_of_solid {cs : List Char} (solid : ∀ c ∈ cs, Solid c) : '\n' ∉ cs := by
  intro feed
  exact absurd (solid _ feed).1 (by decide)

/-- Words of solid characters, none of them empty. -/
def SolidWords (words : List (List Char)) : Prop := ∀ w ∈ words, w ≠ [] ∧ ∀ c ∈ w, Solid c

theorem mem_intercalate {words : List (List Char)} {c : Char}
    (h : c ∈ [' '].intercalate words) : c = ' ' ∨ ∃ w ∈ words, c ∈ w := by
  induction words with
  | nil => cases h
  | cons w rest ih =>
    cases rest with
    | nil =>
      have own : c ∈ w := by simpa [List.intercalate] using h
      exact Or.inr ⟨w, List.mem_cons_self, own⟩
    | cons v rest =>
      simp only [List.intercalate, List.intersperse_cons_cons, List.flatten_cons, List.mem_append,
        List.mem_singleton] at h ih
      rcases h with own | blank | later
      · exact Or.inr ⟨w, List.mem_cons_self, own⟩
      · exact Or.inl blank
      · rcases ih later with blank | ⟨u, hu, hc⟩
        · exact Or.inl blank
        · exact Or.inr ⟨u, List.mem_cons_of_mem w hu, hc⟩

/-- A line of words begins and ends with a word. -/
theorem ends_intercalate {words : List (List Char)} (some_word : words ≠ [])
    (solid : SolidWords words) :
    (∃ c ∈ ([' '].intercalate words).head?, Solid c) ∧
      ∃ c ∈ ([' '].intercalate words).getLast?, Solid c := by
  induction words with
  | nil => exact absurd rfl some_word
  | cons w rest ih =>
    obtain ⟨filled, chars⟩ := solid w List.mem_cons_self
    obtain ⟨first, hfirst⟩ := Option.ne_none_iff_exists'.mp (mt List.head?_eq_none_iff.mp filled)
    obtain ⟨last, hlast⟩ := Option.ne_none_iff_exists'.mp (mt List.getLast?_eq_none_iff.mp filled)
    cases rest with
    | nil =>
      have alone : [' '].intercalate [w] = w := by simp [List.intercalate]
      rw [alone]
      exact ⟨⟨first, hfirst, chars first (List.mem_of_mem_head? hfirst)⟩,
        last, hlast, chars last (List.mem_of_mem_getLast? hlast)⟩
    | cons v rest =>
      obtain ⟨_, d, hd, tail⟩ := ih (List.cons_ne_nil v rest)
        fun u hu => solid u (List.mem_cons_of_mem w hu)
      have joined : [' '].intercalate (w :: v :: rest) =
          w ++ ([' '] ++ [' '].intercalate (v :: rest)) := rfl
      rw [joined]
      refine ⟨⟨first, ?_, chars first (List.mem_of_mem_head? hfirst)⟩, d, ?_, tail⟩
      · rw [List.head?_append, hfirst]
        rfl
      · rw [List.getLast?_append, List.getLast?_append, hd]
        rfl

/-- Of an indented line of words, perhaps with a comment, the words are left. -/
theorem content_words {words : List (List Char)} (some_word : words ≠ [])
    (solid : SolidWords words) (before after : List Char) (indent : ∀ c ∈ before, c = ' ')
    (comment : after = [] ∨ ∃ more, after = ' ' :: ' ' :: '/' :: '/' :: more) :
    content (before ++ [' '].intercalate words ++ after) = [' '].intercalate words := by
  have bare : ∀ c ∈ before ++ [' '].intercalate words,
      c ≠ '"' ∧ (false = false → c ≠ '/') := by
    intro c hc
    rcases List.mem_append.mp hc with hc | hc
    · rw [indent c hc]
      decide
    · rcases mem_intercalate hc with rfl | ⟨w, hw, hc⟩
      · decide
      · obtain ⟨_, quote, slash⟩ := (solid w hw).2 c hc
        exact ⟨quote, fun _ => slash⟩
  have cut : ∃ blanks, uncommented false after = blanks ∧ ∀ c ∈ blanks, Text.isBlank c = true := by
    rcases comment with rfl | ⟨more, rfl⟩
    · exact ⟨[], rfl, nofun⟩
    · exact ⟨[' ', ' '], rfl, List.all_eq_true.mp rfl⟩
  obtain ⟨blanks, left, blank⟩ := cut
  have indented : ∀ c ∈ before, Text.isBlank c = true := by
    intro c hc
    rw [indent c hc]
    decide
  obtain ⟨⟨c, hc, first⟩, d, hd, last⟩ := ends_intercalate some_word solid
  rw [content, uncommented_append false bare, left, Text.trim_append_right blank,
    Text.trim_append_left indented]
  apply Text.trim_of_ends
  · intro a ha
    cases hc.symm.trans ha
    exact first.1
  · intro a ha
    cases hd.symm.trans ha
    exact last.1

/-- The line has the number of a piece of the source, and what counts of that
piece for its text. -/
def StandsIn (line : Line) (source : String) : Prop :=
  ∃ k raw, (split source.toList)[k]? = some raw ∧ content raw ≠ [] ∧
    line = ⟨k + 1, String.ofList (content raw)⟩

theorem mem_normalize {source : String} {line : Line} :
    line ∈ normalize source ↔ line.StandsIn source := by
  simp only [normalize, List.mem_filterMap, Prod.exists, List.mem_zipIdx_iff_le_and_getElem?_sub]
  constructor
  · rintro ⟨raw, number, ⟨above, found⟩, kept⟩
    split at kept
    · cases kept
    · next filled =>
      cases kept
      refine ⟨number - 1, raw, found, ?_, ?_⟩
      · simpa using filled
      · rw [Nat.sub_add_cancel above]
  · rintro ⟨k, raw, found, filled, rfl⟩
    refine ⟨raw, k + 1, ⟨Nat.le_add_left 1 k, found⟩, ?_⟩
    rw [if_neg (by simpa using filled)]

end Line

end WordMachine
