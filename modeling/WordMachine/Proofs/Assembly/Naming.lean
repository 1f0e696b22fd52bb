import WordMachine.Proofs.Assembly.Section
import WordMachine.Proofs.Text.Case

/-! Names of sections. A label is read off a line in capital letters, so a name
is its own capital form; and a source whose sections have been told apart has no
name twice. -/
namespace WordMachine

namespace Token

theorem flatMap_text_joinGarbage (ps : List Piece) :
    (joinGarbage ps).flatMap Piece.text = ps.flatMap Piece.text := by
  induction ps with
  | nil => rfl
  | cons p rest ih =>
    rw [joinGarbage] at ih ⊢
    rw [List.foldr_cons, List.flatMap_cons, ← ih]
    split
    · next q others joined =>
      split
      · rw [joined, List.flatMap_cons, List.flatMap_cons, List.append_assoc]
      · rw [joined, List.flatMap_cons]
    · next joined => rw [joined, List.flatMap_cons]

theorem text_of_mem_place {start : Nat} {ps : List Piece} {t : Token} (h : t ∈ place start ps) :
    ∃ p ∈ ps, t.text = String.ofList p.text := by
  induction ps generalizing start with
  | nil => cases h
  | cons p rest ih =>
    simp only [place] at h
    by_cases sep : p.kind = .separator
    · rw [if_pos sep] at h
      obtain ⟨q, hq, text⟩ := ih h
      exact ⟨q, List.mem_cons_of_mem p hq, text⟩
    · rw [if_neg sep] at h
      rcases List.mem_cons.mp h with rfl | later
      · exact ⟨p, List.mem_cons_self, rfl⟩
      · obtain ⟨q, hq, text⟩ := ih later
        exact ⟨q, List.mem_cons_of_mem p hq, text⟩

/-- Tokens are made of characters of their line. -/
theorem mem_of_mem_lex {line : String} {t : Token} (h : t ∈ lex line) {c : Char}
    (hc : c ∈ t.text.toList) : c ∈ line.toList := by
  obtain ⟨p, hp, text⟩ := text_of_mem_place h
  rw [text, String.toList_ofList] at hc
  rw [← flatMap_text_pieces line.toList, ← flatMap_text_joinGarbage]
  exact List.mem_flatMap.mpr ⟨p, hp, hc⟩

end Token

namespace Section

theorem upper_labelName? {text name : String} (h : labelName? text = some name) :
    Text.upper name = name := by
  unfold labelName? at h
  split at h
  · next t lexed =>
    split at h
    · injection h with h
      refine @Text.upper_of_mem name text fun c hc => ?_
      rw [← h, String.toList_ofList] at hc
      have inside : c ∈ t.text.toList :=
        (List.dropWhile_suffix _).subset ((List.takeWhile_prefix _).subset hc)
      refine Token.mem_of_mem_lex ?_ inside
      rw [lexed]
      exact List.mem_singleton_self t
    · cases h
  · cases h

theorem upper_gather {lines : List Line} :
    ∀ s ∈ (gather lines).2, Text.upper s.name = s.name := by
  induction lines with
  | nil => exact nofun
  | cons line rest ih =>
    intro s hs
    cases named : labelName? line.text with
    | none =>
      have same : (gather (line :: rest)).2 = (gather rest).2 := by
        rw [gather_cons, named]
      rw [same] at hs
      exact ih s hs
    | some name =>
      have opened : (gather (line :: rest)).2 = ⟨name, (gather rest).1⟩ :: (gather rest).2 := by
        rw [gather_cons, named]
      rw [opened] at hs
      rcases List.mem_cons.mp hs with rfl | later
      · exact upper_labelName? named
      · exact ih s later

theorem upper_inOrder {lines : List Line} : ∀ s ∈ inOrder lines, Text.upper s.name = s.name := by
  have start : Text.upper startName = startName := by decide
  intro s hs
  simp only [inOrder] at hs
  split at hs
  · exact upper_gather s hs
  · rcases List.mem_cons.mp hs with rfl | labelled
    · exact start
    · exact upper_gather s labelled

theorem nodup_of_firstRepeat? {seen names : List String} (h : firstRepeat? seen names = none) :
    names.Nodup ∧ ∀ n ∈ names, n ∉ seen := by
  induction names generalizing seen with
  | nil => exact ⟨List.nodup_nil, nofun⟩
  | cons n rest ih =>
    rw [firstRepeat?] at h
    split at h
    · cases h
    · next fresh =>
      obtain ⟨once, apart⟩ := ih h
      refine ⟨List.nodup_cons.mpr ⟨fun mem => ?_, once⟩, fun m hm => ?_⟩
      · exact apart n mem List.mem_cons_self
      · rcases List.mem_cons.mp hm with rfl | later
        · exact fresh
        · exact fun old => apart m later (List.mem_cons_of_mem n old)

/-- Putting the start section in front moves sections and loses none. -/
theorem startFirst_perm {α : Type} (sections : List (Section α)) :
    (startFirst sections).Perm sections := by
  rw [startFirst, List.partition_eq_filter_filter]
  exact List.filter_append_perm _ sections

theorem names_partition {lines : List Line} {sections : List (Section Line)}
    (h : partition lines = .ok sections) :
    (sections.map name).Nodup ∧ ∀ s ∈ sections, Text.upper s.name = s.name := by
  simp only [partition] at h
  split at h
  · cases h
  · next distinct =>
    cases h
    have moved := startFirst_perm (inOrder lines)
    constructor
    · exact (moved.map name).nodup_iff.mpr (nodup_of_firstRepeat? distinct).1
    · intro s hs
      exact upper_inOrder s (moved.mem_iff.mp hs)

end Section

/-- Sections of a source have names in capital letters, and no two the same. -/
theorem Assembly.names_ofSource {source : String} {a : Assembly} (h : ofSource source = .ok a) :
    (a.sections.map Section.name).Nodup ∧
      ∀ n ∈ a.sections.map Section.name, Text.upper n = n := by
  simp only [ofSource] at h
  split at h
  · cases h
  · split at h
    · cases h
    · next sections partitioned =>
      split at h
      · cases h
      · next compiled hcompiled =>
        cases h
        obtain ⟨once, capital⟩ := Section.names_partition partitioned
        rw [← Section.map_name_of_compiled (Result.mapM_eq_ok.mp hcompiled)]
        refine ⟨once, fun n hn => ?_⟩
        obtain ⟨s, hs, rfl⟩ := List.mem_map.mp hn
        exact capital s hs

end WordMachine
