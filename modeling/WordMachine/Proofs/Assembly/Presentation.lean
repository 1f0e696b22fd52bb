import Mathlib.Logic.Relation
import WordMachine.Proofs.Assembly.Alike

/-! Presentation. Blanks around a line, comments, the case of letters outside
literals and the separators between tokens may be changed in any source that
assembles, and vacant lines may be added to it: its bytes stay the same. The
carriage return of a line end is a blank behind the line. -/
namespace WordMachine

namespace Text

/-- Letters are no blanks. -/
theorem map_toUpper_trim (cs : List Char) :
    (trim cs).map Char.toUpper = trim (cs.map Char.toUpper) := by
  have same : isBlank ∘ Char.toUpper = isBlank := funext (toUpper_invariant (by decide))
  rw [trim, trim, List.dropWhile_map, same, ← List.map_reverse, List.dropWhile_map, same,
    List.map_reverse]

/-- A trimmed text stands behind the blanks that were in front of it. -/
theorem getElem?_trim {cs : List Char} {k : Nat} {c : Char} (h : (trim cs)[k]? = some c) :
    cs[(cs.takeWhile isBlank).length + k]? = some c := by
  obtain ⟨after, whole, _⟩ := exists_trim cs
  have inside := (List.getElem?_eq_some_iff.mp h).1
  have found : (cs.takeWhile isBlank ++ (trim cs ++ after))[(cs.takeWhile isBlank).length + k]? =
      some c := by
    rw [List.getElem?_append_right (Nat.le_add_right _ _), Nat.add_sub_cancel_left,
      List.getElem?_append_left inside, h]
  rwa [← List.append_assoc, ← whole] at found

/-- A last character that is no blank stays the last. -/
theorem getLast?_trim {cs : List Char} {c : Char} (last : cs.getLast? = some c)
    (inside : isBlank c = false) : (trim cs).getLast? = some c := by
  have blankless : ∀ {blanks : List Char}, (∀ d ∈ blanks, isBlank d = true) →
      blanks.getLast? ≠ some c := by
    intro blanks blank found
    exact absurd (blank c (List.mem_of_mem_getLast? found)) (by rw [inside]; decide)
  obtain ⟨after, whole, trailing⟩ := exists_trim cs
  rw [whole, List.getLast?_append, List.getLast?_append, Option.or_eq_some_iff,
    Option.or_eq_some_iff] at last
  rcases last with behind | ⟨_, kept | ⟨_, front⟩⟩
  · exact absurd behind (blankless trailing)
  · exact kept
  · exact absurd front (blankless fun d hd => List.mem_takeWhile_imp hd)

theorem isBlank_head_dropWhile (cs : List Char) :
    ∀ c ∈ (cs.dropWhile isBlank).head?, isBlank c = false := by
  intro c hc
  have stops := List.head?_dropWhile_not isBlank cs
  rw [hc] at stops
  exact stops

/-- Between texts that do not begin or end with a blank trimming takes nothing. -/
theorem trim_middle {front : List Char} (back : List Char) {c d : Char}
    (last : front.getLast? = some c) (solid : isBlank c = false) (inside : isBlank d = false) :
    ∃ f b, f.getLast? = some c ∧
      ∀ run, trim (front ++ run ++ d :: back) = f ++ run ++ d :: b := by
  have kept : (front.dropWhile isBlank).getLast? = some c := by
    obtain ⟨before, rfl⟩ := List.getLast?_eq_some_iff.mp last
    rw [List.dropWhile_append]
    split
    · rw [List.dropWhile_cons_of_neg (by rw [solid]; decide)]
      rfl
    · rw [List.getLast?_concat]
  obtain ⟨b, shortened⟩ : ∃ b, trim (d :: back) = d :: b := by
    obtain ⟨after, whole, trailing⟩ := exists_trim (d :: back)
    rw [List.takeWhile_cons_of_neg (by rw [inside]; decide), List.nil_append] at whole
    cases left : trim (d :: back) with
    | nil =>
      rw [left, List.nil_append] at whole
      exact absurd (trailing d (whole ▸ List.mem_cons_self)) (by rw [inside]; decide)
    | cons e b =>
      rw [left] at whole
      exact ⟨b, by rw [(List.cons.inj whole).1]⟩
  obtain ⟨after, whole, trailing⟩ := exists_trim (d :: back)
  rw [List.takeWhile_cons_of_neg (by rw [inside]; decide), List.nil_append, shortened] at whole
  refine ⟨front.dropWhile isBlank, b, kept, fun run => ?_⟩
  have parts : front ++ run ++ d :: back =
      front.takeWhile isBlank ++ (front.dropWhile isBlank ++ run ++ d :: b) ++ after := by
    rw [whole, ← List.append_assoc, ← List.append_assoc, ← List.append_assoc,
      List.takeWhile_append_dropWhile]
  rw [parts, trim_append_right trailing, trim_append_left fun c hc => List.mem_takeWhile_imp hc]
  apply trim_of_ends
  · intro e he
    rw [List.append_assoc, List.head?_append_of_ne_nil _ fun gone => by simp [gone] at kept] at he
    exact isBlank_head_dropWhile front e he
  · intro e he
    rw [List.getLast?_append_of_ne_nil _ (List.cons_ne_nil d b), ← shortened, trim,
      List.getLast?_reverse] at he
    exact isBlank_head_dropWhile _ e he

/-- A character that is no letter is made from itself only. -/
theorem toUpper_eq_iff {d : Char}
    (fixed : ∀ n < 26, (Char.ofNat (n + 97) == d) = (Char.ofNat (n + 65) == d)) (c : Char) :
    c.toUpper = d ↔ c = d := by
  have same : (c.toUpper == d) = (c == d) := toUpper_invariant (p := (· == d)) fixed c
  rw [← beq_iff_eq, same, beq_iff_eq]

end Text

namespace Line

variable {raw raw' blanks : List Char}

/-- Nothing counts of the line: it is blank up to a comment. -/
def Vacant (raw : List Char) : Prop :=
  ∃ blanks note, raw = blanks ++ note ∧ (∀ c ∈ blanks, Text.isBlank c = true) ∧
    (note = [] ∨ ∃ more, note = '/' :: '/' :: more)

/-- The place lies in the literal of a declaration, which reaches from the first
double quote to the last. -/
def InLiteral (raw : List Char) (k : Nat) : Prop :=
  (content raw).head? = some '$' ∧ ∃ i j, i ≤ k ∧ k ≤ j ∧
    (uncommented false raw)[i]? = some '"' ∧ (uncommented false raw)[j]? = some '"'

/-- A whole run of separators between two tokens of an instruction. -/
structure Between (front run back : List Char) : Prop where
  filled : run ≠ []
  separators : run.all Token.isSeparator = true
  behind : ∃ c, front.getLast? = some c ∧ Text.isBlank c = false ∧ Token.isSeparator c = false
  before : ∃ d, back.head? = some d ∧ Text.isBlank d = false ∧ Token.isSeparator d = false
  counts : front.length + run.length < (uncommented false (front ++ run ++ back)).length
  instruction : (content (front ++ run ++ back)).head? ≠ some '$'

/-- A change of one line that does not touch what it says. -/
inductive Edit : List Char → List Char → Prop
  | indent {raw blanks : List Char} : (∀ c ∈ blanks, Text.isBlank c = true) → Edit raw (blanks ++ raw)
  | unindent {raw blanks : List Char} :
      (∀ c ∈ blanks, Text.isBlank c = true) → Edit (blanks ++ raw) raw
  | pad {raw blanks : List Char} : (∀ c ∈ blanks, Text.isBlank c = true) → Edit raw (raw ++ blanks)
  | unpad {raw blanks : List Char} :
      (∀ c ∈ blanks, Text.isBlank c = true) → Edit (raw ++ blanks) raw
  | comment {raw : List Char} (note : List Char) :
      (content raw).count '"' % 2 = 0 → Edit raw (raw ++ '/' :: '/' :: note)
  | recase {raw raw' : List Char} : raw'.map Char.toUpper = raw.map Char.toUpper →
      (∀ k, InLiteral raw k → raw'[k]? = raw[k]?) → Edit raw raw'
  | respace {front run run' back : List Char} : Between front run back → run' ≠ [] →
      run'.all Token.isSeparator = true → Edit (front ++ run ++ back) (front ++ run' ++ back)

section Comments

theorem prefix_uncommented (quoted : Bool) (raw : List Char) : uncommented quoted raw <+: raw := by
  induction raw generalizing quoted with
  | nil => exact List.prefix_refl _
  | cons c rest ih =>
    rw [uncommented]
    split
    · exact List.nil_prefix
    · exact (List.cons_prefix_cons).mpr ⟨rfl, ih _⟩

/-- Blanks behind a line are no part of its comment, or all of them are. -/
theorem uncommented_pad (quoted : Bool) (raw : List Char)
    (blank : ∀ c ∈ blanks, Text.isBlank c = true) :
    ∃ kept, uncommented quoted (raw ++ blanks) = uncommented quoted raw ++ kept ∧
      ∀ c ∈ kept, Text.isBlank c = true := by
  induction raw generalizing quoted with
  | nil =>
    have pre := prefix_uncommented quoted blanks
    exact ⟨_, rfl, fun c hc => blank c (pre.subset hc)⟩
  | cons c rest ih =>
    have next : (rest ++ blanks).head? = some '/' ↔ rest.head? = some '/' := by
      cases rest with
      | nil =>
        refine iff_of_false (fun slash => ?_) (by simp)
        exact absurd (blank '/' (List.mem_of_mem_head? slash)) (by decide)
      | cons d rest => rfl
    simp only [List.cons_append, uncommented, next]
    split
    · exact ⟨[], rfl, List.forall_mem_nil _⟩
    · obtain ⟨kept, same, all⟩ := ih (quoted != (c == '"'))
      exact ⟨kept, by rw [same]; rfl, all⟩

theorem content_indent (blank : ∀ c ∈ blanks, Text.isBlank c = true) :
    content (blanks ++ raw) = content raw := by
  have bare : ∀ c ∈ blanks, c ≠ '"' ∧ (false = false → c ≠ '/') := by
    intro c hc
    constructor
    · rintro rfl
      exact absurd (blank _ hc) (by decide)
    · rintro _ rfl
      exact absurd (blank _ hc) (by decide)
  rw [content, uncommented_append false bare, Text.trim_append_left blank, content]

theorem content_pad (blank : ∀ c ∈ blanks, Text.isBlank c = true) :
    content (raw ++ blanks) = content raw := by
  obtain ⟨kept, same, all⟩ := uncommented_pad false raw blank
  rw [content, same, Text.trim_append_right all, content]

theorem content_vacant (vacant : Vacant raw) : content raw = [] := by
  obtain ⟨blanks, note, rfl, blank, rfl | ⟨more, rfl⟩⟩ := vacant
  · rw [content_indent blank]
    rfl
  · rw [content_indent blank]
    rfl

/-- A comment added behind closed quotes is one, unless a slash stands before it. -/
theorem uncommented_comment {quoted : Bool} (note : List Char)
    (closed : ((uncommented quoted raw).count '"' + quoted.toNat) % 2 = 0)
    (apart : (uncommented quoted raw).getLast? ≠ some '/') :
    uncommented quoted (raw ++ '/' :: '/' :: note) = uncommented quoted raw := by
  induction raw generalizing quoted with
  | nil =>
    cases quoted with
    | false => rfl
    | true => cases closed
  | cons c rest ih =>
    have next : c = '/' ∧ quoted = false ∧ (rest ++ '/' :: '/' :: note).head? = some '/' ↔
        c = '/' ∧ quoted = false ∧ rest.head? = some '/' := by
      cases rest with
      | nil =>
        refine iff_of_false ?_ (fun slashes => nomatch slashes.2.2)
        rintro ⟨rfl, rfl, _⟩
        exact apart rfl
      | cons d rest => rfl
    rw [uncommented] at closed apart
    rw [List.cons_append, uncommented, uncommented]
    simp only [next]
    split
    · rfl
    · next going =>
      rw [if_neg going] at closed apart
      have parity : ∀ n, (n + (quoted != (c == '"')).toNat) % 2 =
          (n + (if c == '"' then 1 else 0) + quoted.toNat) % 2 := by
        intro n
        cases quoted <;> cases c == '"' <;> simp [Nat.add_assoc]
      congr 1
      apply ih
      · rw [parity, ← List.count_cons]
        exact closed
      · intro last
        obtain ⟨before, whole⟩ := List.getLast?_eq_some_iff.mp last
        rw [whole, ← List.cons_append, List.getLast?_concat] at apart
        exact apart rfl

theorem head?_of_readDeclaration {text : List Char} {item : String × List UInt8}
    (read : StaticData.readDeclaration (String.ofList text) = .ok item) : text.head? = some '$' := by
  obtain ⟨name, value, inside, text_eq, _⟩ := StaticData.readDeclaration_eq_ok.mp read
  rw [String.toList_ofList] at text_eq
  rw [text_eq, List.head?_cons]

/-- A declaration ends with a double quote. -/
theorem last_of_readDeclaration {text : String} {item : String × List UInt8} {c : Char}
    (read : StaticData.readDeclaration text = .ok item) (last : text.toList.getLast? = some c)
    (solid : Text.isBlank c = false) : c = '"' := by
  obtain ⟨name, value, inside, text_eq, _, _, quoted, _⟩ := StaticData.readDeclaration_eq_ok.mp read
  have filled : value ≠ [] := by
    rintro rfl
    cases quoted
  have parts : text.toList = ('$' :: name ++ [':']) ++ value := by simp [text_eq]
  rw [parts, List.getLast?_append_of_ne_nil _ filled] at last
  have ends := Text.getLast?_trim last solid
  rw [quoted, ← List.cons_append, List.getLast?_concat] at ends
  exact (Option.some.inj ends).symm

theorem content_comment (note : List Char) (closed : (content raw).count '"' % 2 = 0)
    (apart : (content raw).getLast? ≠ some '/') :
    content (raw ++ '/' :: '/' :: note) = content raw := by
  obtain ⟨after, whole, trailing⟩ := Text.exists_trim (uncommented false raw)
  have unquoted : ∀ {blanks : List Char}, (∀ c ∈ blanks, Text.isBlank c = true) →
      blanks.count '"' = 0 := by
    intro blanks blank
    refine List.count_eq_zero.mpr fun quote => ?_
    exact absurd (blank _ quote) (by decide)
  rw [content, uncommented_comment note, content]
  · rw [whole, List.count_append, List.count_append, unquoted fun c hc => List.mem_takeWhile_imp hc,
      unquoted trailing]
    simpa [content] using closed
  · intro last
    exact apart (Text.getLast?_trim last (by decide))

end Comments

section Cases

/-- Letters are neither slashes nor double quotes. -/
theorem map_toUpper_uncommented (quoted : Bool) (raw : List Char) :
    (uncommented quoted raw).map Char.toUpper = uncommented quoted (raw.map Char.toUpper) := by
  have slash := Text.toUpper_eq_iff (d := '/') (by decide)
  have quote : ∀ c : Char, (c.toUpper == '"') = (c == '"') :=
    Text.toUpper_invariant (p := (· == '"')) (by decide)
  induction raw generalizing quoted with
  | nil => rfl
  | cons c rest ih =>
    have next : (rest.map Char.toUpper).head? = some '/' ↔ rest.head? = some '/' := by
      cases rest with
      | nil => rfl
      | cons d rest => simp [slash]
    simp only [List.map_cons, uncommented, slash, next, quote, ← ih]
    split <;> rfl

theorem map_toUpper_content (raw : List Char) :
    (content raw).map Char.toUpper = content (raw.map Char.toUpper) := by
  rw [content, Text.map_toUpper_trim, map_toUpper_uncommented, content]

theorem length_blanks_recase {cs cs' : List Char}
    (letters : cs'.map Char.toUpper = cs.map Char.toUpper) :
    (cs'.takeWhile Text.isBlank).length = (cs.takeWhile Text.isBlank).length := by
  have same : Text.isBlank ∘ Char.toUpper = Text.isBlank :=
    funext (Text.toUpper_invariant (by decide))
  have counted : ∀ cs : List Char, (cs.takeWhile Text.isBlank).length =
      ((cs.map Char.toUpper).takeWhile Text.isBlank).length := by
    intro cs
    rw [List.takeWhile_map, same, List.length_map]
  rw [counted, letters, ← counted]

/-- How many blanks stand before what counts of a line. -/
def indentation (raw : List Char) : Nat := ((uncommented false raw).takeWhile Text.isBlank).length

/-- What counts of a line stands on it behind its indentation. -/
theorem getElem?_content {k : Nat} {c : Char} (h : (content raw)[k]? = some c) :
    (uncommented false raw)[indentation raw + k]? = some c ∧ raw[indentation raw + k]? = some c := by
  have kept : (uncommented false raw)[indentation raw + k]? = some c := Text.getElem?_trim h
  refine ⟨kept, ?_⟩
  obtain ⟨comment, split⟩ := prefix_uncommented false raw
  have found : (uncommented false raw ++ comment)[indentation raw + k]? = some c := by
    rw [List.getElem?_append_left (List.getElem?_eq_some_iff.mp kept).1, kept]
  rwa [split] at found

theorem indentation_recase (letters : raw'.map Char.toUpper = raw.map Char.toUpper) :
    indentation raw' = indentation raw :=
  length_blanks_recase (by rw [map_toUpper_uncommented, letters, map_toUpper_uncommented])

/-- The name of a declaration may be written in either case. -/
theorem isIdentifier_recase {name name' : List Char}
    (letters : name'.map Char.toUpper = name.map Char.toUpper) :
    StaticData.isIdentifier name' = StaticData.isIdentifier name := by
  have start : ∀ c : Char, (c.toUpper.isAlpha || c.toUpper == '_') = (c.isAlpha || c == '_') :=
    Text.toUpper_invariant (p := fun c => c.isAlpha || c == '_') (by decide)
  have part : ∀ c : Char, (c.toUpper.isAlphanum || c.toUpper == '_') = (c.isAlphanum || c == '_') :=
    Text.toUpper_invariant (p := fun c => c.isAlphanum || c == '_') (by decide)
  have capital : ∀ name, StaticData.isIdentifier (name.map Char.toUpper) =
      StaticData.isIdentifier name := by
    intro name
    cases name with
    | nil => rfl
    | cons c rest =>
      simp only [List.map_cons, StaticData.isIdentifier, start, List.all_map, Function.comp_def, part]
  rw [← capital, letters, capital]

/-- The value of a declaration stands behind its name and the blanks before it. -/
theorem getElem?_value (name : List Char) {value : List Char} {k : Nat} {c : Char}
    (found : (Text.trim value)[k]? = some c) :
    ('$' :: (name ++ ':' :: value))[
      name.length + (value.takeWhile Text.isBlank).length + 2 + k]? = some c := by
  have far : name.length + (value.takeWhile Text.isBlank).length + 2 + k =
      name.length + ((value.takeWhile Text.isBlank).length + k + 1) + 1 := by omega
  rw [far, List.getElem?_cons_succ, List.getElem?_append_right (Nat.le_add_right _ _),
    Nat.add_sub_cancel_left, List.getElem?_cons_succ, Text.getElem?_trim found]

/-- The value of a declaration is its literal, so nothing of it changes. -/
theorem literal_recase {name name' value value' inside : List Char}
    (length : name'.length = name.length)
    (values : value'.map Char.toUpper = value.map Char.toUpper)
    (quoted : Text.trim value = '"' :: (inside ++ ['"']))
    (literal : ∀ i j k : Nat, i ≤ k → k ≤ j → ('$' :: (name ++ ':' :: value))[i]? = some '"' →
      ('$' :: (name ++ ':' :: value))[j]? = some '"' →
      ('$' :: (name' ++ ':' :: value'))[k]? = ('$' :: (name ++ ':' :: value))[k]?) :
    Text.trim value' = Text.trim value := by
  have lengths : (Text.trim value').length = (Text.trim value).length := by
    rw [← List.length_map Char.toUpper, Text.map_toUpper_trim, values, ← Text.map_toUpper_trim,
      List.length_map]
  refine List.ext_getElem lengths fun k h' h => ?_
  have here := getElem?_value name' (List.getElem?_eq_getElem h')
  have there := getElem?_value name (List.getElem?_eq_getElem h)
  have opens : (Text.trim value)[0]? = some '"' := by
    rw [quoted]
    rfl
  have closes : (Text.trim value)[inside.length + 1]? = some '"' := by
    rw [quoted, List.getElem?_cons_succ, List.getElem?_concat_length]
  have first := getElem?_value name opens
  have last := getElem?_value name closes
  rw [quoted, List.length_cons, List.length_append, List.length_singleton] at h
  rw [length, length_blanks_recase values, literal _ _ _ (by omega) (by omega) first last, there]
    at here
  exact (Option.some.inj here).symm

/-- A declaration declares the same while its literal is left alone. -/
theorem readDeclaration_recase {text text' : List Char} {item : String × List UInt8}
    (letters : text'.map Char.toUpper = text.map Char.toUpper)
    (literal : ∀ i j k : Nat, i ≤ k → k ≤ j → text[i]? = some '"' → text[j]? = some '"' →
      text'[k]? = text[k]?)
    (read : StaticData.readDeclaration (String.ofList text) = .ok item) :
    StaticData.readDeclaration (String.ofList text') = .ok item := by
  obtain ⟨name, value, inside, text_eq, uncoloned, named, quoted, ascii, short, rfl⟩ :=
    StaticData.readDeclaration_eq_ok.mp read
  rw [String.toList_ofList] at text_eq
  subst text_eq
  rw [List.map_cons, List.map_append, List.map_cons] at letters
  obtain ⟨d, rest, rfl, dollar, letters⟩ := List.map_eq_cons_iff.mp letters
  obtain ⟨name', rest, rfl, names, letters⟩ := List.map_eq_append_iff.mp letters
  obtain ⟨e, value', rfl, colon, values⟩ := List.map_eq_cons_iff.mp letters
  obtain rfl : d = '$' := (Text.toUpper_eq_iff (by decide) d).mp dollar
  obtain rfl : e = ':' := (Text.toUpper_eq_iff (by decide) e).mp colon
  have trims : (Text.trim name').map Char.toUpper = (Text.trim name).map Char.toUpper := by
    rw [Text.map_toUpper_trim, names, Text.map_toUpper_trim]
  have kept := literal_recase (by simpa using congrArg List.length names) values quoted literal
  refine StaticData.readDeclaration_eq_ok.mpr ⟨name', value', inside, String.toList_ofList, ?_, ?_,
    kept ▸ quoted, ascii, short, ?_⟩
  · intro colon
    have mem : ':' ∈ name.map Char.toUpper := names ▸ List.mem_map_of_mem colon
    obtain ⟨c, hc, same⟩ := List.mem_map.mp mem
    exact uncoloned ((Text.toUpper_eq_iff (by decide) c).mp same ▸ hc)
  · rw [isIdentifier_recase trims, named]
  · rw [Text.upper, Text.upper, String.toList_ofList, String.toList_ofList, trims]

/-- Changing the case outside the literal changes nothing of what a line means. -/
theorem alike_recase (letters : raw'.map Char.toUpper = raw.map Char.toUpper)
    (literal : ∀ k, InLiteral raw k → raw'[k]? = raw[k]?) :
    Alike (String.ofList (content raw)) (String.ofList (content raw')) := by
  have same : (content raw').map Char.toUpper = (content raw).map Char.toUpper := by
    rw [map_toUpper_content, letters, map_toUpper_content]
  have capital : Text.upper (String.ofList (content raw)) =
      Text.upper (String.ofList (content raw')) := by
    rw [Text.upper, Text.upper, String.toList_ofList, String.toList_ofList, same]
  refine ⟨?_, ?_, fun item read => readDeclaration_recase same ?_ read, ?_⟩
  · rw [Text.sameLetters, Text.sameLetters, capital]
  · have first : ∀ cs : List Char, (cs.head? == some '$') =
        ((cs.map Char.toUpper).head? == some '$') := by
      intro cs
      cases cs with
      | nil => rfl
      | cons c rest =>
        exact (Text.toUpper_invariant (p := fun c => some c == some '$') (by decide) c).symm
    rw [String.toList_ofList, String.toList_ofList, first, ← same, ← first]
  · intro i j k low high opened closed
    have lengths := congrArg List.length same
    rw [List.length_map, List.length_map] at lengths
    have within : k < (content raw).length :=
      Nat.lt_of_le_of_lt high (List.getElem?_eq_some_iff.mp closed).1
    have old := getElem?_content (List.getElem?_eq_getElem within)
    have new := getElem?_content (List.getElem?_eq_getElem (lengths ▸ within))
    have quoted : InLiteral raw (indentation raw + k) := by
      refine ⟨head?_of_readDeclaration read, _, _, ?_, ?_, (getElem?_content opened).1,
        (getElem?_content closed).1⟩
      · exact Nat.add_le_add_left low _
      · exact Nat.add_le_add_left high _
    rw [indentation_recase letters, literal _ quoted, old.2] at new
    rw [List.getElem?_eq_getElem within, List.getElem?_eq_getElem (lengths ▸ within), new.2]
  · rw [Token.words, Token.words, capital]

end Cases

section Separators

variable {front run run' back : List Char}

/-- No quote and no slash stands before the comment of an instruction. -/
theorem bare_of_plain (plain : ∀ e ∈ content raw, Token.isPlain e.toUpper = true) :
    ∀ e ∈ uncommented false raw, e ≠ '"' ∧ e ≠ '/' := by
  obtain ⟨after, parts, trailing⟩ := Text.exists_trim (uncommented false raw)
  have cases : ∀ e ∈ uncommented false raw,
      Text.isBlank e = true ∨ Token.isPlain e.toUpper = true := by
    intro e he
    rw [parts, List.mem_append, List.mem_append] at he
    rcases he with (blank | counted) | blank
    · exact .inl (List.mem_takeWhile_imp blank)
    · exact .inr (plain e counted)
    · exact .inl (trailing e blank)
  intro e he
  constructor
  · rintro rfl
    exact absurd (cases _ he) (by decide)
  · rintro rfl
    exact absurd (cases _ he) (by decide)

/-- The marker of the static data is one word. -/
theorem unmarked_of_separator {text : List Char} {e : Char} (mem : e ∈ text)
    (separates : Token.isSeparator e = true) :
    Text.sameLetters (String.ofList text) Separation.marker = false := by
  refine Bool.eq_false_iff.mpr fun marked => ?_
  have capital : e.toUpper ∈ (Text.upper Separation.marker).toList := by
    rw [← Text.sameLetters_iff.mp marked, Text.toList_upper, String.toList_ofList]
    exact List.mem_map_of_mem mem
  have joined : (Text.upper Separation.marker).toList.any Token.isSeparator = false := by decide
  rw [← Text.toUpper_invariant (p := Token.isSeparator) (by decide) e] at separates
  exact List.any_eq_false.mp joined _ capital separates

/-- A line with a run of separators between two tokens keeps its ends whatever
the run is. -/
theorem content_between (between : Between front run back)
    (meaningful : content (front ++ run ++ back) ≠ [] →
      Meaningful (String.ofList (content (front ++ run ++ back)))) :
    ∃ f c d b, f.getLast? = some c ∧ Token.isSeparator c = false ∧ Token.isSeparator d = false ∧
      ∀ run', run'.all Token.isSeparator = true →
        content (front ++ run' ++ back) = f ++ run' ++ d :: b := by
  have plain : ∀ e ∈ content (front ++ run ++ back), Token.isPlain e.toUpper = true := by
    intro e he
    rcases (meaningful (List.ne_nil_of_mem he)).declared_or_plain with ⟨item, read⟩ | plain
    · exact absurd (head?_of_readDeclaration read) between.instruction
    · rw [String.toList_ofList] at plain
      exact plain e he
  have bare : ∀ e ∈ front, e ≠ '"' ∧ (false = false → e ≠ '/') := by
    intro e he
    have shorter : front ++ run <+: uncommented false (front ++ run ++ back) := by
      refine List.prefix_of_prefix_length_le (List.prefix_append _ back)
        (prefix_uncommented false _) ?_
      rw [List.length_append]
      exact Nat.le_of_lt between.counts
    have apart := bare_of_plain plain e (shorter.subset (List.mem_append_left run he))
    exact ⟨apart.1, fun _ => apart.2⟩
  have spread : ∀ run' : List Char, run'.all Token.isSeparator = true →
      uncommented false (front ++ run' ++ back) = front ++ run' ++ uncommented false back := by
    intro run' all
    apply uncommented_append false
    intro e he
    rcases List.mem_append.mp he with he | he
    · exact bare e he
    · rcases Token.separator_cases (List.all_eq_true.mp all e he) with rfl | rfl | rfl <;> decide
  obtain ⟨c, last, solid, apart⟩ := between.behind
  obtain ⟨d, first, inside, next⟩ := between.before
  obtain ⟨rest, cut⟩ : ∃ rest, uncommented false back = d :: rest := by
    have long := between.counts
    rw [spread run between.separators, List.length_append, List.length_append] at long
    have part := prefix_uncommented false back
    cases left : uncommented false back with
    | nil =>
      rw [left, List.length_nil] at long
      omega
    | cons e rest =>
      obtain ⟨more, back_eq⟩ := left ▸ part
      rw [← back_eq] at first
      cases first
      exact ⟨rest, rfl⟩
  obtain ⟨f, b, ends, trimmed⟩ := Text.trim_middle rest last solid inside
  refine ⟨f, c, d, b, ends, apart, next, fun run' all => ?_⟩
  rw [content, spread run' all, cut, trimmed]

theorem alike_respace (between : Between front run back)
    (meaningful : content (front ++ run ++ back) ≠ [] →
      Meaningful (String.ofList (content (front ++ run ++ back))))
    {run' : List Char} (filled : run' ≠ []) (all : run'.all Token.isSeparator = true) :
    content (front ++ run ++ back) ≠ [] ∧ content (front ++ run' ++ back) ≠ [] ∧
      Alike (String.ofList (content (front ++ run ++ back)))
        (String.ofList (content (front ++ run' ++ back))) := by
  obtain ⟨f, c, d, b, last, apart, next, spread⟩ := content_between between meaningful
  have ends : ∀ e ∈ f.getLast?, Token.isSeparator e = false := by
    intro e he
    cases last.symm.trans he
    exact apart
  have start : f ≠ [] := by
    rintro rfl
    cases last
  have unmarked : ∀ {run : List Char}, run ≠ [] → run.all Token.isSeparator = true →
      Text.sameLetters (String.ofList (f ++ run ++ d :: b)) Separation.marker = false := by
    intro run filled all
    obtain ⟨e, more, rfl⟩ := List.exists_cons_of_ne_nil filled
    rw [List.all_cons, Bool.and_eq_true] at all
    exact unmarked_of_separator (by simp) all.1
  have undeclared : (f ++ run ++ d :: b).head? ≠ some '$' := by
    rw [← spread run between.separators]
    exact between.instruction
  rw [spread run between.separators, spread run' all]
  have heads : (f ++ run ++ d :: b).head? = (f ++ run' ++ d :: b).head? := by
    rw [List.append_assoc, List.append_assoc, List.head?_append_of_ne_nil _ start,
      List.head?_append_of_ne_nil _ start]
  refine ⟨by simp, by simp, ?_, ?_, ?_, ?_⟩
  · rw [unmarked between.filled between.separators, unmarked filled all]
  · rw [String.toList_ofList, String.toList_ofList, heads]
  · exact fun item read => absurd (head?_of_readDeclaration read) undeclared
  · rw [Token.words_run ends between.filled between.separators next,
      Token.words_run ends filled all next]

end Separators

/-- An edited line means the same, and nothing if it meant nothing. -/
theorem Edit.alike (edit : Edit raw raw')
    (meaningful : content raw ≠ [] → Meaningful (String.ofList (content raw))) :
    (content raw' = [] ↔ content raw = []) ∧
      Alike (String.ofList (content raw)) (String.ofList (content raw')) := by
  have unchanged : ∀ {raw raw' : List Char}, content raw' = content raw →
      (content raw' = [] ↔ content raw = []) ∧
        Alike (String.ofList (content raw)) (String.ofList (content raw')) := by
    intro raw raw' same
    rw [same]
    exact ⟨Iff.rfl, Alike.refl _⟩
  cases edit with
  | indent blank => exact unchanged (content_indent blank)
  | unindent blank => exact unchanged (content_indent blank).symm
  | pad blank => exact unchanged (content_pad blank)
  | unpad blank => exact unchanged (content_pad blank).symm
  | comment note closed =>
    refine unchanged (content_comment note closed fun last => ?_)
    have slash := List.mem_of_mem_getLast? last
    rcases (meaningful (List.ne_nil_of_mem slash)).declared_or_plain with ⟨item, read⟩ | plain
    · cases last_of_readDeclaration read (by rwa [String.toList_ofList]) (by decide)
    · rw [String.toList_ofList] at plain
      exact absurd (plain _ slash) (by decide)
  | recase letters literal =>
    refine ⟨?_, alike_recase letters literal⟩
    rw [← List.map_eq_nil_iff (f := Char.toUpper), map_toUpper_content, letters,
      ← map_toUpper_content, List.map_eq_nil_iff]
  | respace between filled all =>
    obtain ⟨old, new, alike⟩ := alike_respace between meaningful filled all
    exact ⟨iff_of_false new old, alike⟩

end Line

namespace Assembly

/-- A change of a source that does not touch what its lines say. -/
inductive Edit (source source' : String) : Prop
  | line {before after : List (List Char)} {raw raw' : List Char} :
      Line.split source.toList = before ++ raw :: after →
      Line.split source'.toList = before ++ raw' :: after → Line.Edit raw raw' → Edit source source'
  | insertion {before after : List (List Char)} {raw : List Char} :
      Line.split source.toList = before ++ after →
      Line.split source'.toList = before ++ raw :: after → Line.Vacant raw → Edit source source'

variable {source source' : String} {bytes : List UInt8}

/-- The texts of lines of which something counts. -/
def texts (raws : List (List Char)) : List String :=
  ((raws.map Line.content).filter (!·.isEmpty)).map String.ofList

theorem texts_append (front back : List (List Char)) :
    texts (front ++ back) = texts front ++ texts back := by
  simp only [texts, List.map_append, List.filter_append]

theorem texts_cons (raw : List Char) (rest : List (List Char)) :
    texts (raw :: rest) =
      (if Line.content raw = [] then [] else [String.ofList (Line.content raw)]) ++ texts rest := by
  rw [texts, List.map_cons, List.filter_cons]
  split <;> simp_all [texts]

theorem normalize_same
    (alike : List.Forall₂ Line.Alike (texts (Line.split source.toList))
      (texts (Line.split source'.toList))) :
    List.Forall₂ Line.Same (Line.normalize source) (Line.normalize source') := by
  rw [texts, ← Line.texts_normalize, texts, ← Line.texts_normalize, List.forall₂_map_left_iff,
    List.forall₂_map_right_iff] at alike
  exact alike

/-- An edit keeps the bytes. -/
theorem assemble_edit (edit : Edit source source') (h : assemble source = .ok bytes) :
    assemble source' = .ok bytes := by
  refine assemble_same (normalize_same ?_) h
  have same : ∀ raws, List.Forall₂ Line.Alike (texts raws) (texts raws) := by
    intro raws
    exact List.forall₂_same.mpr fun s _ => Line.Alike.refl s
  cases edit with
  | @line before after raw raw' old new change =>
    have meaningful : Line.content raw ≠ [] →
        Line.Meaningful (String.ofList (Line.content raw)) := by
      intro filled
      have mem : String.ofList (Line.content raw) ∈ (Line.normalize source).map Line.text := by
        rw [Line.texts_normalize, ← texts, old, texts_append, texts_cons, if_neg filled]
        simp
      obtain ⟨line, hline, text⟩ := List.mem_map.mp mem
      exact text ▸ meaningful_of_assemble h line hline
    obtain ⟨empty, alike⟩ := change.alike meaningful
    rw [old, new, texts_append, texts_append, texts_cons, texts_cons]
    simp only [empty]
    refine List.rel_append (same before) (List.rel_append ?_ (same after))
    split
    · exact .nil
    · exact .cons alike .nil
  | @insertion before after raw old new vacant =>
    rw [old, new, texts_append, texts_append, texts_cons, if_pos (Line.content_vacant vacant)]
    exact List.rel_append (same before) (same after)

/-- However a source that assembles is presented, it assembles to the same bytes. -/
theorem presentation_immaterial (edits : Relation.ReflTransGen Edit source source')
    (h : assemble source = .ok bytes) : assemble source' = .ok bytes := by
  induction edits with
  | refl => exact h
  | tail _ edit ih => exact assemble_edit edit ih

/-- A comment line is put into a block, a name is written in capital letters,
another run of separators is taken, and a comment and a carriage return are added. -/
theorem presentation_immaterial_edited :
    ∃ bytes, assemble ".static\n$m: \"Hi\"\nADD $REG1,$REG2" = .ok bytes ∧
      Relation.ReflTransGen Edit ".static\n$m: \"Hi\"\nADD $REG1,$REG2"
        ".static\n  // data\n$M: \"Hi\"\nADD $REG1\t, $REG2// end\r" ∧
      assemble ".static\n  // data\n$M: \"Hi\"\nADD $REG1\t, $REG2// end\r" = .ok bytes := by
  let marker := ['.', 's', 't', 'a', 't', 'i', 'c']
  let note := [' ', ' ', '/', '/', ' ', 'd', 'a', 't', 'a']
  let small := ['$', 'm', ':', ' ', '"', 'H', 'i', '"']
  let capital := ['$', 'M', ':', ' ', '"', 'H', 'i', '"']
  let front := ['A', 'D', 'D', ' ', '$', 'R', 'E', 'G', '1']
  let back := ['$', 'R', 'E', 'G', '2']
  let spaced := front ++ ['\t', ',', ' '] ++ back
  let remark := [' ', 'e', 'n', 'd']
  have start : Line.split ".static\n$m: \"Hi\"\nADD $REG1,$REG2".toList =
      [marker] ++ [small, front ++ [','] ++ back] := by decide +kernel
  have second : Line.split ".static\n  // data\n$m: \"Hi\"\nADD $REG1,$REG2".toList =
      [marker] ++ note :: [small, front ++ [','] ++ back] := by decide +kernel
  have third : Line.split ".static\n  // data\n$M: \"Hi\"\nADD $REG1,$REG2".toList =
      [marker, note] ++ capital :: [front ++ [','] ++ back] := by decide +kernel
  have fourth : Line.split ".static\n  // data\n$M: \"Hi\"\nADD $REG1\t, $REG2".toList =
      [marker, note, capital] ++ spaced :: [] := by decide +kernel
  have fifth : Line.split ".static\n  // data\n$M: \"Hi\"\nADD $REG1\t, $REG2// end".toList =
      [marker, note, capital] ++ (spaced ++ '/' :: '/' :: remark) :: [] := by decide +kernel
  have last : Line.split ".static\n  // data\n$M: \"Hi\"\nADD $REG1\t, $REG2// end\r".toList =
      [marker, note, capital] ++ (spaced ++ '/' :: '/' :: remark ++ ['\r']) :: [] := by
    decide +kernel
  have vacant : Line.Vacant note :=
    ⟨[' ', ' '], _, rfl, List.all_eq_true.mp rfl, Or.inr ⟨[' ', 'd', 'a', 't', 'a'], rfl⟩⟩
  have recased : Line.Edit small capital := by
    refine .recase (by decide) ?_
    rintro k ⟨_, i, j, low, _, opened, _⟩
    -- Only the name, in the second place, has changed, and no quote stands before it.
    match k with
    | 0 => rfl
    | 1 => match i, low with
      | 0, _ => cases opened
      | 1, _ => cases opened
    | k + 2 => rfl
  have respaced : Line.Edit (front ++ [','] ++ back) spaced :=
    .respace ⟨by decide, by decide, ⟨'1', by decide⟩, ⟨'$', by decide⟩, by decide, by decide⟩
      (by decide) (by decide)
  have noted : Line.Edit spaced (spaced ++ '/' :: '/' :: remark) := .comment remark (by decide)
  have returned : Line.Edit (spaced ++ '/' :: '/' :: remark)
      (spaced ++ '/' :: '/' :: remark ++ ['\r']) := .pad (List.all_eq_true.mp rfl)
  have recasing : Edit ".static\n  // data\n$m: \"Hi\"\nADD $REG1,$REG2"
      ".static\n  // data\n$M: \"Hi\"\nADD $REG1,$REG2" :=
    .line (show _ = [marker, note] ++ small :: [front ++ [','] ++ back] from second) third recased
  have respacing : Edit ".static\n  // data\n$M: \"Hi\"\nADD $REG1,$REG2"
      ".static\n  // data\n$M: \"Hi\"\nADD $REG1\t, $REG2" :=
    .line (show _ = [marker, note, capital] ++ (front ++ [','] ++ back) :: [] from third) fourth
      respaced
  have edits : Relation.ReflTransGen Edit ".static\n$m: \"Hi\"\nADD $REG1,$REG2"
      ".static\n  // data\n$M: \"Hi\"\nADD $REG1\t, $REG2// end\r" :=
    .tail (.tail (.tail (.tail (.tail .refl (.insertion start second vacant)) recasing)
      respacing) (.line fourth fifth noted)) (.line fifth last returned)
  have assembles : (assemble ".static\n$m: \"Hi\"\nADD $REG1,$REG2").toOption.isSome = true := by
    decide +kernel
  obtain ⟨bytes, found⟩ := Option.isSome_iff_exists.mp assembles
  have assembled := Result.eq_ok_of_toOption found
  exact ⟨bytes, assembled, edits, presentation_immaterial edits assembled⟩

end Assembly

end WordMachine
