import WordMachine.Assembly.StaticData
import WordMachine.Image.Basic
import WordMachine.Listing.Text
import WordMachine.Proofs.Assembly.Declaration
import WordMachine.Proofs.Assembly.Line
import WordMachine.Proofs.Text.Hex

/-! Static texts listed and declared again. A text is named for the offset of its
length byte, in as many digits as any other, so the names are in the order of the
offsets and the declarations give back the segment. -/
namespace WordMachine

namespace StaticListing

/-- The bytes of texts, each behind its length. -/
def pack (texts : List (List UInt8)) : List UInt8 :=
  texts.flatMap fun t => UInt8.ofNat t.length :: t

/-- Texts that can be declared. -/
def Printable (texts : List (List UInt8)) : Prop :=
  ∀ t ∈ texts, t.length < 256 ∧ t.all isPrintable = true

/-- Texts with the offsets of their length bytes, the first at `offset`. -/
def place (offset : Nat) : List (List UInt8) → List (Nat × List UInt8)
  | [] => []
  | t :: rest => (offset, t) :: place (offset + 1 + t.length) rest

theorem toNat_length {t : List UInt8} (short : t.length < 256) :
    (UInt8.ofNat t.length).toNat = t.length := by
  rw [UInt8.toNat_ofNat', Nat.mod_eq_of_lt short]

theorem readTexts_pack {offset : Nat} {found : List (Word × String)} {texts : List (List UInt8)}
    (printable : Printable texts) :
    readTexts offset found (pack texts) =
      some (found.reverse ++ (place offset texts).map fun (o, t) => (UInt16.ofNat o, textOf t)) := by
  induction texts generalizing offset found with
  | nil => simp [pack, readTexts, place]
  | cons t rest ih =>
    obtain ⟨short, clean⟩ := printable t List.mem_cons_self
    have ih := @ih (offset + 1 + t.length) ((UInt16.ofNat offset, textOf t) :: found)
      fun u hu => printable u (List.mem_cons_of_mem t hu)
    rw [pack] at ih ⊢
    rw [List.flatMap_cons, List.cons_append, readTexts]
    simp only [toNat_length short, List.take_left, List.drop_left, clean, and_self, if_true, ih,
      place, List.map_cons, List.reverse_cons, List.append_assoc, List.singleton_append]

theorem ofBytes_pack {texts : List (List UInt8)} (printable : Printable texts) :
    ofBytes (pack texts) =
      if texts = [] then .empty
      else .texts ((place 0 texts).map fun (o, t) => (UInt16.ofNat o, textOf t)) := by
  cases texts with
  | nil => rfl
  | cons t rest =>
    have filled : (pack (t :: rest)).isEmpty = false := rfl
    simp only [ofBytes, filled, Bool.false_eq_true, if_false, readTexts_pack printable,
      List.reverse_nil, List.nil_append, reduceCtorEq]

theorem pack_of_readTexts {offset : Nat} {found items : List (Word × String)} {bytes : List UInt8}
    (h : readTexts offset found bytes = some items) :
    ∃ texts, Printable texts ∧ bytes = pack texts := by
  fun_induction readTexts offset found bytes with
  | case1 => exact ⟨[], nofun, rfl⟩
  | case2 offset found length rest text whole ih =>
    obtain ⟨texts, printable, packed⟩ := ih h
    obtain ⟨size, clean⟩ := whole
    have short : text.length < 256 := by
      rw [size]
      exact length.toNat_lt
    refine ⟨text :: texts, List.forall_mem_cons.mpr ⟨⟨short, clean⟩, printable⟩, ?_⟩
    rw [pack, List.flatMap_cons, ← pack, ← packed, size, UInt8.ofNat_toNat, List.cons_append,
      List.take_append_drop]
  | case3 => cases h

/-- What cannot be read is not made of printable texts. -/
theorem readTexts_eq_none {offset : Nat} {found : List (Word × String)} {bytes : List UInt8} :
    readTexts offset found bytes = none ↔ ¬∃ texts, Printable texts ∧ bytes = pack texts := by
  rw [Option.eq_none_iff_forall_ne_some]
  constructor
  · rintro unread ⟨texts, printable, rfl⟩
    exact unread _ (readTexts_pack printable)
  · intro unreadable items read
    exact unreadable (pack_of_readTexts read)

/-- A segment that is not made of printable texts is listed by its size alone. -/
theorem ofBytes_raw {bytes : List UInt8}
    (unreadable : ¬∃ texts, Printable texts ∧ bytes = pack texts) :
    bytes ≠ [] ∧ ofBytes bytes = .raw bytes.length := by
  have filled : bytes ≠ [] := by
    rintro rfl
    exact unreadable ⟨[], nofun, rfl⟩
  refine ⟨filled, ?_⟩
  rw [ofBytes, if_neg (by simpa using filled), readTexts_eq_none.mpr unreadable]

theorem textOf_chars {t : List UInt8} (clean : t.all isPrintable = true) :
    (textOf t).toList.map (fun c => UInt8.ofNat c.toNat) = t ∧
      ∀ c ∈ (textOf t).toList, c.toNat < 128 ∧ c ≠ '"' ∧ c ≠ '\n' := by
  have each : ∀ n < 0x7F, 0x20 ≤ n ∧ n ≠ 0x22 → (Char.ofNat n).toNat = n ∧
      Char.ofNat n ≠ '"' ∧ Char.ofNat n ≠ '\n' := by decide
  have byte : ∀ b ∈ t, (Char.ofNat b.toNat).toNat = b.toNat ∧ b.toNat < 128 ∧
      Char.ofNat b.toNat ≠ '"' ∧ Char.ofNat b.toNat ≠ '\n' := by
    intro b hb
    have printable := List.all_eq_true.mp clean b hb
    simp only [isPrintable, Bool.and_eq_true, decide_eq_true_eq] at printable
    obtain ⟨⟨low, high⟩, unquoted⟩ := printable
    have low : 0x20 ≤ b.toNat := low
    have high : b.toNat ≤ 0x7E := high
    have unquoted : b.toNat ≠ 0x22 := by
      intro same
      simp [UInt8.toNat_inj.mp (show b.toNat = (0x22 : UInt8).toNat from same)] at unquoted
    obtain ⟨same, quote, feed⟩ := each b.toNat (by omega) ⟨low, unquoted⟩
    exact ⟨same, by omega, quote, feed⟩
  rw [textOf, String.toList_ofList]
  constructor
  · rw [List.map_map]
    have same : ∀ b ∈ t, ((fun c : Char => UInt8.ofNat c.toNat) ∘ fun b : UInt8 =>
        Char.ofNat b.toNat) b = b := by
      intro b hb
      rw [Function.comp, (byte b hb).1, UInt8.ofNat_toNat]
    rw [List.map_congr_left same, List.map_id']
  · intro c hc
    obtain ⟨b, hb, rfl⟩ := List.mem_map.mp hc
    obtain ⟨same, small, quote, feed⟩ := byte b hb
    exact ⟨by omega, quote, feed⟩

end StaticListing

namespace StaticData

/-- The name of the text at an offset. -/
def nameAt (offset : Nat) : String := String.ofList ('S' :: Hex.digits 4 offset)

/-- The declaration of the text at an offset, as a listing writes it. -/
def declaration (offset : Nat) (text : String) : String :=
  "$S" ++ Hex.address offset ++ ": " ++ "\"" ++ text ++ "\""

theorem nameAt_lt {a b : Nat} (less : a < b) (fits : b < 0x10000) : nameAt a < nameAt b := by
  rw [String.lt_iff, nameAt, nameAt, String.toList_ofList, String.toList_ofList,
    List.cons_lt_cons_iff]
  exact Or.inr ⟨rfl, Hex.digits_lt less fits⟩

theorem toList_declaration {offset : Nat} (small : offset < 0x10000) (text : String) :
    (declaration offset text).toList =
      '$' :: (('S' :: Hex.digits 4 offset) ++ ':' :: ' ' :: '"' :: (text.toList ++ ['"'])) := by
  simp [declaration, Hex.address_of_small small]

theorem chars_name {offset : Nat} {c : Char} (h : c ∈ 'S' :: Hex.digits 4 offset) :
    (c.isAlphanum = true ∧ c ≠ ':') ∧ Line.Solid c := by
  rcases List.mem_cons.mp h with rfl | digit
  · decide
  · exact (Hex.digit_of_mem digit).2

/-- Nothing but quotes and the text between them could open a comment. -/
theorem content_declaration {offset : Nat} (small : offset < 0x10000) {text : String}
    (unquoted : ∀ c ∈ text.toList, c ≠ '"') :
    Line.content (declaration offset text).toList = (declaration offset text).toList := by
  have bare : ∀ c ∈ '$' :: (('S' :: Hex.digits 4 offset) ++ [':', ' ']),
      c ≠ '"' ∧ (false = false → c ≠ '/') := by
    intro c hc
    rcases List.mem_cons.mp hc with rfl | hc
    · decide
    · rcases List.mem_append.mp hc with hc | hc
      · obtain ⟨_, quote, slash⟩ := (chars_name hc).2
        exact ⟨quote, fun _ => slash⟩
      · simp only [List.mem_cons, List.not_mem_nil, or_false] at hc
        rcases hc with rfl | rfl <;> decide
  have quoted : ∀ c ∈ text.toList, c ≠ '"' ∧ (true = false → c ≠ '/') := by
    intro c hc
    exact ⟨unquoted c hc, nofun⟩
  have whole : (declaration offset text).toList =
      '$' :: (('S' :: Hex.digits 4 offset) ++ [':', ' ']) ++ '"' :: (text.toList ++ ['"']) := by
    rw [toList_declaration small]
    simp
  have opened : Line.uncommented false ('"' :: (text.toList ++ ['"'])) =
      '"' :: Line.uncommented true (text.toList ++ ['"']) := rfl
  have closed : Line.uncommented true ['"'] = ['"'] := rfl
  rw [Line.content, whole, Line.uncommented_append false bare, opened,
    Line.uncommented_append true quoted, closed]
  have ends : '$' :: (('S' :: Hex.digits 4 offset) ++ [':', ' ']) ++ '"' :: (text.toList ++ ['"']) =
      '$' :: ((('S' :: Hex.digits 4 offset) ++ [':', ' '] ++ '"' :: text.toList) ++ ['"']) := by
    simp
  rw [ends, Text.trim_between (by decide) (by decide)]

theorem readDeclaration_declaration {offset : Nat} (small : offset < 0x10000) {t : List UInt8}
    (short : t.length < 256) (clean : t.all StaticListing.isPrintable = true) :
    readDeclaration (declaration offset (StaticListing.textOf t)) = .ok (nameAt offset, t) := by
  obtain ⟨bytes, chars⟩ := StaticListing.textOf_chars clean
  have uncoloned : ':' ∉ 'S' :: Hex.digits 4 offset := by
    intro colon
    exact (chars_name colon).1.2 rfl
  have trimmed : Text.trim ('S' :: Hex.digits 4 offset) = 'S' :: Hex.digits 4 offset :=
    Text.trim_of_ends (fun c hc => (chars_name (List.mem_of_mem_head? hc)).2.1)
      (fun c hc => (chars_name (List.mem_of_mem_getLast? hc)).2.1)
  have ident : isIdentifier ('S' :: Hex.digits 4 offset) = true := by
    rw [isIdentifier, Bool.and_eq_true]
    refine ⟨by decide, List.all_eq_true.mpr fun c hc => ?_⟩
    rw [(chars_name (List.mem_cons_of_mem _ hc)).1.1, Bool.true_or]
  have value : Text.trim (' ' :: '"' :: ((StaticListing.textOf t).toList ++ ['"'])) =
      '"' :: ((StaticListing.textOf t).toList ++ ['"']) := by
    have blank : ∀ c ∈ [' '], Text.isBlank c = true := List.all_eq_true.mp rfl
    rw [← List.singleton_append, Text.trim_append_left blank,
      Text.trim_between (by decide) (by decide)]
  have ascii : ∀ c ∈ (StaticListing.textOf t).toList, c.toNat < 128 := by
    intro c hc
    have small := (chars c hc).1
    omega
  have length : (StaticListing.textOf t).toList.length ≤ maxLength := by
    have same := congrArg List.length bytes
    rw [List.length_map] at same
    rw [maxLength]
    omega
  have capital : Text.upper (String.ofList ('S' :: Hex.digits 4 offset)) = nameAt offset := by
    rw [Text.upper, String.toList_ofList, List.map_cons, (Hex.digits_upper 4 offset).2]
    rfl
  refine readDeclaration_eq_ok.mpr ⟨'S' :: Hex.digits 4 offset, _, _, toList_declaration small _,
    uncoloned, trimmed.symm ▸ ident, value, ascii, length, ?_⟩
  rw [trimmed, capital, bytes]

theorem single_declaration {offset : Nat} (small : offset < 0x10000) {text : String}
    (single : ∀ c ∈ text.toList, c ≠ '\n') : '\n' ∉ (declaration offset text).toList := by
  have name : '\n' ∉ 'S' :: Hex.digits 4 offset :=
    Line.single_of_solid fun c hc => (chars_name hc).2
  rw [toList_declaration small]
  intro feed
  rcases List.mem_cons.mp feed with bad | feed
  · cases bad
  · rcases List.mem_append.mp feed with bad | feed
    · exact name bad
    · simp only [List.mem_cons, List.mem_append, List.not_mem_nil, or_false] at feed
      rcases feed with bad | bad | bad | inside | bad
      · cases bad
      · cases bad
      · cases bad
      · exact single '\n' inside rfl
      · cases bad

/-- A name behind all others goes to the end. -/
theorem insertEntry_last {e : String × List UInt8} {entries : List (String × List UInt8)}
    (behind : ∀ x ∈ entries, x.1 < e.1) : insertEntry e entries = entries ++ [e] := by
  induction entries with
  | nil => rfl
  | cons x rest ih =>
    have later : ¬e.1 < x.1 := String.lt_asymm (behind x List.mem_cons_self)
    rw [insertEntry, if_neg later, ih fun y hy => behind y (List.mem_cons_of_mem x hy)]
    rfl

theorem insert?_last {e : String × List UInt8} {entries : List (String × List UInt8)}
    (behind : ∀ x ∈ entries, x.1 < e.1) :
    insert? ⟨entries⟩ e.1 e.2 = some ⟨entries ++ [e]⟩ := by
  have fresh : contains ⟨entries⟩ e.1 = false := by
    rw [contains, List.any_eq_false]
    intro x hx same
    have less := behind x hx
    rw [beq_iff_eq.mp same] at less
    exact String.lt_irrefl _ less
  rw [insert?, fresh, insertEntry_last behind]
  rfl

/-- Declarations in the order of their offsets are all taken in. -/
theorem foldlM_declare {texts : List (List UInt8)} {offset : Nat}
    {entries : List (String × List UInt8)} {lines : List Line}
    (printable : StaticListing.Printable texts)
    (fits : offset + (StaticListing.pack texts).length ≤ maxPayload)
    (earlier : ∀ e ∈ entries, ∃ o < offset, e.1 = nameAt o)
    (written : lines.map Line.text =
      (StaticListing.place offset texts).map fun (o, t) => declaration o (StaticListing.textOf t)) :
    lines.foldlM declare ⟨entries⟩ =
      .ok ⟨entries ++ (StaticListing.place offset texts).map fun (o, t) => (nameAt o, t)⟩ := by
  induction texts generalizing offset entries lines with
  | nil =>
    rw [List.map_eq_nil_iff.mp written]
    simp [StaticListing.place]
    rfl
  | cons t rest ih =>
    obtain ⟨line, more, rfl, text, written⟩ := List.map_eq_cons_iff.mp written
    obtain ⟨short, clean⟩ := printable t List.mem_cons_self
    simp only [StaticListing.pack, List.flatMap_cons, List.cons_append, List.length_cons,
      List.length_append, maxPayload] at fits
    have read := @readDeclaration_declaration offset (by omega) t short clean
    have behind : ∀ x ∈ entries, x.1 < (nameAt offset, t).1 := by
      intro x hx
      obtain ⟨o, less, named⟩ := earlier x hx
      rw [named]
      exact nameAt_lt less (by omega)
    have declared : declare ⟨entries⟩ line = .ok ⟨entries ++ [(nameAt offset, t)]⟩ := by
      have put := insert?_last behind
      simp only [declare, text, read]
      rw [put]
    have earlier : ∀ e ∈ entries ++ [(nameAt offset, t)], ∃ o < offset + 1 + t.length,
        e.1 = nameAt o := by
      intro e he
      rcases List.mem_append.mp he with old | new
      · obtain ⟨o, less, named⟩ := earlier e old
        exact ⟨o, by omega, named⟩
      · rw [List.mem_singleton.mp new]
        exact ⟨offset, by omega, rfl⟩
    have ih := ih (fun u hu => printable u (List.mem_cons_of_mem t hu))
      (by simp only [StaticListing.pack, maxPayload]; omega) earlier written
    rw [List.foldlM_cons, declared]
    simp only [bind, Except.bind, ih, StaticListing.place, List.map_cons, List.append_assoc,
      List.singleton_append]

theorem toBytes_place (offset : Nat) (texts : List (List UInt8)) :
    toBytes ⟨(StaticListing.place offset texts).map fun (o, t) => (nameAt o, t)⟩ =
      StaticListing.pack texts := by
  induction texts generalizing offset with
  | nil => rfl
  | cons t rest ih =>
    have ih := ih (offset + 1 + t.length)
    simp only [toBytes, StaticListing.pack, StaticListing.place, List.map_cons,
      List.flatMap_cons] at ih ⊢
    rw [ih]

end StaticData

end WordMachine
