import WordMachine.Proofs.Listing.Texts
import WordMachine.Proofs.Text.Case

/-! The static segment. Declarations are tried one after the other, and one that
is refused changes nothing. The items lie in the order of their names, one behind
the other, and every item is found at its offset; the listing of a segment of
printable texts shows the items again. Offsets in a listing are words, so they are
those of the items as long as the segment does not outgrow the address space. -/
namespace WordMachine

/-- The bytes of an item, its length byte included. -/
def StaticItem.size (item : StaticItem) : Nat := 1 + item.bytes.length

namespace StaticData

variable {d : StaticData} {entries : List (String × List UInt8)} {offset k : Nat}
  {item : StaticItem}

/-- Declares a line, or leaves everything as it is. -/
def attempt (d : StaticData) (line : Line) : StaticData :=
  match d.declare line with
  | .ok more => more
  | .error _ => d

/-- Names are capital and texts short and plain. -/
structure Sound (d : StaticData) : Prop where
  ordered : d.Ordered
  capital : ∀ e ∈ d.entries, Text.upper e.1 = e.1
  short : ∀ e ∈ d.entries, e.2.length ≤ maxLength
  ascii : ∀ e ∈ d.entries, ∀ b ∈ e.2, b.toNat < 128

theorem sound_empty : empty.Sound := ⟨List.Pairwise.nil, nofun, nofun, nofun⟩

/-- What a declaration reads has a capital name and a short text. -/
theorem sound_of_readDeclaration {text : String} {e : String × List UInt8}
    (read : readDeclaration text = .ok e) :
    Text.upper e.1 = e.1 ∧ e.2.length ≤ maxLength ∧ ∀ b ∈ e.2, b.toNat < 128 := by
  obtain ⟨name, value, literal, _, _, _, _, ascii, short, rfl⟩ := readDeclaration_eq_ok.mp read
  refine ⟨Text.upper_upper _, by rwa [List.length_map], List.forall_mem_map.mpr fun c hc => ?_⟩
  have small := ascii c hc
  rwa [UInt8.toNat_ofNat_of_lt' (Nat.lt_trans small (by decide))]

theorem Sound.declare {line : Line} {more : StaticData} (sound : d.Sound)
    (declared : d.declare line = .ok more) : more.Sound := by
  have ordered := ordered_declare sound.ordered declared
  obtain ⟨e, read, _, rfl⟩ := declare_eq_ok.mp declared
  obtain ⟨capital, short, ascii⟩ := sound_of_readDeclaration read
  have all : ∀ {p : String × List UInt8 → Prop}, p e → (∀ f ∈ d.entries, p f) →
      ∀ f ∈ (d.add e).entries, p f := by
    intro p own old f hf
    rcases List.mem_cons.mp ((insertEntry_perm e d.entries).mem_iff.mp hf) with rfl | hf
    · exact own
    · exact old f hf
  exact ⟨ordered, all capital sound.capital, all short sound.short, all ascii sound.ascii⟩

theorem Sound.attempt {line : Line} (sound : d.Sound) : (d.attempt line).Sound := by
  unfold StaticData.attempt
  split
  · next more declared => exact sound.declare declared
  · exact sound

theorem sound_foldl {lines : List Line} (sound : d.Sound) : (lines.foldl attempt d).Sound := by
  induction lines generalizing d with
  | nil => exact sound
  | cons line rest ih => exact ih sound.attempt

section Items

/-- An item stands behind the items before it. -/
theorem offset_of_getElem?_place (h : (place offset entries)[k]? = some item) :
    item.offset = offset + (((place offset entries).take k).map StaticItem.size).sum := by
  induction entries generalizing offset k with
  | nil => cases h
  | cons e rest ih =>
    cases k with
    | zero =>
      cases h
      rfl
    | succ k =>
      rw [ih h, place, List.take_succ_cons, List.map_cons, List.sum_cons, StaticItem.size,
        Nat.add_assoc]

theorem cut_of_mem_place (h : item ∈ place offset entries) :
    ∃ front back, entries = front ++ (item.identifier, item.bytes) :: back ∧
      item.offset = offset + itemsSize front := by
  induction entries generalizing offset with
  | nil => cases h
  | cons e rest ih =>
    rcases List.mem_cons.mp h with rfl | later
    · exact ⟨[], rest, rfl, rfl⟩
    · obtain ⟨front, back, rfl, own⟩ := ih later
      refine ⟨e :: front, back, rfl, ?_⟩
      rw [own, itemsSize, itemsSize, List.map_cons, List.sum_cons, Nat.add_assoc]

theorem map_place (offset : Nat) (entries : List (String × List UInt8)) :
    (place offset entries).map (fun item => (item.identifier, item.bytes)) = entries := by
  induction entries generalizing offset with
  | nil => rfl
  | cons e rest ih => rw [place, List.map_cons, ih]

theorem mem_entries (h : item ∈ d.items) : (item.identifier, item.bytes) ∈ d.entries := by
  rw [← map_place 0 d.entries]
  exact List.mem_map_of_mem h

/-- Items of one length stand at the multiples of their size. -/
theorem exists_offset {length : Nat} (even : ∀ e ∈ d.entries, e.2.length = length)
    (inside : k < d.entries.length) : ∃ item ∈ d.items, item.offset = k * (1 + length) := by
  rw [← map_place 0 d.entries, List.length_map, ← items] at inside
  have own := offset_of_getElem?_place (List.getElem?_eq_getElem inside)
  have sizes : (d.items.take k).map StaticItem.size = List.replicate k (1 + length) := by
    refine List.eq_replicate_iff.mpr ⟨?_, List.forall_mem_map.mpr fun item mem => ?_⟩
    · rw [List.length_map, List.length_take, Nat.min_eq_left (Nat.le_of_lt inside)]
    · rw [StaticItem.size, even _ (mem_entries (List.mem_of_mem_take mem))]
  rw [← items, sizes, List.sum_replicate_nat, Nat.zero_add] at own
  exact ⟨d.items[k], List.getElem_mem inside, own⟩

theorem encodedLength_eq (d : StaticData) : d.encodedLength = d.toBytes.length := by
  rw [length_toBytes, encodedLength, itemsSize, List.sum_eq_foldr]

/-- At its offset the segment has an item's length and bytes. -/
theorem drop_toBytes (h : item ∈ d.items) :
    ∃ back, d.toBytes.drop item.offset = UInt8.ofNat item.bytes.length :: (item.bytes ++ back) := by
  obtain ⟨front, back, cut, own⟩ := cut_of_mem_place h
  have size : (toBytes ⟨front⟩).length = item.offset := by
    rw [length_toBytes, own, Nat.zero_add]
  refine ⟨toBytes ⟨back⟩, ?_⟩
  have whole : d.toBytes = toBytes ⟨front⟩ ++
      UInt8.ofNat item.bytes.length :: (item.bytes ++ toBytes ⟨back⟩) := by
    simp only [toBytes, cut, List.flatMap_append, List.flatMap_cons, List.cons_append]
  rw [whole, ← size, List.drop_left]

theorem Sound.pairwise_items (sound : d.Sound) :
    d.items.Pairwise fun a b => a.identifier < b.identifier := by
  have ordered : (d.items.map fun item => (item.identifier, item.bytes)).Pairwise
      fun a b => a.1 < b.1 := by
    rw [items, map_place]
    exact sound.ordered
  rwa [List.pairwise_map] at ordered

theorem Sound.upper_identifier (sound : d.Sound) (h : item ∈ d.items) :
    Text.upper item.identifier = item.identifier :=
  sound.capital (item.identifier, item.bytes) (mem_entries h)

/-- An item is found by its name in either letter case. -/
theorem Sound.offsetOf?_eq_some (sound : d.Sound) {name : String} :
    d.offsetOf? name = some offset ↔
      ∃ item ∈ d.items, Text.sameLetters item.identifier name = true ∧ item.offset = offset := by
  rw [offsetOf?, Option.map_eq_some_iff]
  constructor
  · rintro ⟨item, found, own⟩
    have named := List.find?_some found
    exact ⟨item, List.mem_of_find?_eq_some found, named, own⟩
  · rintro ⟨item, mem, named, own⟩
    obtain ⟨front, back, cut⟩ := List.append_of_mem mem
    refine ⟨item, ?_, own⟩
    rw [List.find?_eq_some_iff_append]
    refine ⟨named, front, back, cut, fun other before => ?_⟩
    have less : other.identifier < item.identifier := by
      have ordered := sound.pairwise_items
      rw [cut, List.pairwise_append] at ordered
      exact ordered.2.2 other before item List.mem_cons_self
    -- Of two names that a third is the same as, both capital, neither is less.
    rw [Bool.not_eq_true', ← Bool.not_eq_true]
    intro same
    have both := (Text.sameLetters_iff.mp same).trans (Text.sameLetters_iff.mp named).symm
    have earlier : other ∈ d.items := by
      rw [cut]
      exact List.mem_append_left _ before
    rw [sound.upper_identifier earlier, sound.upper_identifier mem] at both
    rw [both] at less
    exact String.lt_irrefl _ less

end Items

section Listed

theorem place_map_snd (offset : Nat) (entries : List (String × List UInt8)) :
    StaticListing.place offset (entries.map Prod.snd) =
      (place offset entries).map fun item => (item.offset, item.bytes) := by
  induction entries generalizing offset with
  | nil => rfl
  | cons e rest ih =>
    rw [List.map_cons, StaticListing.place, ih, place, List.map_cons, Nat.add_assoc]

theorem toBytes_eq_pack (d : StaticData) :
    d.toBytes = StaticListing.pack (d.entries.map Prod.snd) := by
  rw [toBytes, StaticListing.pack, List.flatMap_map]

/-- Neither a quote nor a control character. -/
def Shown (b : UInt8) : Prop := b ≠ 0x22 ∧ 0x20 ≤ b ∧ b ≠ 0x7F

instance (b : UInt8) : Decidable (Shown b) := inferInstanceAs (Decidable (_ ∧ _ ∧ _))

theorem Sound.printable (sound : d.Sound) (shown : ∀ item ∈ d.items, ∀ b ∈ item.bytes, Shown b) :
    StaticListing.Printable (d.entries.map Prod.snd) := by
  refine List.forall_mem_map.mpr fun e he => ⟨Nat.lt_succ_of_le (sound.short e he), ?_⟩
  have listed : e ∈ d.items.map fun item => (item.identifier, item.bytes) := by
    rw [items, map_place]
    exact he
  obtain ⟨item, mem, rfl⟩ := List.mem_map.mp listed
  refine List.all_eq_true.mpr fun b hb => ?_
  obtain ⟨unquoted, low, last⟩ := shown item mem b hb
  have ascii := sound.ascii _ he b hb
  have high : b ≤ 0x7E := by
    have apart : b.toNat ≠ 127 := fun same => last (UInt8.toNat_inj.mp same)
    exact UInt8.le_iff_toNat_le.mpr (by simp; omega)
  simp only [StaticListing.isPrintable, low, high, unquoted, decide_true, Bool.and_true, ne_eq,
    not_false_eq_true]

/-- A segment of texts is listed as its items. -/
theorem Sound.ofBytes_toBytes (sound : d.Sound)
    (shown : ∀ item ∈ d.items, ∀ b ∈ item.bytes, Shown b) :
    StaticListing.ofBytes d.toBytes =
      if d.items = [] then .empty
      else .texts (d.items.map fun item =>
        (UInt16.ofNat item.offset, StaticListing.textOf item.bytes)) := by
  have none : d.entries.map Prod.snd = [] ↔ d.items = [] := by
    rw [List.map_eq_nil_iff, ← map_place 0 d.entries, List.map_eq_nil_iff, items]
  rw [toBytes_eq_pack, StaticListing.ofBytes_pack (sound.printable shown), place_map_snd,
    List.map_map]
  simp only [none]
  rfl

theorem offset_lt (h : item ∈ d.items) : item.offset < d.toBytes.length := by
  obtain ⟨back, behind⟩ := drop_toBytes h
  refine Decidable.byContradiction fun beyond => ?_
  rw [List.drop_of_length_le (Nat.not_lt.mp beyond)] at behind
  cases behind

/-- An item that no word can place is listed elsewhere. -/
theorem Sound.listed_apart (sound : d.Sound) (shown : ∀ item ∈ d.items, ∀ b ∈ item.bytes, Shown b)
    (mem : item ∈ d.items) (far : 0x10000 ≤ item.offset) :
    ∃ texts, StaticListing.ofBytes d.toBytes = .texts texts ∧
      texts.map (fun t => (t.1.toNat, t.2)) ≠
        d.items.map fun item => (item.offset, StaticListing.textOf item.bytes) := by
  have listed := sound.ofBytes_toBytes shown
  rw [if_neg (List.ne_nil_of_mem mem)] at listed
  refine ⟨_, listed, fun same => ?_⟩
  rw [List.map_map] at same
  have own := (Prod.mk.inj (List.map_inj_left.mp same item mem)).1
  have small := (UInt16.ofNat item.offset).toNat_lt
  rw [own] at small
  exact absurd far (Nat.not_le.mpr small)

end Listed

/-- Whatever is declared, the segment holds the items in the order of their names,
and is listed as they are. -/
theorem segment_layout (lines : List Line) :
    let d := lines.foldl attempt empty
    (d.items.Pairwise fun a b => a.identifier < b.identifier) ∧
      (∀ (k : Nat) (item : StaticItem), d.items[k]? = some item →
        item.offset = ((d.items.take k).map StaticItem.size).sum) ∧
      d.toBytes.length = d.encodedLength ∧
      (∀ item ∈ d.items,
        d.toBytes[item.offset]?.map UInt8.toNat = some item.bytes.length ∧
          (d.toBytes.drop (item.offset + 1)).take item.bytes.length = item.bytes) ∧
      (∀ (name : String) (offset : Nat), d.offsetOf? name = some offset ↔
        ∃ item ∈ d.items, Text.sameLetters item.identifier name = true ∧ item.offset = offset) ∧
      ((∀ item ∈ d.items, ∀ b ∈ item.bytes, Shown b) →
        StaticListing.ofBytes d.toBytes =
          if d.items = [] then .empty
          else .texts (d.items.map fun item =>
            (UInt16.ofNat item.offset, StaticListing.textOf item.bytes))) ∧
      (d.toBytes.length ≤ 0x10000 →
        ∀ item ∈ d.items, (UInt16.ofNat item.offset).toNat = item.offset) := by
  intro d
  have sound : d.Sound := sound_foldl sound_empty
  refine ⟨sound.pairwise_items, fun k item found => ?_, (encodedLength_eq d).symm,
    fun item mem => ⟨?_, ?_⟩, fun name offset => sound.offsetOf?_eq_some, sound.ofBytes_toBytes,
    fun fits item mem => ?_⟩
  · exact (offset_of_getElem?_place found).trans (Nat.zero_add _)
  · obtain ⟨back, behind⟩ := drop_toBytes mem
    have short := sound.short _ (mem_entries mem)
    rw [← Nat.add_zero item.offset, ← List.getElem?_drop, behind, List.getElem?_cons_zero,
      Option.map_some, StaticListing.toNat_length (Nat.lt_succ_of_le short)]
  · obtain ⟨back, behind⟩ := drop_toBytes mem
    rw [← List.drop_drop, behind, List.drop_succ_cons, List.drop_zero, List.take_left]
  · exact UInt16.toNat_ofNat_of_lt' (Nat.lt_of_lt_of_le (offset_lt mem) fits)

/-- The second line declares a name again and the last is malformed. -/
def refused : List Line :=
  [⟨1, "$b: \"B\""⟩, ⟨2, "$B: \"C\""⟩, ⟨3, "$a : \"\""⟩, ⟨4, "$c \"D\""⟩]

theorem segment_layout_refused :
    let d := refused.foldl attempt empty
    d.items = [⟨"A", [], 0⟩, ⟨"B", [0x42], 1⟩] ∧ d.toBytes = [0, 1, 0x42] ∧
      d.offsetOf? "b" = some 1 ∧ StaticListing.ofBytes d.toBytes = .texts [(0, ""), (1, "B")] := by
  have items : (refused.foldl attempt empty).items = [⟨"A", [], 0⟩, ⟨"B", [0x42], 1⟩] := by
    decide +kernel
  have bytes : (refused.foldl attempt empty).toBytes = [0, 1, 0x42] := by decide +kernel
  obtain ⟨_, _, _, _, found, listed, _⟩ := segment_layout refused
  generalize refused.foldl attempt empty = d at items bytes found listed
  rw [items] at found listed
  refine ⟨items, bytes, (found "b" 1).mpr ⟨_, List.mem_cons_of_mem _ List.mem_cons_self, ?_, rfl⟩,
    ?_⟩
  · decide
  · refine (listed ?_).trans (by decide)
    refine List.forall_mem_cons.mpr ⟨List.forall_mem_nil _, List.forall_mem_singleton.mpr ?_⟩
    exact List.forall_mem_singleton.mpr (by decide)

theorem foldl_attempt {lines : List Line} {more : StaticData}
    (declared : lines.foldlM declare d = .ok more) : lines.foldl attempt d = more := by
  induction lines generalizing d with
  | nil =>
    cases declared
    rfl
  | cons line rest ih =>
    obtain ⟨next, first, later⟩ := Result.bind_eq_ok.mp declared
    rw [List.foldl_cons, attempt, first]
    exact ih later

/-- Declarations of one text under as many names. -/
def copies (count : Nat) (text : List UInt8) : List Line :=
  (List.range count).map fun k => ⟨k + 1, declaration k (StaticListing.textOf text)⟩

theorem entries_copies {count : Nat} {text : List UInt8} (short : text.length < 256)
    (clean : text.all StaticListing.isPrintable = true) (few : count ≤ 0x10000) :
    ((copies count text).foldl attempt empty).entries.Perm
      ((List.range count).map fun k => (nameAt k, text)) := by
  let items : List (String × List UInt8) := (List.range count).map fun k => (nameAt k, text)
  have read : (copies count text).map (fun line => readDeclaration line.text) = items.map .ok := by
    rw [copies, List.map_map, List.map_map]
    refine List.map_congr_left fun k hk => ?_
    have small := List.mem_range.mp hk
    simp only [Function.comp_apply]
    exact readDeclaration_declaration (by omega) short clean
  have once : (items.map Prod.fst).Nodup := by
    rw [List.map_map]
    refine List.pairwise_map.mpr (List.pairwise_lt_range.imp_of_mem fun _ hb less same => ?_)
    have small := List.mem_range.mp hb
    have less := nameAt_lt less (by omega)
    rw [show nameAt _ = nameAt _ from same] at less
    exact String.lt_irrefl _ less
  rw [foldl_attempt (declare_all_eq_ok.mpr ⟨items, ⟨read, once⟩, rfl⟩)]
  exact (entries_foldl_perm empty items).trans (.of_eq (List.append_nil items))

/-- A segment of 257 of the longest texts fits no image, and its listing has the
last of them at another offset. -/
theorem copies_listed_apart :
    let d := (copies 257 (List.replicate 255 0x41)).foldl attempt empty
    (∀ item ∈ d.items, ∀ b ∈ item.bytes, Shown b) ∧ maxPayload < d.toBytes.length ∧
      ∃ texts, StaticListing.ofBytes d.toBytes = .texts texts ∧
        texts.map (fun t => (t.1.toNat, t.2)) ≠
          d.items.map fun item => (item.offset, StaticListing.textOf item.bytes) := by
  have clean : (List.replicate 255 0x41).all StaticListing.isPrintable = true := by
    refine List.all_eq_true.mpr fun b hb => ?_
    rw [List.eq_of_mem_replicate hb]
    decide
  have moved := @entries_copies 257 (List.replicate 255 0x41)
    (by rw [List.length_replicate]; decide) clean (by decide)
  have sound : ((copies 257 (List.replicate 255 0x41)).foldl attempt empty).Sound :=
    sound_foldl sound_empty
  generalize (copies 257 (List.replicate 255 0x41)).foldl attempt empty = d at moved sound
  have count : d.entries.length = 257 := by
    rw [moved.length_eq, List.length_map, List.length_range]
  have same : ∀ e ∈ d.entries, e.2 = List.replicate 255 0x41 := by
    intro e he
    obtain ⟨k, _, rfl⟩ := List.mem_map.mp (moved.mem_iff.mp he)
    rfl
  have shown : ∀ item ∈ d.items, ∀ b ∈ item.bytes, Shown b := by
    intro item mem b hb
    have own : item.bytes = List.replicate 255 0x41 := same _ (mem_entries mem)
    rw [own] at hb
    rw [List.eq_of_mem_replicate hb]
    decide
  have even : ∀ e ∈ d.entries, e.2.length = 255 := by
    intro e he
    rw [same e he, List.length_replicate]
  obtain ⟨item, mem, far⟩ := exists_offset (k := 256) even (by omega)
  have beyond : 256 * (1 + 255) < d.toBytes.length := far ▸ offset_lt mem
  exact ⟨shown, Nat.lt_trans (by decide) beyond,
    sound.listed_apart shown mem (Nat.le_of_eq far.symm)⟩

end StaticData

end WordMachine
