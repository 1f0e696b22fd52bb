import WordMachine.Image.Basic

/-! Stored images. Bytes are those of an image if they begin with a sound header
whose static size fits what follows, or do not begin with the magic number at
all. An image read from bytes is stored as these bytes again, and an image that
was read or put together is read back from what it is stored as. -/
namespace WordMachine

namespace Header

/-- A header is read off the bytes that begin with it. -/
theorem ofBytes?_eq_some {bytes : List UInt8} {h : Header} :
    ofBytes? bytes = some h ↔ ∃ rest, bytes = h.toBytes ++ rest := by
  constructor
  · intro read
    unfold ofBytes? at read
    split at read
    · next rest =>
      cases read
      refine ⟨rest, ?_⟩
      simp only [toBytes, wideBytes_ofWideBytes, Word.toBytes, Word.lowByte_ofBytes,
        Word.highByte_ofBytes, List.cons_append, List.nil_append]
    · cases read
  · rintro ⟨rest, rfl⟩
    exact ofBytes?_toBytes_append h rest

theorem exists_of_long {bytes : List UInt8} (long : 13 ≤ bytes.length) :
    ∃ h rest, bytes = toBytes h ++ rest := by
  have front : (bytes.take 13).length = 13 := List.length_take_of_le long
  have read : ∃ h, ofBytes? (bytes.take 13 ++ bytes.drop 13) = some h := by
    match taken : bytes.take 13, front with
    | [m₀, m₁, m₂, m₃, v₀, v₁, e, o₀, o₁, o₂, o₃, s₀, s₁], _ => exact ⟨_, rfl⟩
  rw [List.take_append_drop] at read
  obtain ⟨h, read⟩ := read
  exact ⟨h, ofBytes?_eq_some.mp read⟩

theorem wideBytes_injective {m n : UInt32} (same : wideBytes m = wideBytes n) : m = n := by
  have back := ofWideBytes_wideBytes m
  simp only [wideBytes, List.cons.injEq, and_true] at same
  obtain ⟨a, b, c, d⟩ := same
  rw [a, b, c, d, ofWideBytes_wideBytes] at back
  exact back.symm

theorem detected_iff {bytes : List UInt8} :
    detected bytes = true ↔ bytes.take 4 = [0xBE, 0xEF, 0xCA, 0xFE] := by
  have magic : wideBytes imageMagic = [0xBE, 0xEF, 0xCA, 0xFE] := by decide
  rw [detected, magic, beq_iff_eq]

/-- The magic number that bytes begin with is that of their header. -/
theorem detected_append {h : Header} {rest : List UInt8} :
    detected (h.toBytes ++ rest) = true ↔ h.magic = imageMagic := by
  have front : (h.toBytes ++ rest).take 4 = wideBytes h.magic := rfl
  rw [detected, front, beq_iff_eq]
  constructor
  · exact wideBytes_injective
  · intro same
    rw [same]

end Header

namespace Image

/-- The sixteen-bit field at a place in some bytes. -/
def wordAt? (bytes : List UInt8) (k : Nat) : Option Word := do
  return Word.ofBytes (← bytes[k]?) (← bytes[k + 1]?)

/-- Bytes that begin with a sound header for what follows it. -/
structure Headed (bytes : List UInt8) : Prop where
  magic : bytes.take 4 = [0xBE, 0xEF, 0xCA, 0xFE]
  long : 13 ≤ bytes.length
  version : wordAt? bytes 4 = some 1
  endianness : bytes[6]? = some 0
  payload : bytes.length - 13 ≤ 0xFFFF
  statics : ∃ n, wordAt? bytes 11 = some n ∧ n.toNat ≤ bytes.length - 13

/-- Bytes that are code and nothing else. -/
structure Bare (bytes : List UInt8) : Prop where
  magic : bytes.take 4 ≠ [0xBE, 0xEF, 0xCA, 0xFE]
  payload : bytes.length ≤ 0xFFFF

/-- An image comes from bytes or from two segments. -/
def Made (i : Image) : Prop :=
  (∃ bytes, ofBytes bytes = .ok i) ∨ ∃ statics code, compose statics code = .ok i

theorem wordAt?_version (h : Header) (rest : List UInt8) :
    wordAt? (h.toBytes ++ rest) 4 = some h.version := by
  have read : wordAt? (h.toBytes ++ rest) 4 =
    some (Word.ofBytes h.version.lowByte h.version.highByte) := rfl
  rw [read, Word.ofBytes_lowByte_highByte]

theorem wordAt?_staticSize (h : Header) (rest : List UInt8) :
    wordAt? (h.toBytes ++ rest) 11 = some h.staticSize := by
  have read : wordAt? (h.toBytes ++ rest) 11 =
    some (Word.ofBytes h.staticSize.lowByte h.staticSize.highByte) := rfl
  rw [read, Word.ofBytes_lowByte_highByte]

theorem headed_iff {bytes : List UInt8} :
    Headed bytes ↔ ∃ options staticSize rest,
      bytes = (Header.sound options staticSize).toBytes ++ rest ∧
        rest.length ≤ maxPayload ∧ staticSize.toNat ≤ rest.length := by
  have behind (h : Header) (rest : List UInt8) :
      (h.toBytes ++ rest).length - 13 = rest.length := by
    rw [List.length_append, Header.length_toBytes, Header.size, Nat.add_sub_cancel_left]
  constructor
  · rintro ⟨magic, long, version, endianness, payload, n, statics, fits⟩
    obtain ⟨h, rest, rfl⟩ := Header.exists_of_long long
    rw [wordAt?_version] at version
    rw [wordAt?_staticSize] at statics
    rw [behind] at payload fits
    have magic := Header.detected_append.mp (Header.detected_iff.mpr magic)
    obtain ⟨m, v, e, options, staticSize⟩ := h
    cases magic
    cases version
    cases endianness
    cases statics
    exact ⟨options, staticSize, rest, rfl, payload, fits⟩
  · rintro ⟨options, staticSize, rest, rfl, payload, fits⟩
    refine ⟨Header.detected_iff.mp (Header.detected_append.mpr rfl), ?_, wordAt?_version _ rest,
      rfl, ?_, staticSize, wordAt?_staticSize _ rest, ?_⟩
    · rw [List.length_append, Header.length_toBytes]
      exact Nat.le_add_right 13 rest.length
    · rw [behind]
      exact payload
    · rw [behind]
      exact fits

/-- A header that is read speaks for the bytes behind it. -/
theorem ofBytes_behind {h : Header} {rest : List UInt8} {i : Image}
    (read : ofBytes (h.toBytes ++ rest) = .ok i) (magic : h.magic = Header.imageMagic) :
    i.hasHeader = true ∧ i.header = h ∧ i.payload = rest := by
  have behind : (h.toBytes ++ rest).drop Header.size = rest := by
    rw [← Header.length_toBytes h, List.drop_left]
  simp only [ofBytes, Header.detected_append.mpr magic, if_true, Header.ofBytes?_toBytes_append,
    behind] at read
  split at read
  · cases read
  · next version =>
    split at read
    · cases read
    · next endianness =>
      split at read
      · next fits =>
        split at read
        · next inside =>
          cases read
          obtain ⟨m, v, e, options, staticSize⟩ := h
          cases magic
          cases Decidable.not_not.mp version
          cases Decidable.not_not.mp endianness
          refine ⟨rfl, ?_, List.take_append_drop _ rest⟩
          have size : (rest.take staticSize.toNat).length = staticSize.toNat :=
            List.length_take_of_le inside
          simp only [header, Option.getD_some, size, UInt16.ofNat_toNat]
          rfl
        · cases read
      · cases read

/-- And an image with that header is what is read. -/
theorem ofBytes_header {i : Image} (has : i.hasHeader = true) :
    ofBytes (i.header.toBytes ++ i.payload) = .ok i := by
  have small := i.fits
  have split : i.header.staticSize.toNat = i.statics.length := by
    have narrow := UInt16.toNat_ofNat' (n := i.statics.length)
    rw [Nat.mod_eq_of_lt (by simp only [maxPayload] at small; omega)] at narrow
    exact narrow
  have options : some i.header.options = i.options? := by
    obtain ⟨o, given⟩ := Option.isSome_iff_exists.mp has
    rw [given, header, given]
    rfl
  have magic : i.header.magic = Header.imageMagic := rfl
  have version : i.header.version = Header.imageVersion := rfl
  have endianness : i.header.endianness = Header.littleEndian := rfl
  generalize i.header = h at *
  have behind : (h.toBytes ++ i.payload).drop Header.size = i.payload := by
    rw [← Header.length_toBytes h, List.drop_left]
  simp only [ofBytes, Header.detected_append.mpr magic, if_true, Header.ofBytes?_toBytes_append,
    behind, version, endianness, ne_eq, not_true_eq_false, if_false, split, options,
    i.length_payload, small, dite_true, Nat.le_add_right]
  simp only [payload, List.take_left, List.drop_left]

/-- Reading undoes storing, except that bare code which begins like a header is
taken for one. -/
theorem ofBytes_eq_ok {bytes : List UInt8} {i : Image} :
    ofBytes bytes = .ok i ↔
      bytes = i.toBytes ∧ (i.hasHeader = true ∨ Header.detected i.code = false) := by
  constructor
  · intro read
    cases detected : Header.detected bytes with
    | true =>
      cases header : Header.ofBytes? bytes with
      | none => simp [ofBytes, detected, header] at read
      | some h =>
        obtain ⟨rest, rfl⟩ := Header.ofBytes?_eq_some.mp header
        obtain ⟨has, rfl, rfl⟩ := ofBytes_behind read (Header.detected_append.mp detected)
        exact ⟨by rw [toBytes, if_pos has], Or.inl has⟩
    | false =>
      simp only [ofBytes, detected, Bool.false_eq_true, if_false] at read
      split at read
      · cases read
        exact ⟨rfl, Or.inr detected⟩
      · cases read
  · rintro ⟨rfl, kind⟩
    obtain ⟨options?, statics, code, bare, fits⟩ := i
    cases options? with
    | none =>
      obtain rfl := bare rfl
      have other : Header.detected code = false := kind.resolve_left nofun
      have short : code.length ≤ maxPayload := by
        rw [List.length_nil, Nat.zero_add] at fits
        exact fits
      have stored : toBytes ⟨none, [], code, bare, fits⟩ = code := rfl
      simp only [stored, ofBytes, other, Bool.false_eq_true, if_false, short, dite_true]
    | some options => exact ofBytes_header rfl

theorem exists_ofBytes_iff {bytes : List UInt8} :
    (∃ i, ofBytes bytes = .ok i) ↔ Bare bytes ∨ Headed bytes := by
  constructor
  · rintro ⟨i, read⟩
    obtain ⟨rfl, kind⟩ := ofBytes_eq_ok.mp read
    obtain ⟨options?, statics, code, bare, fits⟩ := i
    cases options? with
    | none =>
      obtain rfl := bare rfl
      have other : Header.detected code = false := kind.resolve_left nofun
      rw [List.length_nil, Nat.zero_add] at fits
      refine Or.inl ⟨fun magic => ?_, fits⟩
      have same : toBytes ⟨none, [], code, bare, by simpa using fits⟩ = code := rfl
      rw [same, ← Header.detected_iff, other] at magic
      cases magic
    | some options =>
      rw [← List.length_append] at fits
      refine Or.inr (headed_iff.mpr ⟨options, _, statics ++ code, rfl, fits, ?_⟩)
      rw [UInt16.toNat_ofNat', List.length_append]
      exact Nat.le_trans (Nat.mod_le _ _) (Nat.le_add_right _ _)
  · rintro (⟨magic, short⟩ | headed)
    · have other : Header.detected bytes = false := by
        rw [← Bool.not_eq_true, Header.detected_iff]
        exact magic
      have fits : ([] : List UInt8).length + bytes.length ≤ maxPayload := by
        rw [List.length_nil, Nat.zero_add]
        exact short
      exact ⟨⟨none, [], bytes, fun _ => rfl, fits⟩, ofBytes_eq_ok.mpr ⟨rfl, Or.inr other⟩⟩
    · obtain ⟨options, n, rest, rfl, short, inside⟩ := headed_iff.mp headed
      have size : (rest.take n.toNat).length = n.toNat := List.length_take_of_le inside
      have fits : (rest.take n.toNat).length + (rest.drop n.toNat).length ≤ maxPayload := by
        rw [← List.length_append, List.take_append_drop]
        exact short
      refine ⟨⟨some options, _, _, nofun, fits⟩, ofBytes_eq_ok.mpr ⟨?_, Or.inl rfl⟩⟩
      simp only [toBytes, hasHeader, Option.isSome_some, if_true, header, payload, size,
        UInt16.ofNat_toNat, Option.getD_some, List.take_append_drop]

/-- What was read or put together can be stored. -/
theorem Made.ofBytes_toBytes {i : Image} (made : i.Made) : ofBytes i.toBytes = .ok i := by
  refine ofBytes_eq_ok.mpr ⟨rfl, ?_⟩
  rcases made with ⟨bytes, read⟩ | ⟨statics, code, composed⟩
  · exact (ofBytes_eq_ok.mp read).2
  · unfold compose at composed
    split at composed
    · cases composed
      exact Or.inl rfl
    · cases composed

/-- Which bytes are those of an image, and which segments make one; storing and
reading undo each other, options and all. -/
theorem image_codec :
    (∀ bytes, (∃ i, ofBytes bytes = .ok i) ↔ Bare bytes ∨ Headed bytes) ∧
    (∀ bytes i, ofBytes bytes = .ok i →
      i.toBytes = bytes ∧ i.statics ++ i.code = i.payload ∧
        i.payload = bytes.drop (if i.hasHeader then 13 else 0)) ∧
    (∀ i : Image, i.Made → ofBytes i.toBytes = .ok i) ∧
    (∀ statics code, (∃ i, compose statics code = .ok i) ↔
      statics.length + code.length ≤ 0xFFFF) ∧
    ∀ statics code i, compose statics code = .ok i → i.statics = statics ∧ i.code = code := by
  refine ⟨fun bytes => exists_ofBytes_iff, ?_, fun i made => made.ofBytes_toBytes, ?_, ?_⟩
  · intro bytes i read
    obtain ⟨rfl, _⟩ := ofBytes_eq_ok.mp read
    refine ⟨rfl, rfl, ?_⟩
    cases has : i.hasHeader with
    | true => simp only [toBytes, has, if_true]; rfl
    | false => simp only [toBytes, has, Bool.false_eq_true, if_false, List.drop_zero]
  · intro statics code
    unfold compose
    split
    · next fits => exact ⟨fun _ => fits, fun _ => ⟨_, rfl⟩⟩
    · next large => exact ⟨nofun, fun fits => absurd fits large⟩
  · intro statics code i composed
    unfold compose at composed
    split at composed
    · cases composed
      exact ⟨rfl, rfl⟩
    · cases composed

/-- A header with option bits, whose static segment is all of the payload. -/
theorem image_codec_options :
    let bytes : List UInt8 :=
      [0xBE, 0xEF, 0xCA, 0xFE, 1, 0, 0, 0x78, 0x56, 0x34, 0x12, 2, 0, 1, 0x41]
    ∃ i, ofBytes bytes = .ok i ∧ i.options? = some 0x12345678 ∧ i.payload = [1, 0x41] ∧
      i.toBytes = bytes ∧ ofBytes i.toBytes = .ok i := by
  intro bytes
  let i : Image := ⟨some 0x12345678, [1, 0x41], [], nofun, by decide⟩
  have read : ofBytes bytes = .ok i := rfl
  obtain ⟨stored, _, payload⟩ := image_codec.2.1 bytes i read
  exact ⟨i, read, rfl, payload, stored, image_codec.2.2.1 i (Or.inl ⟨bytes, read⟩)⟩

end Image

end WordMachine
