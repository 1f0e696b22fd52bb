import WordMachine.Proofs.Listing.Sweep
import WordMachine.Proofs.Result

/-! The instruction stream. Bytes decode to an instruction when they begin with
its encoding and to nothing else, so code has a listing exactly when it is a row
of encodings. The row is then the only one, and each instruction is listed at the
number of bytes before it. -/
namespace WordMachine

theorem Instruction.decode_eq_ok {bytes : List UInt8} {i : Instruction} :
    decode bytes = .ok i ↔ bytes.take i.size = i.encode := by
  constructor
  · intro h
    obtain ⟨rest, rfl⟩ := encode_append_of_decode h
    rw [← length_encode, List.take_left]
  · intro h
    have decoded := decode_encode_append i (bytes.drop i.size)
    rwa [← h, List.take_append_drop] at decoded

namespace Listing

/-- An instruction lies behind all that come before it. -/
theorem getElem?_place (start k : Nat) (is : List Instruction) :
    (place start is)[k]? = is[k]?.map fun i => (start + span (is.take k), i) := by
  induction is generalizing start k with
  | nil => rfl
  | cons i rest ih =>
    cases k with
    | zero => rfl
    | succ k =>
      rw [place, List.getElem?_cons_succ, ih, List.getElem?_cons_succ, List.take_succ_cons,
        span_cons, Nat.add_assoc]

theorem span_take_le (k : Nat) (is : List Instruction) : span (is.take k) ≤ span is := by
  have parts : span (is.take k) + span (is.drop k) = span is := by
    rw [← span_append, List.take_append_drop]
  omega

theorem exists_ofImage_iff {image : Image} :
    (∃ l, ofImage image = .ok l) ↔
      ∃ is : List Instruction, image.code = is.flatMap Instruction.encode := by
  constructor
  · rintro ⟨l, h⟩
    obtain ⟨is, code, _⟩ := parts_of_ofImage h
    exact ⟨is, code⟩
  · rintro ⟨is, code⟩
    exact ⟨_, ofImage_of_code code⟩

/-- The code of a listed image encodes the listed instructions and no others. -/
theorem code_iff_of_ofImage {image : Image} {l : Listing} (h : ofImage image = .ok l)
    {is : List Instruction} :
    image.code = is.flatMap Instruction.encode ↔ is = l.instructions.map Prod.snd := by
  obtain ⟨listed, code, _, placed, _⟩ := parts_of_ofImage h
  rw [placed, map_snd_place, code]
  constructor
  · intro same
    exact (flatMap_encode_injective same).symm
  · rintro rfl
    rfl

/-- Every instruction is listed at the size of what comes before it, and sixteen
bits hold that address. -/
theorem address_of_ofImage {image : Image} {l : Listing} (h : ofImage image = .ok l) {k a : Nat}
    {i : Instruction} (listed : l.instructions[k]? = some (a, i)) :
    a = image.codeOffset + span ((l.instructions.map Prod.snd).take k) ∧
      (UInt16.ofNat a).toNat = a := by
  obtain ⟨is, code, _, placed, _⟩ := parts_of_ofImage h
  rw [placed, getElem?_place] at listed
  obtain ⟨j, _, same⟩ := Option.map_eq_some_iff.mp listed
  obtain ⟨rfl, rfl⟩ := Prod.mk.inj same
  have below := span_take_le k is
  have fits := image.fits
  rw [code, length_flatMap_encode] at fits
  refine ⟨by rw [placed, map_snd_place], ?_⟩
  rw [UInt16.toNat_ofNat', Nat.mod_eq_of_lt]
  simp only [maxPayload, Image.codeOffset] at fits ⊢
  omega

/-- Instructions and their encodings determine each other, one by one and in a
row; an image has a listing when its code is a row of encodings, and the listing
then has the instructions of that row, each at its address. -/
theorem instruction_stream :
    (∀ (i : Instruction) (rest : List UInt8), Instruction.decode (i.encode ++ rest) = .ok i) ∧
    (∀ i : Instruction, i.encode.length = i.size) ∧
    (∀ (bytes : List UInt8) (i : Instruction),
      Instruction.decode bytes = .ok i ↔ bytes.take i.size = i.encode) ∧
    ∀ image : Image,
      ((∃ l, ofImage image = .ok l) ↔
        ∃ is : List Instruction, image.code = is.flatMap Instruction.encode) ∧
      ∀ l, ofImage image = .ok l →
        (∀ is : List Instruction,
          image.code = is.flatMap Instruction.encode ↔ is = l.instructions.map Prod.snd) ∧
        ∀ k a i, l.instructions[k]? = some (a, i) →
          a = image.codeOffset + span ((l.instructions.map Prod.snd).take k) ∧
            (UInt16.ofNat a).toNat = a := by
  refine ⟨Instruction.decode_encode_append, Instruction.length_encode,
    fun bytes i => Instruction.decode_eq_ok, fun image => ⟨exists_ofImage_iff, ?_⟩⟩
  intro l h
  exact ⟨fun is => code_iff_of_ofImage h, fun k a i listed => address_of_ofImage h listed⟩

/-- Behind a static segment, an instruction whose register comes last, and one
that follows it. -/
theorem instruction_stream_behind_statics :
    let image : Image := ⟨some 0, [1, 0x41], [0xC0, 5, 0, 3, 1], nofun, by decide⟩
    let store : Instruction := ⟨.moveMemReg, .memReg 5 .r4, rfl⟩
    let halt : Instruction := ⟨.halt, .none, rfl⟩
    ∃ l, ofImage image = .ok l ∧ l.instructions[1]? = some (6, halt) ∧
      6 = image.codeOffset + span [store] ∧
      ∀ is : List Instruction,
        image.code = is.flatMap Instruction.encode ↔ is = [store, halt] := by
  intro image store halt
  let l : Listing := ⟨.texts [(0, "A")], [(2, store), (6, halt)], [], 7⟩
  have listed : ofImage image = .ok l := Result.eq_ok_of_toOption (by decide +kernel)
  obtain ⟨unique, placed⟩ := (instruction_stream.2.2.2 image).2 l listed
  exact ⟨l, listed, rfl, (placed 1 6 halt rfl).1, unique⟩

end Listing

end WordMachine
