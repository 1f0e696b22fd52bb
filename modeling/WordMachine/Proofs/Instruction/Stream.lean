import WordMachine.Instruction.Codec

/-! Decoding looks at no more than the bytes of one instruction. -/
namespace WordMachine.Instruction

theorem decode_append_of_decode {bytes : List UInt8} {i : Instruction}
    (h : decode bytes = .ok i) (more : List UInt8) : decode (bytes ++ more) = .ok i := by
  obtain ⟨rest, rfl⟩ := encode_append_of_decode h
  rw [List.append_assoc]
  exact decode_encode_append i (rest ++ more)

theorem size_le_of_decode {bytes : List UInt8} {i : Instruction}
    (h : decode bytes = .ok i) : i.size ≤ bytes.length := by
  obtain ⟨rest, rfl⟩ := encode_append_of_decode h
  rw [List.length_append, length_encode]
  exact Nat.le_add_right _ _

theorem decode_take_iff {bytes : List UInt8} {i : Instruction} :
    decode (bytes.take maxSize) = .ok i ↔ decode bytes = .ok i := by
  constructor
  · intro h
    have whole := decode_append_of_decode h (bytes.drop maxSize)
    rwa [List.take_append_drop] at whole
  · intro h
    obtain ⟨rest, rfl⟩ := encode_append_of_decode h
    rw [List.take_append, List.take_of_length_le (length_encode i ▸ size_le_maxSize i)]
    exact decode_encode_append i _

end WordMachine.Instruction
