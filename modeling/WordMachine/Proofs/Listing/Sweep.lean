import Mathlib.Algebra.GroupWithZero.Nat
import WordMachine.Listing.Basic

/-! Instructions laid down one after the other. A sweep over their encodings
finds each at its address and nothing else, and code that can be swept is made
of encodings. An address where the instructions split in two is the start of one
of them, or the address after the last. -/
namespace WordMachine.Listing

/-- Instructions with the addresses they have when the first lies at `start`. -/
def place (start : Nat) : List Instruction → List (Nat × Instruction)
  | [] => []
  | i :: rest => (start, i) :: place (start + i.size) rest

theorem map_snd_place (start : Nat) (is : List Instruction) :
    (place start is).map Prod.snd = is := by
  induction is generalizing start with
  | nil => rfl
  | cons i rest ih => rw [place, List.map_cons, ih]

theorem length_place (start : Nat) (is : List Instruction) :
    (place start is).length = is.length := by
  rw [← List.length_map Prod.snd, map_snd_place]

theorem flatMap_place {α : Type} (f : Instruction → List α) (start : Nat) (is : List Instruction) :
    (place start is).flatMap (fun e => f e.2) = is.flatMap f := by
  rw [← List.flatMap_map, map_snd_place]

/-- Bytes that some instructions take. -/
def span (is : List Instruction) : Nat := (is.map Instruction.size).sum

@[simp] theorem span_nil : span [] = 0 := rfl

@[simp] theorem span_cons (i : Instruction) (is : List Instruction) :
    span (i :: is) = i.size + span is := rfl

@[simp] theorem span_append (is js : List Instruction) : span (is ++ js) = span is + span js := by
  simp [span]

theorem length_flatMap_encode (is : List Instruction) :
    (is.flatMap Instruction.encode).length = span is := by
  induction is with
  | nil => rfl
  | cons i rest ih =>
    simp only [List.flatMap_cons, List.length_append, Instruction.length_encode, ih, span_cons]

theorem sweep_encode_append (start : Nat) (found : List (Nat × Instruction)) (i : Instruction)
    (rest : List UInt8) :
    sweep start found (i.encode ++ rest) = sweep (start + i.size) ((start, i) :: found) rest := by
  have decoded := Instruction.decode_encode_append i rest
  have skipped : (i.encode ++ rest).drop i.size = rest := by
    rw [← Instruction.length_encode, List.drop_left]
  rw [Instruction.encode, List.cons_append] at decoded skipped ⊢
  rw [sweep]
  simp only [decoded, skipped]

theorem sweep_flatMap_encode (start : Nat) (found : List (Nat × Instruction))
    (is : List Instruction) :
    sweep start found (is.flatMap Instruction.encode) = .ok (found.reverse ++ place start is) := by
  induction is generalizing start found with
  | nil => simp [sweep, place]
  | cons i rest ih =>
    rw [List.flatMap_cons, sweep_encode_append, ih]
    simp [place]

/-- Encodings in a row can be told apart. -/
theorem flatMap_encode_injective {is js : List Instruction}
    (same : is.flatMap Instruction.encode = js.flatMap Instruction.encode) : is = js := by
  have swept := sweep_flatMap_encode 0 [] is
  rw [same, sweep_flatMap_encode 0 [] js] at swept
  have placed := congrArg (List.map Prod.snd) (Except.ok.inj swept)
  simpa only [List.reverse_nil, List.nil_append, map_snd_place, eq_comm] using placed

theorem sweep_ok {start : Nat} {found placed : List (Nat × Instruction)} {code : List UInt8}
    (h : sweep start found code = .ok placed) :
    ∃ is, code = is.flatMap Instruction.encode ∧ placed = found.reverse ++ place start is := by
  fun_induction sweep start found code with
  | case1 start found =>
    cases h
    exact ⟨[], rfl, by simp [place]⟩
  | case2 => cases h
  | case3 start found byte rest i decoded ih =>
    obtain ⟨is, code, rfl⟩ := ih h
    obtain ⟨more, whole⟩ := Instruction.encode_append_of_decode decoded
    rw [whole, ← Instruction.length_encode, List.drop_left] at code
    exact ⟨i :: is, by rw [whole, code, List.flatMap_cons], by simp [place]⟩

theorem mem_targets {instructions : List (Nat × Instruction)} {address : Nat} :
    address ∈ targets instructions ↔
      ∃ e ∈ instructions, ∃ t, e.2.target? = some t ∧ t.toNat = address := by
  rw [targets, List.mem_filterMap]
  refine exists_congr fun e => and_congr_right fun _ => ?_
  exact Option.map_eq_some_iff

/-- Targets become labels where the code splits. -/
theorem mem_findLabels {instructions : List (Nat × Instruction)} {stop address : Nat} :
    address ∈ findLabels instructions stop ↔
      address ∈ targets instructions ∧
        (address ∈ instructions.map Prod.fst ∨ address = stop) := by
  rw [findLabels, List.mem_eraseDups, List.mem_filter, List.contains_iff_mem, List.mem_cons, or_comm]

/-- An image has a listing if its code is made of instructions. -/
theorem ofImage_of_code {image : Image} {is : List Instruction}
    (h : image.code = is.flatMap Instruction.encode) :
    ofImage image = .ok
      ⟨StaticListing.ofBytes image.statics, place image.codeOffset is,
        findLabels (place image.codeOffset is) (image.codeOffset + image.code.length),
        image.codeOffset + image.code.length⟩ := by
  have swept : sweep image.codeOffset [] image.code = .ok (place image.codeOffset is) := by
    rw [h, sweep_flatMap_encode]
    rfl
  simp only [ofImage, swept]

/-- A listing lists the instructions that the code encodes. -/
theorem parts_of_ofImage {image : Image} {l : Listing} (h : ofImage image = .ok l) :
    ∃ is, image.code = is.flatMap Instruction.encode ∧
      l.statics = StaticListing.ofBytes image.statics ∧
      l.instructions = place image.codeOffset is ∧ l.stop = image.codeOffset + span is ∧
      l.labels = findLabels (place image.codeOffset is) (image.codeOffset + span is) := by
  unfold ofImage at h
  split at h
  · cases h
  · next instructions swept =>
    obtain ⟨is, code, rfl⟩ := sweep_ok swept
    cases h
    rw [code, length_flatMap_encode]
    exact ⟨is, rfl, rfl, rfl, rfl, rfl⟩

/-- From address `k` on, instructions laid down from `start` on are `rest`. -/
def Tail (start : Nat) (is : List Instruction) (k : Nat) (rest : List Instruction) : Prop :=
  ∃ done, is = done ++ rest ∧ k = start + span done

/-- The start of an instruction, or the address after the last one. -/
def Boundary (start : Nat) (is : List Instruction) (k : Nat) : Prop := ∃ rest, Tail start is k rest

namespace Tail

variable {start k : Nat} {is rest : List Instruction} {i : Instruction}

theorem first (start : Nat) (is : List Instruction) : Tail start is start is := ⟨[], rfl, rfl⟩

theorem last (start : Nat) (is : List Instruction) : Tail start is (start + span is) [] :=
  ⟨is, by rw [List.append_nil], rfl⟩

theorem next (h : Tail start is k (i :: rest)) : Tail start is (k + i.size) rest := by
  obtain ⟨done, rfl, rfl⟩ := h
  refine ⟨done ++ [i], ?_, ?_⟩
  · rw [List.append_assoc, List.singleton_append]
  · simp only [span_append, span_cons, span_nil]
    omega

theorem behind {others : List Instruction} (h : Tail (start + span is) others k rest) :
    Tail start (is ++ others) k rest := by
  obtain ⟨done, rfl, rfl⟩ := h
  refine ⟨is ++ done, (List.append_assoc is done rest).symm, ?_⟩
  rw [span_append, Nat.add_assoc]

/-- An instruction among two rows lies in the first, or in the second. -/
theorem append_cases {others : List Instruction} (h : Tail start (is ++ others) k (i :: rest)) :
    i ∈ is ∧ k + i.size ≤ start + span is ∨ Tail (start + span is) others k (i :: rest) := by
  obtain ⟨done, split, rfl⟩ := h
  rcases List.append_eq_append_iff.mp split with ⟨more, rfl, rfl⟩ | ⟨more, rfl, left⟩
  · refine Or.inr ⟨more, rfl, ?_⟩
    rw [span_append, Nat.add_assoc]
  · cases more with
    | nil => exact Or.inr ⟨[], left.symm, by rw [List.append_nil, span_nil, Nat.add_zero]⟩
    | cons j more =>
      injection left with same
      subst same
      refine Or.inl ⟨List.mem_append_right done List.mem_cons_self, ?_⟩
      rw [span_append, span_cons]
      omega

theorem le (h : Tail start is k rest) : start ≤ k ∧ k + span rest = start + span is := by
  obtain ⟨done, rfl, rfl⟩ := h
  rw [span_append]
  omega

theorem mem (h : Tail start is k (i :: rest)) : i ∈ is := by
  obtain ⟨done, rfl, _⟩ := h
  exact List.mem_append_right done List.mem_cons_self

/-- What lies at the address, behind whatever comes before the instructions. -/
theorem drop (h : Tail start is k rest) {before : List UInt8} (placed : before.length = start) :
    (before ++ is.flatMap Instruction.encode).drop k = rest.flatMap Instruction.encode := by
  obtain ⟨done, rfl, rfl⟩ := h
  have size : start + span done = (before ++ done.flatMap Instruction.encode).length := by
    rw [List.length_append, length_flatMap_encode, placed]
  rw [List.flatMap_append, ← List.append_assoc, size, List.drop_left]

/-- An address holds one instruction. -/
theorem lookup (h : Tail start is k (i :: rest)) : (place start is).lookup k = some i := by
  obtain ⟨done, rfl, rfl⟩ := h
  induction done generalizing start with
  | nil => simp [place]
  | cons j done ih =>
    have sized := j.size_pos
    have apart : (start + span (j :: done) == start) = false := by
      rw [span_cons, beq_eq_false_iff_ne]
      omega
    have shifted : start + span (j :: done) = start + j.size + span done := by
      rw [span_cons]
      omega
    rw [List.cons_append, place, List.lookup_cons, apart, shifted]
    exact ih

theorem mem_place (h : Tail start is k (i :: rest)) : (k, i) ∈ place start is := by
  obtain ⟨before, after, split, _⟩ := List.lookup_eq_some_iff.mp h.lookup
  rw [split]
  exact List.mem_append_right before List.mem_cons_self

end Tail

theorem mem_map_place {start k : Nat} {is : List Instruction} :
    k ∈ (place start is).map Prod.fst ↔ ∃ i rest, Tail start is k (i :: rest) := by
  induction is generalizing start with
  | nil =>
    simp only [place, List.map_nil, List.not_mem_nil, false_iff]
    rintro ⟨i, rest, done, split, _⟩
    simp at split
  | cons j is ih =>
    simp only [place, List.map_cons, List.mem_cons, ih]
    constructor
    · rintro (rfl | ⟨i, rest, done, rfl, rfl⟩)
      · exact ⟨j, is, Tail.first _ _⟩
      · refine ⟨i, rest, j :: done, rfl, ?_⟩
        rw [span_cons, Nat.add_assoc]
    · rintro ⟨i, rest, done, split, rfl⟩
      cases done with
      | nil => exact Or.inl rfl
      | cons d done =>
        injection split with first others
        subst first
        refine Or.inr ⟨i, rest, done, others, ?_⟩
        rw [span_cons, Nat.add_assoc]

theorem boundary_iff {start k : Nat} {is : List Instruction} :
    Boundary start is k ↔ k ∈ (place start is).map Prod.fst ∨ k = start + span is := by
  rw [mem_map_place]
  constructor
  · rintro ⟨rest, tail⟩
    cases rest with
    | nil => exact Or.inr tail.le.2
    | cons i rest => exact Or.inl ⟨i, rest, tail⟩
  · rintro (⟨i, rest, tail⟩ | rfl)
    · exact ⟨i :: rest, tail⟩
    · exact ⟨[], Tail.last start is⟩

end WordMachine.Listing
