import WordMachine.Proofs.Listing.Compile
import WordMachine.Proofs.Listing.Sweep
import WordMachine.Proofs.Listing.Texts
import WordMachine.Proofs.Text.Palette

/-! Coloured listings. The texts of a static segment are listed only if all of
their characters are printable, so none of them brings an escape character into a
listing, and each line in colour decorates the plain one. -/
namespace WordMachine

open Palette (Decorates)

namespace StaticListing

/-- A text that is listed has printable characters only. -/
theorem textOf_of_readTexts {offset : Nat} {found items : List (Word × String)}
    {bytes : List UInt8} (h : readTexts offset found bytes = some items) :
    ∀ p ∈ items, p ∈ found ∨ ∃ t : List UInt8, t.all isPrintable = true ∧ p.2 = textOf t := by
  fun_induction readTexts offset found bytes with
  | case1 offset found =>
    cases h
    exact fun p hp => Or.inl (List.mem_reverse.mp hp)
  | case2 offset found length rest text whole ih =>
    intro p hp
    rcases ih h p hp with here | printable
    · rcases List.mem_cons.mp here with rfl | before
      · exact Or.inr ⟨text, whole.2, rfl⟩
      · exact Or.inl before
    · exact Or.inr printable
  | case3 => cases h

theorem decorates_textOf {t : List UInt8} (clean : t.all isPrintable = true) :
    Decorates (textOf t) (textOf t) := by
  have graphic : ∀ n < 0x7F, 0x20 ≤ n → Char.ofNat n ≠ '\x1b' := by decide
  refine .ofList fun c hc => ?_
  obtain ⟨b, hb, rfl⟩ := List.mem_map.mp hc
  have printable := List.all_eq_true.mp clean b hb
  simp only [isPrintable, Bool.and_eq_true, decide_eq_true_eq] at printable
  obtain ⟨⟨low, high⟩, _⟩ := printable
  have low : 0x20 ≤ b.toNat := low
  have high : b.toNat ≤ 0x7E := high
  exact graphic b.toNat (by omega) low

/-- The texts of a listed segment. -/
theorem decorates_of_ofBytes {segment : List UInt8} {items : List (Word × String)}
    (h : ofBytes segment = .texts items) : ∀ p ∈ items, Decorates p.2 p.2 := by
  unfold ofBytes at h
  split at h
  · cases h
  · split at h
    · next read =>
      cases h
      intro p hp
      rcases textOf_of_readTexts read p hp with none | ⟨t, clean, same⟩
      · cases none
      · rw [same]
        exact decorates_textOf clean
    · cases h

end StaticListing

namespace Instruction

theorem decorates_mnemonic (op : Opcode) : Decorates op.mnemonic op.mnemonic := by
  have all : ∀ op ∈ Opcode.all, '\x1b' ∉ op.mnemonic.toList := by decide
  exact .self (all op op.mem_all)

theorem decorates_register (r : Register) : Decorates r.name r.name := by
  refine .self ?_
  cases r <;> decide

end Instruction

namespace Listing

theorem decorates_labelName (n : Nat) : Decorates (labelName n) (labelName n) :=
  .append (.self (by decide)) (.repr n)

variable {l : Listing}

theorem decorates_label? {l : Listing} {address : Nat} {name : String}
    (named : l.label? address = some name) : Decorates name name := by
  obtain ⟨_, rfl⟩ := label?_eq_some named
  exact decorates_labelName _

theorem decorates_labelLine {name : String} (named : Decorates name name) :
    Decorates (labelLine .ansi name) (labelLine .plain name) :=
  ((Decorates.label.append named).append .reset).appendBare (by decide)

theorem decorates_labelLines (implicitStart addresses : Bool) (l : Listing) (address : Nat) :
    List.Forall₂ Decorates (labelLines ⟨implicitStart, addresses, .ansi⟩ l address)
      (labelLines ⟨implicitStart, addresses, .plain⟩ l address) := by
  rw [labelLines, labelLines]
  cases named : l.label? address with
  | none => exact .nil
  | some name => exact .cons (decorates_labelLine (decorates_label? named)) .nil

theorem decorates_staticLines {statics : StaticListing}
    (texts : ∀ items, statics = .texts items → ∀ p ∈ items, Decorates p.2 p.2) :
    List.Forall₂ Decorates (staticLines .ansi statics) (staticLines .plain statics) := by
  cases statics with
  | empty => exact .nil
  | texts items =>
    refine .cons (.self (by decide)) (Decorates.map fun p hp => ?_)
    have name : Decorates ("$S" ++ Hex.address p.1.toNat ++ ": ") _ :=
      (Decorates.append (.self (by decide)) (.address p.1.toNat)).appendBare (by decide)
    have opened : Decorates (_ ++ "\"") _ := (name.append .literal).appendBare (by decide)
    exact ((opened.append (texts items rfl p hp)).appendBare (by decide)).append .reset
  | raw size =>
    refine .cons (.append (.appendBare ?_ (by decide)) .reset) .nil
    exact (Decorates.dim.appendBare (by decide)).append (.repr size)

theorem decorates_operandTexts (l : Listing) (i : Instruction) :
    List.Forall₂ Decorates (operandTexts .ansi l i) (operandTexts .plain l i) := by
  have value : ∀ w, Decorates (Palette.ansi.literal ++ Hex.word w ++ Palette.ansi.reset) _ :=
    fun w => (Decorates.literal.append (.word w)).append .reset
  have memory : ∀ w, Decorates (Palette.ansi.literal ++ "$" ++ Hex.word w ++ Palette.ansi.reset) _ :=
    fun w => ((Decorates.literal.appendBare (by decide)).append (.word w)).append .reset
  have register := Instruction.decorates_register
  rw [operandTexts, operandTexts]
  cases i.operands with
  | none => exact .nil
  | imm w =>
    cases named : i.target?.bind fun t => l.label? t.toNat with
    | none => exact .cons (value w) .nil
    | some name =>
      obtain ⟨t, _, named⟩ := Option.bind_eq_some_iff.mp named
      exact .cons ((Decorates.label.append (decorates_label? named)).append .reset) .nil
  | reg r => exact .cons (register r) .nil
  | regImm r w => exact .cons (register r) (.cons (value w) .nil)
  | regReg r s => exact .cons (register r) (.cons (register s) .nil)
  | regMem r w => exact .cons (register r) (.cons (memory w) .nil)
  | memReg w r => exact .cons (memory w) (.cons (register r) .nil)

theorem decorates_instructionText (l : Listing) (i : Instruction) :
    Decorates (instructionText .ansi l i) (instructionText .plain l i) :=
  .intercalate (.self (by decide))
    (.cons (Instruction.decorates_mnemonic i.opcode) (decorates_operandTexts l i))

theorem decorates_instructionLine (implicitStart addresses : Bool) (l : Listing) (indented : Bool)
    (address : Nat) (i : Instruction) :
    Decorates (instructionLine ⟨implicitStart, addresses, .ansi⟩ l indented address i)
      (instructionLine ⟨implicitStart, addresses, .plain⟩ l indented address i) := by
  refine .append (.append ?_ (decorates_instructionText l i)) ?_
  · cases indented <;> exact .self (by decide)
  · cases addresses with
    | false => exact (Decorates.self (by decide) : Decorates "" "")
    | true =>
      refine .append (.append ?_ (.address address)) .reset
      exact (Decorates.append (.self (by decide)) .dim).appendBare (by decide)

/-- A listing in colour decorates the plain one, line by line. -/
theorem decorates_lines (texts : ∀ items, l.statics = .texts items → ∀ p ∈ items, Decorates p.2 p.2)
    (implicitStart addresses : Bool) :
    List.Forall₂ Decorates (l.lines ⟨implicitStart, addresses, .ansi⟩)
      (l.lines ⟨implicitStart, addresses, .plain⟩) := by
  refine List.rel_append (List.rel_append (List.rel_append (decorates_staticLines texts) ?_) ?_)
    (decorates_labelLines implicitStart addresses l l.stop)
  · cases implicitStart with
    | true => exact .nil
    | false => exact .cons (decorates_labelLine (.self (by decide))) .nil
  · refine Decorates.flatMap fun p _ => List.rel_append (decorates_labelLines ..) ?_
    exact .cons (decorates_instructionLine ..) .nil

theorem decorates_text {image : Image} (h : ofImage image = .ok l) (implicitStart addresses : Bool) :
    Decorates (l.text ⟨implicitStart, addresses, .ansi⟩)
      (l.text ⟨implicitStart, addresses, .plain⟩) := by
  obtain ⟨_, _, statics, _⟩ := parts_of_ofImage h
  refine .joinLines (decorates_lines (fun items same => ?_) implicitStart addresses)
  exact StaticListing.decorates_of_ofBytes (statics.symm.trans same)

end Listing

end WordMachine
