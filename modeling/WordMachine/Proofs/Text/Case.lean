import WordMachine.Text.Case

/-! Letter case. Capital texts stay as they are, and what is said of characters
without regard to case is said of both forms of a letter. -/
namespace WordMachine.Text

theorem toUpper_toUpper (c : Char) : c.toUpper.toUpper = c.toUpper := by
  by_cases small : c.val ≥ 97 ∧ c.val ≤ 122
  · have between : ∀ n < 123, 97 ≤ n →
        (Char.ofNat n).toUpper.toUpper = (Char.ofNat n).toUpper := by decide
    have low : 97 ≤ c.toNat := small.1
    have high : c.toNat ≤ 122 := small.2
    have whole := between c.toNat (by omega) low
    rwa [Char.ofNat_toNat] at whole
  · have kept : c.toUpper = c := dif_neg small
    rw [kept, kept]

@[simp] theorem upper_upper (s : String) : upper (upper s) = upper s := by
  rw [upper, toList_upper, List.map_map, upper]
  congr 1
  apply List.map_congr_left
  intro c _
  exact toUpper_toUpper c

/-- A text made of characters of a capital text is capital. -/
theorem upper_of_mem {s line : String} (h : ∀ c ∈ s.toList, c ∈ (upper line).toList) :
    upper s = s := by
  have kept : ∀ c ∈ s.toList, c.toUpper = c := by
    intro c hc
    have mem := h c hc
    rw [toList_upper] at mem
    obtain ⟨d, _, rfl⟩ := List.mem_map.mp mem
    exact toUpper_toUpper d
  rw [upper, List.map_congr_left kept, List.map_id', String.ofList_toList]

/-- What is said of no letter, or alike of both forms of one, is said whatever the case. -/
theorem toUpper_invariant {α : Type} {p : Char → α}
    (both : ∀ n < 26, p (Char.ofNat (n + 97)) = p (Char.ofNat (n + 65))) (c : Char) :
    p c.toUpper = p c := by
  by_cases small : c.val ≥ 97 ∧ c.val ≤ 122
  · have capital : ∀ n < 26, (Char.ofNat (n + 97)).toUpper = Char.ofNat (n + 65) := by decide
    have low : 97 ≤ c.toNat := small.1
    have high : c.toNat ≤ 122 := small.2
    have own : Char.ofNat (c.toNat - 97 + 97) = c := by
      rw [Nat.sub_add_cancel low, Char.ofNat_toNat]
    rw [← own, capital _ (by omega), both _ (by omega)]
  · have kept : c.toUpper = c := dif_neg small
    rw [kept]

end WordMachine.Text
