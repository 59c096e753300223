import DirectoryAccess.Text.Numeral

/-!
# Numerals denote their numbers
-/
namespace DirectoryAccess.Text

theorem numberOf_eq_ofDigitChars (digits : List Char) :
    numberOf digits = Nat.ofDigitChars 10 digits 0 :=
  Nat.ofDigitChars_eq_foldl.symm

theorem toList_toString (n : Nat) : (toString n).toList = Nat.toDigits 10 n :=
  Nat.toList_repr

theorem isDigit_of_mem_toString {n : Nat} {c : Char} (h : c ∈ (toString n).toList) :
    c.isDigit = true := by
  rw [toList_toString] at h
  exact Nat.isDigit_of_mem_toDigits (by omega) (by omega) h

theorem numberOf_toString (n : Nat) : numberOf (toString n).toList = n := by
  rw [numberOf_eq_ofDigitChars, toList_toString]
  exact Nat.ofDigitChars_toDigits (by omega) (by omega)

theorem toString_ne_nil (n : Nat) : (toString n).toList ≠ [] := by
  rw [toList_toString]
  exact Nat.toDigits_ne_nil

theorem number?_of_digits {cs : List Char} (full : cs ≠ [])
    (digits : ∀ c ∈ cs, c.isDigit = true) : number? cs = some (numberOf cs) := by
  have noPlus : '+' ∉ cs := by
    intro mem
    have plus := digits '+' mem
    revert plus
    decide
  unfold number?
  dsimp only
  split
  · next r => simp at noPlus
  · exact if_pos ⟨full, List.all_eq_true.mpr digits⟩

theorem number?_toString (n : Nat) : number? (toString n).toList = some n := by
  rw [number?_of_digits (toString_ne_nil n) fun c hc => isDigit_of_mem_toString hc,
    numberOf_toString]

/-! ### Numerals of a fixed width -/

theorem toList_paddedNumeral (width n : Nat) :
    (paddedNumeral width n).toList =
      List.replicate (width - (Nat.toDigits 10 n).length) '0' ++ Nat.toDigits 10 n := by
  unfold paddedNumeral
  dsimp only
  rw [String.toList_append, String.toList_ofList, toList_toString, ← String.length_toList,
    toList_toString]

theorem numberOf_paddedNumeral (width n : Nat) : numberOf (paddedNumeral width n).toList = n := by
  rw [numberOf_eq_ofDigitChars, toList_paddedNumeral, Nat.ofDigitChars_append,
    Nat.ofDigitChars_replicate_zero, Nat.mul_zero]
  exact Nat.ofDigitChars_toDigits (by omega) (by omega)

theorem isDigit_of_mem_paddedNumeral {width n : Nat} {c : Char}
    (h : c ∈ (paddedNumeral width n).toList) : c.isDigit = true := by
  rw [toList_paddedNumeral] at h
  rcases List.mem_append.mp h with h | h
  · rw [(List.mem_replicate.mp h).2]
    decide
  · exact Nat.isDigit_of_mem_toDigits (by omega) (by omega) h

theorem length_paddedNumeral {width n : Nat} (fits : (Nat.toDigits 10 n).length ≤ width) :
    (paddedNumeral width n).toList.length = width := by
  rw [toList_paddedNumeral, List.length_append, List.length_replicate]
  omega

/-! ### Numerals without leading zeros -/

theorem toNat_of_isDigit {c : Char} (h : c.isDigit = true) : 48 ≤ c.toNat ∧ c.toNat ≤ 57 := by
  simp only [Char.isDigit, Bool.and_eq_true, decide_eq_true_eq, ge_iff_le,
    UInt32.le_iff_toNat_le] at h
  exact h

theorem digitValue_lt {c : Char} (h : c.isDigit = true) : digitValue c < 10 := by
  obtain ⟨_, high⟩ := toNat_of_isDigit h
  have zero : '0'.toNat = 48 := rfl
  unfold digitValue
  omega

theorem digitChar_digitValue {c : Char} (h : c.isDigit = true) : (digitValue c).digitChar = c := by
  obtain ⟨low, _⟩ := toNat_of_isDigit h
  refine Char.toNat_inj.mp ?_
  rw [Nat.toNat_digitChar_of_lt_ten (digitValue_lt h)]
  have zero : '0'.toNat = 48 := rfl
  unfold digitValue
  omega

/-- Digits behind a number that is not zero are the last digits of the number they make of it. -/
theorem toDigits_foldl {n : Nat} {cs : List Char} (pos : 0 < n)
    (digits : ∀ c ∈ cs, c.isDigit = true) :
    Nat.toDigits 10 (cs.foldl (fun n c => 10 * n + digitValue c) n) = Nat.toDigits 10 n ++ cs := by
  induction cs generalizing n with
  | nil => simp
  | cons c cs ih =>
    obtain ⟨digit, others⟩ := List.forall_mem_cons.mp digits
    have bound := digitValue_lt digit
    rw [List.foldl_cons, ih (by omega) others, ← Nat.toDigits_append_toDigits (by omega) pos bound,
      Nat.toDigits_of_lt_base bound, digitChar_digitValue digit]
    simp

/-- A numeral with no zero in front is what its number is written as. -/
theorem toString_numberOf {c : Char} {cs : List Char} (lead : c ≠ '0')
    (digits : ∀ d ∈ c :: cs, d.isDigit = true) :
    (toString (numberOf (c :: cs))).toList = c :: cs := by
  obtain ⟨digit, others⟩ := List.forall_mem_cons.mp digits
  have own := digitChar_digitValue digit
  have pos : 0 < digitValue c := by
    refine Nat.pos_of_ne_zero fun zero => lead ?_
    rw [← own, zero]
    rfl
  have first : 10 * 0 + digitValue c = digitValue c := by omega
  rw [toList_toString, numberOf, List.foldl_cons, first, toDigits_foldl pos others,
    Nat.toDigits_of_lt_base (digitValue_lt digit), own]
  rfl

end DirectoryAccess.Text
