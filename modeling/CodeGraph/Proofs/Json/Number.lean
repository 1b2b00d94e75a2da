import CodeGraph.Json.Basic
import CodeGraph.Json.Reading

/-!
# Integers read back

An integer is written as its decimal digits behind its sign. As it has no zero in front, neither
point nor exponent behind, and fits into 64 bits, it is read as that integer
(`value?_digits`, `value?_digits_negative`).
-/

namespace CodeGraph.Json

/-! ## Digits -/

theorem isDigit_of_mem_toDigits {n : Nat} {c : Char} (h : c ∈ Nat.toDigits 10 n) :
    isDigit c = true := by
  have hdigit := Nat.isDigit_of_mem_toDigits (by decide) (by decide) h
  simpa [isDigit, Char.isDigit, Char.le_def] using hdigit

theorem exists_toDigits_eq_cons (n : Nat) :
    ∃ c s, Nat.toDigits 10 n = c :: s ∧ isDigit c = true := by
  obtain ⟨c, s, hdigits⟩ := List.exists_cons_of_ne_nil (Nat.toDigits_ne_nil (n := n) (b := 10))
  have hmem : c ∈ Nat.toDigits 10 n := by
    rw [hdigits]
    exact List.mem_cons_self
  exact ⟨c, s, hdigits, isDigit_of_mem_toDigits hmem⟩

/-- Whether a text does not go on with a number. -/
def EndsNumber (rest : List Char) : Prop :=
  ∀ c s, rest = c :: s → isDigit c = false ∧ c ≠ '.' ∧ c ≠ 'e' ∧ c ≠ 'E'

theorem takeWhile_digits {rest : List Char} (h : EndsNumber rest) (n : Nat) :
    (Nat.toDigits 10 n ++ rest).takeWhile isDigit = Nat.toDigits 10 n := by
  rw [List.takeWhile_append_of_pos fun c => isDigit_of_mem_toDigits]
  cases rest with
  | nil => simp
  | cons c s => rw [List.takeWhile_cons_of_neg (by simp [(h c s rfl).1]), List.append_nil]

theorem dropWhile_digits {rest : List Char} (h : EndsNumber rest) (n : Nat) :
    (Nat.toDigits 10 n ++ rest).dropWhile isDigit = rest := by
  rw [List.dropWhile_append_of_pos fun c => isDigit_of_mem_toDigits]
  cases rest with
  | nil => rfl
  | cons c s => rw [List.dropWhile_cons_of_neg (by simp [(h c s rfl).1])]

theorem eq_nil_of_toDigits {n : Nat} {s : List Char} (h : Nat.toDigits 10 n = '0' :: s) :
    s = [] := by
  suffices hzero : n = 0 by
    rw [hzero, Nat.toDigits_zero] at h
    exact (List.cons.inj h).2.symm
  induction n using Nat.strongRecOn generalizing s with
  | _ n ih =>
    rw [Nat.toDigits_eq_if (by decide)] at h
    split at h
    · exact Nat.digitChar_eq_zero.1 (List.cons.inj h).1
    · next hge =>
      -- The digits but the last are those of a smaller number, which would be zero.
      cases hfirst : Nat.toDigits 10 (n / 10) with
      | nil => exact absurd hfirst Nat.toDigits_ne_nil
      | cons c first =>
        rw [hfirst, List.cons_append, List.cons.injEq] at h
        have := ih (n / 10) (by omega) (h.1 ▸ hfirst)
        omega

theorem readWhole?_digits {rest : List Char} (h : EndsNumber rest) (n : Nat) :
    readWhole? (Nat.toDigits 10 n ++ rest) = some (Nat.toDigits 10 n, rest) := by
  unfold readWhole?
  rw [takeWhile_digits h, dropWhile_digits h]
  split
  · next hnil => exact absurd hnil Nat.toDigits_ne_nil
  · next hzero => rw [hzero]
  · next s hnot hzero => exact absurd (eq_nil_of_toDigits hzero) hnot
  · rfl

theorem readNumeral?_digits {rest : List Char} (h : EndsNumber rest) (negative : Bool) (n : Nat) :
    readNumeral? negative (Nat.toDigits 10 n ++ rest) =
      some (⟨negative, Nat.toDigits 10 n, none, none⟩, rest) := by
  have hfraction : readFraction? rest = some (none, rest) := by
    unfold readFraction?
    split
    · exact absurd rfl (h _ _ rfl).2.1
    · rfl
  have hexponent : readExponent? rest = some (none, rest) := by
    unfold readExponent?
    split
    · exact absurd rfl (h _ _ rfl).2.2.1
    · exact absurd rfl (h _ _ rfl).2.2.2
    · rfl
  unfold readNumeral?
  simp only [readWhole?_digits h, hfraction, hexponent, Option.bind_eq_bind, Option.bind_some]

namespace Numeral

theorem le_ofDigitChars (cs : List Char) (n : Nat) : n ≤ Nat.ofDigitChars 10 cs n := by
  induction cs generalizing n with
  | nil => exact Nat.le_of_eq Nat.ofDigitChars_nil.symm
  | cons c cs ih =>
    rw [Nat.ofDigitChars_cons]
    have hle := ih (10 * n + (c.toNat - '0'.toNat))
    omega

theorem appendDigits_eq {cs : List Char} {n : Nat} (h : Nat.ofDigitChars 10 cs n < UInt64.size) :
    appendDigits n cs = (Nat.ofDigitChars 10 cs n, []) := by
  induction cs generalizing n with
  | nil => rw [appendDigits, Nat.ofDigitChars_nil]
  | cons c cs ih =>
    rw [Nat.ofDigitChars_cons, Nat.mul_comm] at h ⊢
    have hle := le_ofDigitChars cs (n * 10 + (c.toNat - '0'.toNat))
    rw [appendDigits]
    exact (if_pos (Nat.lt_of_le_of_lt hle h)).trans (ih h)

theorem appendDigits_digits {n : Nat} (h : n < UInt64.size) :
    appendDigits 0 (Nat.toDigits 10 n) = (n, []) := by
  have hspelled : Nat.ofDigitChars 10 (Nat.toDigits 10 n) 0 = n := Nat.ofDigitChars_ten_toDigits
  rw [appendDigits_eq (hspelled.symm ▸ h), hspelled]

theorem value?_digits {n : Nat} (h : n < UInt64.size) :
    value? ⟨false, Nat.toDigits 10 n, none, none⟩ = some (.natural (UInt64.ofNat n)) := by
  unfold value?
  simp only [appendDigits_digits h]
  rfl

theorem value?_digits_negative {n : Nat} (hpos : 0 < n) (h : n ≤ 1 <<< 63) :
    value? ⟨true, Nat.toDigits 10 n, none, none⟩ = some (.negative (Int64.ofInt (-n))) := by
  have hsize : n < UInt64.size := Nat.lt_of_le_of_lt h (by decide)
  unfold value?
  have hsmall : 0 < n ∧ n ≤ 1 <<< 63 := ⟨hpos, h⟩
  simp only [appendDigits_digits hsize, Option.isSome_none, List.isEmpty_nil, Bool.not_true,
    Bool.or_self, Bool.false_eq_true, if_false]
  exact if_pos hsmall

end Numeral

end CodeGraph.Json
