import DeskCalc.Numeral.Digits
import Mathlib.Data.List.Induction
import Mathlib.Tactic.Linarith
import Mathlib.Tactic.Ring

/-!
# The number of a digit text

Reading from left to right gives positional notation: a text behind another one
shifts it by its length. Zeros in front do not count, and a text that starts with
another digit has the magnitude that its length says.
-/

namespace DeskCalc.Digits

theorem areDigits_cons {c : Char} {rest : List Char} :
    areDigits (c :: rest) = true ↔ c.isDigit = true ∧ areDigits rest = true := by
  rw [areDigits, List.all_cons, Bool.and_eq_true, areDigits]

theorem areDigits_append {a b : List Char} :
    areDigits (a ++ b) = true ↔ areDigits a = true ∧ areDigits b = true := by
  rw [areDigits, List.all_append, Bool.and_eq_true, areDigits, areDigits]

theorem areDigits_dropWhile {text : List Char} (h : areDigits text = true) (p : Char → Bool) :
    areDigits (text.dropWhile p) = true := by
  rw [areDigits, List.all_eq_true] at h ⊢
  intro c hc
  exact h c ((List.dropWhile_sublist p).subset hc)

theorem value_bounds {c : Char} (h : c.isDigit = true) :
    '0'.toNat ≤ c.toNat ∧ c.toNat ≤ '9'.toNat := by
  simp only [Char.isDigit, Bool.and_eq_true, decide_eq_true_eq] at h
  exact h

theorem value_lt_ten {c : Char} (h : c.isDigit = true) : value c < 10 := by
  have hc := value_bounds h
  have hzero : '0'.toNat = 48 := rfl
  have hnine : '9'.toNat = 57 := rfl
  rw [value]
  omega

theorem value_pos {c : Char} (h : c.isDigit = true) (hne : c ≠ '0') : 0 < value c := by
  have hc := value_bounds h
  have hzero : '0'.toNat ≠ c.toNat := fun heq => hne (Char.toNat_inj.mp heq).symm
  rw [value]
  omega

theorem toNat_append (a b : List Char) :
    toNat (a ++ b) = toNat a * tenPow b.length + toNat b := by
  induction b using List.reverseRecOn with
  | nil => simp
  | append_singleton b c ih =>
      rw [← List.append_assoc, toNat_concat, toNat_concat, ih, List.length_append,
        List.length_singleton, tenPow_succ]
      ring

theorem toNat_cons (c : Char) (rest : List Char) :
    toNat (c :: rest) = value c * tenPow rest.length + toNat rest := by
  have hsingle : toNat [c] = value c := by simp [toNat]
  rw [← hsingle, ← toNat_append]
  rfl

theorem toNat_lt {digits : List Char} (h : areDigits digits = true) :
    toNat digits < tenPow digits.length := by
  induction digits with
  | nil => exact Nat.one_pos
  | cons c rest ih =>
      obtain ⟨hc, hrest⟩ := areDigits_cons.mp h
      have hlt := ih hrest
      have hle : (value c + 1) * tenPow rest.length ≤ 10 * tenPow rest.length :=
        Nat.mul_le_mul_right _ (value_lt_ten hc)
      rw [toNat_cons, List.length_cons, tenPow_succ]
      linarith

theorem toNat_replicate_zero (n : Nat) : toNat (List.replicate n '0') = 0 := by
  induction n with
  | zero => rfl
  | succ n ih =>
      rw [List.replicate_succ, toNat_cons, ih]
      simp [value]

theorem toNat_dropWhile_zero (digits : List Char) :
    toNat (digits.dropWhile (· == '0')) = toNat digits := by
  induction digits with
  | nil => rfl
  | cons c rest ih =>
      by_cases hc : c = '0'
      · rw [List.dropWhile_cons_of_pos (by simp [hc]), ih, toNat_cons, hc]
        simp [value]
      · rw [List.dropWhile_cons_of_neg (by simp [hc])]

/-- A first digit other than zero stands for a number of the text's length. -/
theorem tenPow_le_toNat {c : Char} (h : c.isDigit = true) (hne : c ≠ '0') (rest : List Char) :
    tenPow rest.length ≤ toNat (c :: rest) := by
  rw [toNat_cons]
  exact le_trans (Nat.le_mul_of_pos_left _ (value_pos h hne)) (Nat.le_add_right _ _)

/-- Behind the zeros in front nothing is left of a zero, and of any other number as many digits
as its magnitude says. -/
theorem dropWhile_zero_cases {digits : List Char} (h : areDigits digits = true) :
    (digits.dropWhile (· == '0') = [] ∧ toNat digits = 0) ∨
      ∃ c rest, digits.dropWhile (· == '0') = c :: rest ∧ areDigits (c :: rest) = true ∧
        toNat digits = toNat (c :: rest) ∧ tenPow rest.length ≤ toNat (c :: rest) := by
  have hnumber := toNat_dropWhile_zero digits
  cases hsignificant : digits.dropWhile (· == '0') with
  | nil =>
      rw [hsignificant] at hnumber
      exact Or.inl ⟨rfl, hnumber.symm⟩
  | cons c rest =>
      have hdigits : areDigits (c :: rest) = true := hsignificant ▸ areDigits_dropWhile h _
      have hfirst : c ≠ '0' := by
        have hhead := List.head?_dropWhile_not (· == '0') digits
        rw [hsignificant] at hhead
        simpa using hhead
      rw [hsignificant] at hnumber
      exact Or.inr ⟨c, rest, rfl, hdigits, hnumber.symm,
        tenPow_le_toNat (areDigits_cons.mp hdigits).1 hfirst rest⟩

theorem areDigits_replicate_zero (n : Nat) : areDigits (List.replicate n '0') = true := by
  rw [areDigits, List.all_eq_true]
  intro c hc
  rw [List.eq_of_mem_replicate hc]
  rfl

theorem toNat_append_zeros (digits : List Char) (n : Nat) :
    toNat (digits ++ List.replicate n '0') = toNat digits * tenPow n := by
  rw [toNat_append, toNat_replicate_zero, List.length_replicate, Nat.add_zero]

theorem value_injective {c d : Char} (hc : c.isDigit = true) (hd : d.isDigit = true)
    (h : value c = value d) : c = d := by
  have hcbounds := value_bounds hc
  have hdbounds := value_bounds hd
  rw [value, value] at h
  exact Char.toNat_inj.mp (by omega)

/-- A number in front of `k` digits and the number of the digits are known from both. -/
theorem split_unique {k m m' n n' : Nat} (hn : n < tenPow k) (hn' : n' < tenPow k)
    (h : m * tenPow k + n = m' * tenPow k + n') : m = m' ∧ n = n' := by
  have hmod := congrArg (· % tenPow k) h
  simp only [Nat.mul_add_mod_of_lt, hn, hn'] at hmod
  rw [hmod] at h
  exact ⟨Nat.eq_of_mul_eq_mul_right (tenPow_pos k) (Nat.add_right_cancel h), hmod⟩

/-- Texts of one length are told apart by their numbers. -/
theorem eq_of_toNat_eq {a b : List Char} (ha : areDigits a = true) (hb : areDigits b = true)
    (hlength : a.length = b.length) (h : toNat a = toNat b) : a = b := by
  induction a generalizing b with
  | nil => exact (List.eq_nil_of_length_eq_zero hlength.symm).symm
  | cons c a ih =>
      cases b with
      | nil => cases hlength
      | cons d b =>
          obtain ⟨hc, ha⟩ := areDigits_cons.mp ha
          obtain ⟨hd, hb⟩ := areDigits_cons.mp hb
          have hrest : a.length = b.length := Nat.succ.inj hlength
          rw [toNat_cons, toNat_cons, ← hrest] at h
          obtain ⟨hfirst, hnumber⟩ := split_unique (toNat_lt ha) (hrest ▸ toNat_lt hb) h
          rw [value_injective hc hd hfirst, ih ha hb hrest hnumber]

end DeskCalc.Digits
